import PetLab.VMproject.UserMemory

/-!
# Runs of a process on its memory

Whatever a process does with the memory it gets from `pet_malloc`, in any order and however
the TLB is filled in between: as long as its calls are `Careful`, it runs as on a memory made
of objects (`userRun_refines`). So a word that is read is the last one that was stored there
since the `pet_malloc` of its segment, or zero (`stored_of_events`), and an access to an
address that is not live is what kills the process, and nothing else (`userRun_answers`).
-/

namespace PetLab.VMproject

open PetLab.Lib

section

variable {va : ℕ → ℕ} {K : Kernel} {x : Process × Tlb} {M : ObjMem ℕ ℕ Entry}

/-- **One call or access**: what the process sees is the memory after the event, and what is not
its own is left alone. -/
theorem Sees.step {call : UserCall} {s' : Option (Process × Tlb)} (hK : K.Fresh) (h : Sees x M)
    (hstep : UserStep va K (some x) call s') (hcare : Careful (some x) call) :
    ∃ M', Exec (MemStep Entry.zero) M call.event.toList M' ∧
      ∀ x', s' = some x' → Sees x' M' ∧ Footprint x.1.m x'.1.m := by
  cases hstep with
  | @malloc st T T' size fill =>
    obtain ⟨M', hM', hsees⟩ := h.malloc hcare.1 hcare.2
    refine ⟨M', hM', fun x' hx' => ?_⟩
    obtain rfl := Option.some.inj hx'
    exact ⟨hsees.fill fill, .refl _⟩
  | @free st st' T T' addr hfree =>
    refine ⟨{ M with cells := Function.update M.cells addr.toNat none }, .single rfl, fun x' hx' => ?_⟩
    obtain rfl := Option.some.inj hx'
    exact h.free hK hcare hfree
  | @load _ st T f v htouch =>
    obtain ⟨hno, -⟩ | ⟨st', T', f', heq, hlive, hsees, hf, hfoot⟩ := h.touch hK htouch v.2 hcare
    · cases hno
    · obtain ⟨rfl, rfl, rfl⟩ : st = st' ∧ T = T' ∧ f = f' := by simpa using heq
      have hheld := hsees.held v f (hsees.live_iff.mp hlive) hf
      refine ⟨M, .single ⟨hlive, hheld, rfl⟩, fun x' hx' => ?_⟩
      obtain rfl := Option.some.inj hx'
      exact ⟨hsees, hfoot⟩
  | @store _ st T f v w htouch =>
    obtain ⟨hno, -⟩ | ⟨st', T', f', heq, hlive, hsees, hf, hfoot⟩ := h.touch hK htouch v.2 hcare
    · cases hno
    · obtain ⟨rfl, rfl, rfl⟩ : st = st' ∧ T = T' ∧ f = f' := by simpa using heq
      refine ⟨⟨M.cells, Function.update M.word ((v : ℕ) / 8) w⟩,
        .single ⟨hlive, rfl, Function.update_self .., fun b hb => Function.update_of_ne hb ..⟩, fun x' hx' => ?_⟩
      obtain rfl := Option.some.inj hx'
      exact ⟨hsees.store hlive hf w, hfoot.trans (store_footprint hsees.vm.unshared v.2 hf (wordIndex v) w)⟩
  | @crash _ v htouch =>
    obtain ⟨-, hdead⟩ | ⟨_, _, _, heq, -⟩ := h.touch hK htouch v.2 hcare
    · exact ⟨M, .single ⟨hdead, rfl⟩, fun x' hx' => by cases hx'⟩
    · cases heq

/-- A process that has just opened the device has no memory. -/
theorem sees_new {st₀ : Process} (h₀ : NewProcess st₀) (hempty : ∀ v, InRegion v → translate st₀.m v = none)
    (T₀ : Tlb) : Sees (st₀, T₀) (.empty Entry.zero) := by
  have hvm := h₀.vmInv
  obtain ⟨junk, hmap⟩ := h₀.map
  have hnone : ∀ v, petmemFindAddress st₀.map v = none := by
    intro v
    simp [petmemFindAddress, hmap, petmemInitProcess, MemMap.holds]
  refine ⟨hvm, ⟨[], hmap ▸ liveInv_init junk⟩, fun k s => iff_of_false (by simp [ObjMem.empty]) ?_,
    fun v hv hmapped => absurd (hempty v hv) hmapped, fun v _ hv => absurd (hnone v) hv,
    fun v _ hv => absurd (hnone v) hv, fun v hv => absurd (hnone v) hv⟩
  rintro ⟨n, hn, ha, -⟩
  have hfree : n.allocated = 0 := by
    rw [show (st₀, T₀).1.map = _ from hmap] at hn
    rw [List.mem_singleton.mp hn]
  exact absurd (hfree.symm.trans ha) (by decide)

theorem sees_of_run {st₀ : Process} (hK : K.Fresh) (h₀ : NewProcess st₀)
    (hempty : ∀ v, InRegion v → translate st₀.m v = none) {T₀ : Tlb} {calls : List UserCall}
    {s : Option (Process × Tlb)} (hrun : Exec (Guard Careful (UserStep va K)) (some (st₀, T₀)) calls s) :
    ∃ M, Exec (MemStep Entry.zero) (.empty Entry.zero) (calls.filterMap UserCall.event) M ∧
      ∀ x, s = some x → Sees x M := by
  refine hrun.refine (Q := fun s M => ∀ x, s = some x → Sees x M) ?_ ?_
  · intro x hx
    obtain rfl := Option.some.inj hx
    exact sees_new h₀ hempty T₀
  · rintro s M call s' hsees ⟨hcare, hstep⟩
    cases s with
    | none => cases hstep
    | some x =>
      obtain ⟨M', hM', hsees'⟩ := (hsees x rfl).step hK hstep hcare
      exact ⟨M', hM', fun x' hx' => (hsees' x' hx').1⟩

end

/-! ### Every call has an answer -/

section

variable {va : ℕ → ℕ} {K : Kernel} {M : ObjMem ℕ ℕ Entry} {st : Process} {T : Tlb}

/-- An access to a live address gets through, after one fault at most. -/
theorem Sees.exists_touch (hK : K.Fresh) (h : Sees (st, T) M) {v : ℕ}
    (hfind : petmemFindAddress st.map v ≠ none) :
    ∃ st' T' f, Touch va K v (st, T) (some (st', T', f)) := by
  have hhit : ∀ (st : Process) (T : Tlb), translate st.m v ≠ none →
      ∃ T' f, Touch va K v (st, T) (some (st, T', f)) := by
    intro st T hmapped
    obtain ⟨f, hf⟩ := Option.ne_none_iff_exists'.mp hmapped
    exact ⟨insert (v / 4096, f) T, f, .hit ⟨[.fill v f], rfl, .single ⟨hf, rfl⟩⟩ (Set.mem_insert _ _)⟩
  by_cases hmapped : translate st.m v = none
  · obtain ⟨st', hst', -, -, hflush⟩ := h.flushes hK hmapped hfind
    have htlb : VmTlbStep va K (st, T) (.pagefault v 1) (st', ∅) := by
      refine ⟨⟨0, hst'⟩, ?_⟩
      simp only [hflush, if_true]
      exact ⟨[], rfl, .nil⟩
    obtain ⟨T', f, htouch⟩ := hhit _ ∅ (h.fault hK hmapped hfind htlb).2.1
    exact ⟨_, T', f, .fault hmapped (segvHandler_handled hst') htlb htouch⟩
  · obtain ⟨T', f, htouch⟩ := hhit st T hmapped
    exact ⟨st, T', f, htouch⟩

/-- Statements can be executed without anything being cached in between. -/
theorem exists_stmtsTlb_plain (va : ℕ → ℕ) (ss : List Stmt) (m : Machine) (T : Tlb) :
    ∃ T', StmtsTlb va ss m T (ss.foldl Stmt.exec m) T' := by
  induction ss using List.reverseRecOn with
  | nil => exact ⟨T, [], rfl, .nil⟩
  | append_singleton ss s ih =>
    obtain ⟨T', labels, rfl, hrun⟩ := ih
    rw [List.foldl_append]
    refine ⟨s.onTlb va T', labels ++ [.stmt s], by simp [TlbLabel.stmt?], ?_⟩
    exact .snoc hrun rfl

/-- A free that the first table decides returns. -/
theorem Sees.exists_free (h : Sees (st, T) M) {vaddr : ℕ} (hfirst : FreeMeets FirstTable st (.free vaddr)) :
    ∃ st' T', FreeTlb va st T vaddr st' T' := by
  obtain ⟨st', fuel, hst'⟩ : ∃ st', FreeVspace st vaddr st' := by
    cases hp : freeLoop vaddr st.map.nodes with
    | none => exact ⟨st, 0, by simp only [petmemFreeVspace, hp]⟩
    | some p =>
      obtain ⟨st', hst', -⟩ := h.vm.free hp (hfirst p hp)
      exact ⟨st', hst'⟩
  obtain ⟨T', hT'⟩ := exists_stmtsTlb_plain va (freeVspaceStmts fuel st vaddr) st.m T
  rw [← petmemFreeVspace_stmts hst'] at hT'
  exact ⟨st', T', fuel, hst', hT'⟩

end

/-! ### Two pages -/

/-- The first address of the region. -/
def firstAddr : RegionAddr := ⟨petmemRegionStart, by decide⟩

/-- Two pages are allocated, and a word is stored in the first. -/
def storeCalls (w : Entry) : List UserCall := [.malloc 8192 0x1000000000, .store firstAddr w]

/-- The process can do this. -/
theorem exists_storeRun (w : Entry) : ∃ st T M, Exec (Guard Careful (UserStep directMapPage .bump))
    (some (.blank, ∅)) (storeCalls w) (some (st, T)) ∧ Sees (st, T) M ∧ petmemFindAddress st.map firstAddr ≠ none := by
  have hK := Kernel.bump_fresh
  obtain ⟨x, hx⟩ : ∃ x : Process × Tlb, x = ({ Process.blank with map := (petMalloc Process.blank.map 8192).2 }, ∅) :=
    ⟨_, rfl⟩
  have haddr : (petMalloc Process.blank.map 8192).1 = 0x1000000000 := by decide +kernel
  have hmalloc : UserStep directMapPage .bump (some (.blank, ∅)) (.malloc 8192 0x1000000000) (some x) := by
    rw [hx, ← haddr]
    exact .malloc 8192 ⟨[], rfl, .nil⟩
  have hcare : Careful (some (.blank, ∅)) (.malloc 8192 0x1000000000) := by
    refine ⟨fun h => ?_, fun p hp => absurd hp (Set.notMem_empty p)⟩
    rw [← lazyAllocPages_eq_zero_iff] at h
    exact absurd h (by decide)
  have hrun : Exec (Guard Careful (UserStep directMapPage .bump)) (some (.blank, ∅)) [.malloc 8192 0x1000000000]
      (some x) := .single ⟨hcare, hmalloc⟩
  obtain ⟨M, -, hsees⟩ := sees_of_run hK newProcess_blank (fun v hv => translate_blank hv) hrun
  have hfind : petmemFindAddress x.1.map firstAddr ≠ none := by
    rw [hx]
    decide +kernel
  obtain ⟨st, T, f, htouch⟩ := (hsees x rfl).exists_touch hK hfind
  have hstore := UserStep.store w htouch
  obtain ⟨M', hM', hsees'⟩ := (hsees x rfl).step hK hstore (Or.inl hfind)
  refine ⟨_, T, M', .snoc hrun ⟨Or.inl hfind, hstore⟩, (hsees' _ rfl).1, (hsees' _ rfl).1.live_iff.mp ?_⟩
  obtain ⟨M'', ⟨⟨k, s, hk, hs⟩, hcells, -⟩, hnil⟩ := exec_cons_iff.mp hM'
  obtain rfl := exec_nil_iff.mp hnil
  exact ⟨k, s, hcells ▸ hk, hs⟩

/-- And then read the word. -/
theorem exists_loadRun (w : Entry) : ∃ w' s, Exec (Guard Careful (UserStep directMapPage .bump)) (some (.blank, ∅))
    (storeCalls w ++ [.load firstAddr w']) s := by
  obtain ⟨st, T, M, hrun, hsees, hfind⟩ := exists_storeRun w
  obtain ⟨st', T', f, htouch⟩ := hsees.exists_touch (Kernel.bump_fresh) hfind
  exact ⟨_, _, .snoc hrun ⟨Or.inl hfind, UserStep.load htouch⟩⟩

/-! ### The refinement -/

/-- **The process runs as on a memory made of objects.** -/
theorem userRun_refines (va : ℕ → ℕ) (K : Kernel) (hK : ∀ m, ∃ f, K.getZeroedPage m = some f ∧ f ∉ m.allocated)
    (st₀ : Process) (h₀ : NewProcess st₀) (hempty : ∀ v, InRegion v → translate st₀.m v = none) (T₀ : Tlb)
    (calls : List UserCall) (s : Option (Process × Tlb))
    (hrun : Exec (Guard Careful (UserStep va K)) (some (st₀, T₀)) calls s) :
    ∃ M, Exec (MemStep Entry.zero) (.empty Entry.zero) (calls.filterMap UserCall.event) M ∧
      ∀ x, s = some x → Sees x M :=
  sees_of_run hK h₀ hempty hrun

/-- A word stored and read again. -/
theorem userRun_refines_word : ∃ w s M, Exec (Guard Careful (UserStep directMapPage .bump)) (some (.blank, ∅))
      (storeCalls Entry.zero ++ [.load firstAddr w]) s ∧
    Exec (MemStep Entry.zero) (.empty Entry.zero)
      ((storeCalls Entry.zero ++ [UserCall.load firstAddr w]).filterMap UserCall.event) M := by
  obtain ⟨w, s, hrun⟩ := exists_loadRun Entry.zero
  obtain ⟨M, hM, -⟩ := userRun_refines directMapPage .bump Kernel.bump_fresh .blank newProcess_blank
    (fun v hv => translate_blank hv) ∅ _ s hrun
  exact ⟨w, s, M, hrun, hM⟩

/-! ### What is read -/

/-- The call is the one `event` makes of it. -/
theorem UserCall.event_eq_grant {call : UserCall} {k : ℕ} {s : Set ℕ} (h : call.event = some (.grant k s)) :
    ∃ size addr, call = .malloc size addr ∧ addr ≠ 0 ∧ addr.toNat = k ∧
      words addr.toNat (4096 * (lazyAllocPages size).toNat) = s := by
  cases call with
  | malloc size addr =>
    rw [UserCall.event] at h
    split_ifs at h with haddr
    simp only [Option.some.injEq, MemEvent.grant.injEq] at h
    exact ⟨size, addr, rfl, haddr, h.1, h.2⟩
  | free addr => simp [UserCall.event] at h
  | load v w => simp [UserCall.event] at h
  | store v w => simp [UserCall.event] at h
  | crash v => simp [UserCall.event] at h

theorem UserCall.event_eq_write {call : UserCall} {a : ℕ} {w : Entry} (h : call.event = some (.write a w)) :
    ∃ u : RegionAddr, call = .store u w ∧ (u : ℕ) / 8 = a := by
  cases call with
  | malloc size addr =>
    rw [UserCall.event] at h
    split_ifs at h
    simp at h
  | free addr => simp [UserCall.event] at h
  | load v w => simp [UserCall.event] at h
  | store u w' =>
    simp only [UserCall.event, Option.some.injEq, MemEvent.write.injEq] at h
    exact ⟨u, by rw [h.2], h.1⟩
  | crash v => simp [UserCall.event] at h

/-- No call stores to word `a`. -/
def NoStore (calls : List UserCall) (a : ℕ) : Prop :=
  ∀ (u : RegionAddr) (w : Entry), .store u w ∈ calls → (u : ℕ) / 8 ≠ a

theorem noStore_of_events {calls : List UserCall} {a : ℕ} (h : ∀ w, .write a w ∉ calls.filterMap UserCall.event) :
    NoStore calls a := by
  rintro u w hmem rfl
  exact h w (List.mem_filterMap.mpr ⟨.store u w, hmem, rfl⟩)

/-- **A word that is read** is the last one stored there since the `pet_malloc` of its segment,
which has not been freed, or it is zero and nothing was stored there since. -/
theorem stored_of_events {calls : List UserCall} {v : RegionAddr} {w : Entry} {M : ObjMem ℕ ℕ Entry}
    (hM : Exec (MemStep Entry.zero) (.empty Entry.zero) ((calls ++ [UserCall.load v w]).filterMap UserCall.event) M) :
    ∃ size addr before since, calls = before ++ .malloc size addr :: since ∧ addr ≠ 0 ∧
      (v : ℕ) / 8 ∈ words addr.toNat (4096 * (lazyAllocPages size).toNat) ∧ .free addr ∉ since ∧
      ((w = Entry.zero ∧ NoStore since ((v : ℕ) / 8)) ∨
        ∃ (u : RegionAddr) (mid after : List UserCall), since = mid ++ .store u w :: after ∧
          (u : ℕ) / 8 = (v : ℕ) / 8 ∧ NoStore after ((v : ℕ) / 8)) := by
  rw [List.filterMap_append] at hM
  obtain ⟨k, s, hv, es₁, es₂, hes, hrelease, hlast⟩ := stored_of_read hM
  -- the events of the history are those of calls
  obtain ⟨before, rest, rfl, -, hrest⟩ := List.filterMap_eq_append_iff.mp hes
  obtain ⟨quiet, call, since, rfl, hquiet, hcall, hsince⟩ := List.filterMap_eq_cons_iff.mp hrest
  obtain ⟨size, addr, rfl, haddr, rfl, rfl⟩ := UserCall.event_eq_grant hcall
  refine ⟨size, addr, before ++ quiet, since, by simp, haddr, hv, fun hfree => ?_, ?_⟩
  · refine hrelease ?_
    rw [← hsince]
    exact List.mem_filterMap.mpr ⟨.free addr, hfree, rfl⟩
  · rcases hlast with ⟨hw, hno⟩ | ⟨es₃, es₄, hes', hno⟩
    · rw [← hsince] at hno
      exact .inl ⟨hw, noStore_of_events hno⟩
    · rw [hes'] at hsince
      obtain ⟨mid, rest', rfl, -, hrest'⟩ := List.filterMap_eq_append_iff.mp hsince
      obtain ⟨quiet', call', after, rfl, -, hcall', hafter⟩ := List.filterMap_eq_cons_iff.mp hrest'
      obtain ⟨u, rfl, hu⟩ := UserCall.event_eq_write hcall'
      rw [← hafter] at hno
      exact .inr ⟨u, mid ++ quiet', after, by simp, hu, noStore_of_events hno⟩

/-- In these calls there is one store. -/
theorem word_of_storeCalls {w u : Entry} {size addr : BitVec 64} {before since : List UserCall}
    (hcalls : storeCalls w = before ++ .malloc size addr :: since)
    (hlast : (u = Entry.zero ∧ NoStore since ((firstAddr : ℕ) / 8)) ∨
      ∃ (v : RegionAddr) (mid after : List UserCall), since = mid ++ .store v u :: after ∧
        (v : ℕ) / 8 = (firstAddr : ℕ) / 8 ∧ NoStore after ((firstAddr : ℕ) / 8)) : u = w := by
  obtain ⟨rfl, rfl⟩ : before = [] ∧ since = [.store firstAddr w] := by
    rcases before with - | ⟨c, - | ⟨c', before⟩⟩ <;> simp_all [storeCalls]
  rcases hlast with ⟨-, hno⟩ | ⟨v, mid, after, hsince, -⟩
  · exact absurd rfl (hno firstAddr _ List.mem_cons_self)
  · rcases mid with - | ⟨c, mid⟩
    · simp only [List.nil_append, List.cons.injEq, UserCall.store.injEq] at hsince
      exact hsince.1.2.symm
    · simp at hsince

/-! ### Every call is answered -/

/-- **Every call is answered.** In every state a process gets to by careful calls, a `pet_free`
that the first table decides returns; an access to a live address gets through and never kills
the process; an access to an address that is neither live nor cached kills it and never gets
through. -/
theorem userRun_answers (va : ℕ → ℕ) (K : Kernel) (hK : ∀ m, ∃ f, K.getZeroedPage m = some f ∧ f ∉ m.allocated)
    (st₀ : Process) (h₀ : NewProcess st₀) (hempty : ∀ v, InRegion v → translate st₀.m v = none) (T₀ : Tlb)
    (calls : List UserCall) (st : Process) (T : Tlb)
    (hrun : Exec (Guard Careful (UserStep va K)) (some (st₀, T₀)) calls (some (st, T))) :
    (∀ addr : BitVec 64, FreeMeets FirstTable st (.free addr.toNat) →
      ∃ x', UserStep va K (some (st, T)) (.free addr) (some x')) ∧
    (∀ v : RegionAddr, petmemFindAddress st.map v ≠ none →
      (∃ w x', UserStep va K (some (st, T)) (.load v w) (some x')) ∧
      (∀ w, ∃ x', UserStep va K (some (st, T)) (.store v w) (some x')) ∧
      ∀ s', ¬ UserStep va K (some (st, T)) (.crash v) s') ∧
    ∀ v : RegionAddr, petmemFindAddress st.map v = none → (∀ f, ((v : ℕ) / 4096, f) ∉ T) →
      UserStep va K (some (st, T)) (.crash v) none ∧
      ∀ w s', ¬ UserStep va K (some (st, T)) (.load v w) s' ∧ ¬ UserStep va K (some (st, T)) (.store v w) s' := by
  obtain ⟨M, -, hsees⟩ := sees_of_run hK h₀ hempty hrun
  have h := hsees _ rfl
  refine ⟨fun addr hcond => ?_, fun v hfind => ⟨?_, fun w => ?_, fun s' hcrash => ?_⟩,
    fun v hdead huncached => ⟨.crash (.killed ?_ ?_), fun w s' => ⟨fun hload => ?_, fun hstore => ?_⟩⟩⟩
  · obtain ⟨st', T', hfree⟩ := h.exists_free hcond
    exact ⟨_, .free hfree⟩
  · obtain ⟨st', T', f, htouch⟩ := h.exists_touch hK hfind
    exact ⟨_, _, .load htouch⟩
  · obtain ⟨st', T', f, htouch⟩ := h.exists_touch hK hfind
    exact ⟨_, .store w htouch⟩
  · obtain ⟨_, hM', -⟩ := h.step hK hcrash (Or.inl hfind)
    obtain ⟨_, ⟨htrap, -⟩, -⟩ := exec_cons_iff.mp hM'
    exact htrap (h.live_iff.mpr hfind)
  · by_contra hmapped
    exact h.mapped v v.2 hmapped hdead
  · rw [segvHandler_refused hdead]
  · obtain ⟨_, hM', -⟩ := h.step hK hload (Or.inr huncached)
    obtain ⟨_, ⟨hlive, -⟩, -⟩ := exec_cons_iff.mp hM'
    exact h.live_iff.mp hlive hdead
  · obtain ⟨_, hM', -⟩ := h.step hK hstore (Or.inr huncached)
    obtain ⟨_, ⟨hlive, -⟩, -⟩ := exec_cons_iff.mp hM'
    exact h.live_iff.mp hlive hdead

/-- The word stored can be read. -/
theorem userRun_answers_word : ∃ st T, Exec (Guard Careful (UserStep directMapPage .bump)) (some (.blank, ∅))
      (storeCalls Entry.zero) (some (st, T)) ∧
    ∃ w x', UserStep directMapPage .bump (some (st, T)) (.load firstAddr w) (some x') := by
  obtain ⟨st, T, -, hrun, -, hfind⟩ := exists_storeRun Entry.zero
  obtain ⟨-, hlive, -⟩ := userRun_answers directMapPage .bump Kernel.bump_fresh .blank newProcess_blank
    (fun v hv => translate_blank hv) ∅ _ st T hrun
  exact ⟨st, T, hrun, (hlive firstAddr hfind).1⟩

end PetLab.VMproject
