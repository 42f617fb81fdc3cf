import PetLab.Lib.ObjectMemory
import PetLab.VMproject.LazyIoctl
import PetLab.VMproject.PageWords
import PetLab.VMproject.Tlb

/-!
# The memory a process sees

A process gets its memory from `pet_malloc` and `pet_free` (`harness.c`), and reads and writes
it like any other. The processor translates each address with what it has cached or with
the page tables. Where there is no translation it raises SIGSEGV; `segv_handler` hands the
address to `petmem_handle_pagefault`, and when that returns `0` the instruction is executed
again. When it does not, the handler puts the default action back and sends the signal to
the process, which is then gone; an oops of the driver kills the process, too.

To the process this is a memory made of objects (`PetLab.Lib.ObjMem`): what it has from
`pet_malloc` is its own, all zero at first, and keeps what is stored there until it is freed.
Under it are tables, pages that come and go, and a TLB, all in one physical memory.

## The model

A word is eight bytes, and what is said of it is what `Machine` has of it: the fields that
the driver would read there. An access is one to the word that has the address, and only
addresses of the region are accessed. Every entry that leads to a page of the region is
writable and open to the user, since `install` makes it so and nothing takes it back, so that
an access with a translation goes through and SIGSEGV has the code 1 (not present).

`Touch` is an access with the faults it takes: a page that is absent and still cached can be
hit or not. `UserStep` is a call or an access of the process, with its answer.
-/

namespace PetLab.VMproject

open PetLab.Lib

/-! ### The harness -/

/-- `pet_malloc`: the address, and the map. The request is clear when it is sent, so that its
address is `0` when the driver writes nothing back. -/
def petMalloc (map : MapHead) (size : BitVec 64) : BitVec 64 × MapHead :=
  let r := lazyAlloc map (some ⟨size, 0⟩) true
  ((r.2.1.getD ⟨size, 0⟩).addr, r.2.2)

/-- `PAGE_FAULT`, with the address and the code `copy_from_user` reads (`none` when it fails);
nothing when the driver oopses. -/
def pageFaultIoctl (K : Kernel) (st : Process) : Option (ℕ × ℕ) → Option (ℤ × Process)
  | none => some (eFault, st)
  | some (faultAddr, errorCode) =>
    (st.pagefault K faultAddr errorCode).map fun r => if r.1 ≠ 0 then (1, r.2) else (0, r.2)

/-- `segv_handler` for SIGSEGV: the process, `none` when it is gone. -/
def segvHandler (K : Kernel) (st : Process) (siAddr siCode : ℕ) : Option Process :=
  match pageFaultIoctl K st (some (siAddr, siCode)) with
  | none => none
  | some r => if r.1 ≠ 0 then none else some r.2

/-! ### Accesses -/

/-- An address of the region. -/
abbrev RegionAddr := { v : ℕ // InRegion v }

/-- Which word of its page an address is in. -/
def wordIndex (v : ℕ) : Fin 512 := ⟨v % 4096 / 8, by omega⟩

/-- The word of memory behind an address whose page is in frame `f`. -/
def wordAt (f v : ℕ) : ℕ := f * 512 + wordIndex v

section

variable (va : ℕ → ℕ) (K : Kernel)

/-- An access to `v`, with the faults it takes: the frame it ends up in, or `none` when the
process is killed. -/
inductive Touch (v : ℕ) : Process × Tlb → Option (Process × Tlb × ℕ) → Prop where
  /-- The address is cached, now or after the processor has walked the tables. -/
  | hit {st : Process} {T T' : Tlb} {f : ℕ} (fill : StmtsTlb va [] st.m T st.m T') (cached : (v / 4096, f) ∈ T') :
      Touch v (st, T) (some (st, T', f))
  /-- The page is absent; the fault is handled and the access made again. -/
  | fault {st st' : Process} {T T' : Tlb} {r : Option (Process × Tlb × ℕ)} (absent : translate st.m v = none)
      (handled : segvHandler K st v 1 = some st') (tlb : VmTlbStep va K (st, T) (.pagefault v 1) (st', T'))
      (again : Touch v (st', T') r) : Touch v (st, T) r
  /-- The page is absent, and the fault is refused. -/
  | killed {st : Process} {T : Tlb} (absent : translate st.m v = none) (refused : segvHandler K st v 1 = none) :
      Touch v (st, T) none

/-- A call or an access, with its answer. -/
inductive UserCall where
  /-- `pet_malloc(size)` returns `addr`. -/
  | malloc (size addr : BitVec 64)
  /-- `pet_free(addr)`. -/
  | free (addr : BitVec 64)
  /-- The word at `v` is read, and is `w`. -/
  | load (v : RegionAddr) (w : Entry)
  /-- `w` is written to the word at `v`. -/
  | store (v : RegionAddr) (w : Entry)
  /-- An access to `v` kills the process. -/
  | crash (v : RegionAddr)

/-- The process, while there is one, and the TLB after a call or an access. -/
inductive UserStep : Option (Process × Tlb) → UserCall → Option (Process × Tlb) → Prop where
  /-- `pet_malloc`. -/
  | malloc {st : Process} {T T' : Tlb} (size : BitVec 64) (fill : StmtsTlb va [] st.m T st.m T') :
      UserStep (some (st, T)) (.malloc size (petMalloc st.map size).1)
        (some ({ st with map := (petMalloc st.map size).2 }, T'))
  /-- `pet_free`. -/
  | free {st st' : Process} {T T' : Tlb} {addr : BitVec 64} (h : FreeTlb va st T addr.toNat st' T') :
      UserStep (some (st, T)) (.free addr) (some (st', T'))
  /-- A read. -/
  | load {x : Process × Tlb} {st : Process} {T : Tlb} {f : ℕ} {v : RegionAddr} (h : Touch va K v x (some (st, T, f))) :
      UserStep (some x) (.load v (st.m.mem (wordAt f v))) (some (st, T))
  /-- A write. -/
  | store {x : Process × Tlb} {st : Process} {T : Tlb} {f : ℕ} {v : RegionAddr} (w : Entry)
      (h : Touch va K v x (some (st, T, f))) :
      UserStep (some x) (.store v w) (some ({ st with m := st.m.write (wordAt f v) w }, T))
  /-- The end. -/
  | crash {x : Process × Tlb} {v : RegionAddr} (h : Touch va K v x none) : UserStep (some x) (.crash v) none

end

/-- What the driver is good for. `pet_malloc` is not asked for zero pages, and not called while
the TLB holds a page that a free has unmapped. The first table decides a free, which spares
the other segments. A page that is cached is not accessed after its segment is freed. -/
def Careful : Option (Process × Tlb) → UserCall → Prop
  | some (st, T), .malloc size _ => ¬ ZeroPages size ∧ Coherent st.m T
  | some (st, _), .free addr => FreeMeets SparesOthers st (.free addr.toNat)
  | some (st, T), .load v _ => petmemFindAddress st.map v ≠ none ∨ ∀ f, ((v : ℕ) / 4096, f) ∉ T
  | some (st, T), .store v _ => petmemFindAddress st.map v ≠ none ∨ ∀ f, ((v : ℕ) / 4096, f) ∉ T
  | some (st, T), .crash v => petmemFindAddress st.map v ≠ none ∨ ∀ f, ((v : ℕ) / 4096, f) ∉ T
  | none, _ => True

/-! ### What the process is meant to see -/

/-- The words of `size` bytes at `start`, by number. -/
def words (start size : ℕ) : Set ℕ := { a | start ≤ 8 * a ∧ 8 * a < start + size }

/-- What a call or an access is in a memory made of objects, whose names are their addresses. -/
def UserCall.event : UserCall → Option (MemEvent ℕ ℕ Entry)
  | .malloc size addr =>
    if addr = 0 then none else some (.grant addr.toNat (words addr.toNat (4096 * (lazyAllocPages size).toNat)))
  | .free addr => some (.release addr.toNat)
  | .load v w => some (.read ((v : ℕ) / 8) w)
  | .store v w => some (.write ((v : ℕ) / 8) w)
  | .crash v => some (.trap ((v : ℕ) / 8))

/-- The process sees the memory `M`. -/
structure Sees (x : Process × Tlb) (M : ObjMem ℕ ℕ Entry) : Prop where
  /-- The map and the tables are in order. -/
  vm : VmInv x.1
  /-- No two segments start at one address. -/
  live : ∃ live, LiveInv x.1.map live
  /-- The objects are the segments. -/
  objects : ∀ k s, M.cells k = some s ↔ ∃ n ∈ x.1.map.nodes, n.allocated = 1 ∧ n.start = k ∧ words n.start n.size = s
  /-- What is mapped belongs to a segment. -/
  mapped : ∀ v, InRegion v → translate x.1.m v ≠ none → petmemFindAddress x.1.map v ≠ none
  /-- What is cached of a segment is mapped so. -/
  cached : ∀ v f, petmemFindAddress x.1.map v ≠ none → (v / 4096, f) ∈ x.2 → translate x.1.m v = some f
  /-- A page that is mapped holds what is in the object. -/
  held : ∀ v f, petmemFindAddress x.1.map v ≠ none → translate x.1.m v = some f →
    x.1.m.mem (wordAt f v) = M.word (v / 8)
  /-- Where a page is absent the object is clear. -/
  clear : ∀ v, petmemFindAddress x.1.map v ≠ none → translate x.1.m v = none → M.word (v / 8) = Entry.zero

/-! ### Addresses, segments and words -/

theorem petmemFindAddress_ne_none_iff {map : MapHead} {v : ℕ} :
    petmemFindAddress map v ≠ none ↔ ∃ n ∈ map.nodes, n.holds v := by
  rw [petmemFindAddress, Option.ne_none_iff_isSome, List.find?_isSome]

theorem MemMap.holds_iff {n : MemMap} {v : ℕ} :
    n.holds v ↔ n.allocated = 1 ∧ n.start ≤ v ∧ v < n.start + n.size := by
  simp [MemMap.holds]

/-- A page is live as a whole. -/
theorem MapInv.find_congr {map : MapHead} (hI : MapInv map) {v w : ℕ} (h : v / 4096 = w / 4096)
    (hv : petmemFindAddress map v ≠ none) : petmemFindAddress map w ≠ none := by
  rw [petmemFindAddress_ne_none_iff] at hv ⊢
  obtain ⟨n, hn, hold⟩ := hv
  exact ⟨n, hn, hI.holds_of_page hn hold h⟩

/-- A segment has the word of each of its addresses. -/
theorem MapInv.mem_words_iff {map : MapHead} (hI : MapInv map) {n : MemMap} (hn : n ∈ map.nodes) {v : ℕ} :
    v / 8 ∈ words n.start n.size ↔ n.start ≤ v ∧ v < n.start + n.size := by
  have h₁ := hI.aligned hn
  have h₂ := (hI.ok n hn).pages
  simp only [pageSize4KB] at h₂
  simp only [words, Set.mem_ofPred_eq]
  omega

/-- Addresses on one page are in one word of it when they are in one word. -/
theorem wordAt_eq_iff {f v w : ℕ} (h : v / 4096 = w / 4096) : wordAt f v = wordAt f w ↔ v / 8 = w / 8 := by
  simp only [wordAt, wordIndex]
  omega

theorem wordAt_ne {f g v w : ℕ} (h : f ≠ g) : wordAt f v ≠ wordAt g w := fun he => h (slot_inj.mp he).1

section

variable {va : ℕ → ℕ} {K : Kernel} {x : Process × Tlb} {M : ObjMem ℕ ℕ Entry}

/-- The words of the objects are those of the live addresses. -/
theorem Sees.live_iff (h : Sees x M) {v : ℕ} : M.Live (v / 8) ↔ petmemFindAddress x.1.map v ≠ none := by
  rw [petmemFindAddress_ne_none_iff]
  constructor
  · rintro ⟨k, s, hk, hv⟩
    obtain ⟨n, hn, ha, rfl, rfl⟩ := (h.objects k s).mp hk
    exact ⟨n, hn, MemMap.holds_iff.mpr ⟨ha, (h.vm.map.mem_words_iff hn).mp hv⟩⟩
  · rintro ⟨n, hn, hold⟩
    obtain ⟨ha, hv⟩ := MemMap.holds_iff.mp hold
    exact ⟨n.start, _, (h.objects _ _).mpr ⟨n, hn, ha, rfl, rfl⟩, (h.vm.map.mem_words_iff hn).mpr hv⟩

theorem Sees.inRegion (h : Sees x M) {v : ℕ} (hv : petmemFindAddress x.1.map v ≠ none) : InRegion v :=
  h.vm.map.inRegion_of_find hv

/-- A page that is cached after some statements was cached or mapped before. -/
theorem StmtsTlb.cached {ss : List Stmt} {m m' : Machine} {T T' : Tlb} (h : StmtsTlb va ss m T m' T') {v f : ℕ}
    (hv : InRegion v) (hp : (v / 4096, f) ∈ T') : (v / 4096, f) ∈ T ∨ translate m v = some f := by
  rcases h.spec.2 _ hp hv.page_start with hp | hp
  · exact .inl hp
  · rw [translate_congr hv (Nat.mul_div_cancel _ (by decide))] at hp
    exact .inr hp

/-! ### Filling the TLB -/

theorem Sees.fill {st : Process} {T T' : Tlb} (h : Sees (st, T) M) (hfill : StmtsTlb va [] st.m T st.m T') :
    Sees (st, T') M where
  vm := h.vm
  live := h.live
  objects := h.objects
  mapped := h.mapped
  cached v f hv hp := by
    rcases hfill.cached (h.inRegion hv) hp with hp | hf
    · exact h.cached v f hv hp
    · exact hf
  held := h.held
  clear := h.clear

/-! ### A fault -/

/-- The handler has the process killed when the address is not live. -/
theorem segvHandler_refused {st : Process} {v : ℕ} (hno : petmemFindAddress st.map v = none) :
    segvHandler K st v 1 = none := by
  simp [segvHandler, pageFaultIoctl, Process.pagefault, petmemHandlePagefault, hno]

/-- When the fault is handled, the process goes on. -/
theorem segvHandler_handled {st st' : Process} {v : ℕ} (h : st.pagefault K v 1 = some (0, st')) :
    segvHandler K st v 1 = some st' := by
  simp [segvHandler, pageFaultIoctl, h]

/-- A fault on a live address that is absent maps the page, and ends with `flush_tlb`. -/
theorem Sees.flushes {st : Process} {T : Tlb} (hK : K.Fresh) (h : Sees (st, T) M) {v : ℕ}
    (absent : translate st.m v = none) (hfind : petmemFindAddress st.map v ≠ none) :
    ∃ st', st.pagefault K v 1 = some (0, st') ∧ st'.map = st.map ∧ Serviced Tracked st.m st'.m v ∧
      (st'.m.log.drop st.m.log.length).getLast? = some .flushTlb := by
  have hcases := petmemHandlePagefault_cases hK.serves h.vm.map h.vm.unshared h.vm.tracked v 1
  obtain ⟨-, -, -, m', hm', hs⟩ := hcases.resolve_left fun hno => hno.1.elim hfind (by decide)
  refine ⟨_, Process.pagefault_eq_some.mpr ⟨m', hm', rfl⟩, rfl, hs, ?_⟩
  refine (petmemHandlePagefault_flush hm').resolve_left fun he => ?_
  obtain ⟨f, hf, -⟩ := hs.maps absent
  rw [he, absent] at hf
  cases hf

/-- **A fault** on a live address that is absent: the process sees what it saw. -/
theorem Sees.fault {st st' : Process} {T T' : Tlb} (hK : K.Fresh) (h : Sees (st, T) M) {v : ℕ}
    (absent : translate st.m v = none) (hfind : petmemFindAddress st.map v ≠ none)
    (htlb : VmTlbStep va K (st, T) (.pagefault v 1) (st', T')) :
    Sees (st', T') M ∧ translate st'.m v ≠ none ∧ Footprint st.m st'.m := by
  obtain ⟨⟨r, hr⟩, htlb⟩ := htlb
  obtain ⟨st'', hst, hmap, hs, hflush⟩ := h.flushes hK absent hfind
  obtain ⟨-, rfl⟩ := Prod.mk.inj (Option.some.inj (hst.symm.trans hr))
  obtain ⟨m', hm', rfl⟩ := Process.pagefault_eq_some.mp hst
  obtain ⟨hkept, hfoot⟩ := petmemHandlePagefault_kept hK h.vm.map h.vm.unshared h.vm.tracked hm'
  have hv := h.inRegion hfind
  obtain ⟨f, hf, -, hzero⟩ := hs.maps absent
  have hother : ∀ w, w / 4096 ≠ v / 4096 → translate m' w = translate st.m w :=
    fun w hw => hs.translate_of_ne hv hw
  have hsame : ∀ w, w / 4096 = v / 4096 → translate m' w = some f :=
    fun w hw => (translate_congr hv hw).trans hf
  rw [if_pos hflush] at htlb
  refine ⟨⟨⟨h.vm.map, hs.unshared, hs.serves⟩, h.live, h.objects, ?_, ?_, ?_, ?_⟩, by rw [hf]; simp, hfoot⟩
  · intro w hw hmapped
    by_cases hpage : w / 4096 = v / 4096
    · exact h.vm.map.find_congr hpage.symm hfind
    · exact h.mapped w hw (by rwa [hother w hpage] at hmapped)
  · -- the TLB was flushed
    intro w g hw hp
    exact (htlb.cached (h.inRegion hw) hp).resolve_left (Set.notMem_empty _)
  · intro w g hw hg
    by_cases hpage : w / 4096 = v / 4096
    · -- the new page is clear, and the object was
      obtain rfl : f = g := Option.some.inj ((hsame w hpage).symm.trans hg)
      rw [h.clear w hw (by rw [translate_congr hv hpage, absent])]
      exact hzero (wordIndex w)
    · have hg' : translate st.m w = some g := (hother w hpage).symm.trans hg
      rw [← h.held w g hw hg']
      exact hkept w g (h.inRegion hw) hg' (wordIndex w)
  · intro w hw hnone
    by_cases hpage : w / 4096 = v / 4096
    · rw [hsame w hpage] at hnone
      cases hnone
    · exact h.clear w hw ((hother w hpage).symm.trans hnone)

/-- **An access** to a live address, or to one that is not cached, ends in the frame of the page
if the address is live, and kills the process if it is not. -/
theorem Sees.touch {v : ℕ} (hK : K.Fresh) {r : Option (Process × Tlb × ℕ)} (ht : Touch va K v x r)
    (h : Sees x M) (hv : InRegion v) (hcare : petmemFindAddress x.1.map v ≠ none ∨ ∀ f, (v / 4096, f) ∉ x.2) :
    (r = none ∧ ¬ M.Live (v / 8)) ∨
      ∃ st T f, r = some (st, T, f) ∧ M.Live (v / 8) ∧ Sees (st, T) M ∧ translate st.m v = some f ∧
        Footprint x.1.m st.m := by
  induction ht with
  | @hit st T T' f fill cached =>
    have h' := h.fill fill
    have hlive : petmemFindAddress st.map v ≠ none := by
      refine hcare.elim id fun hno => ?_
      have hf := (fill.cached hv cached).resolve_left (hno f)
      exact h.mapped v hv (by rw [hf]; simp)
    exact .inr ⟨st, T', f, rfl, h.live_iff.mpr hlive, h', h'.cached v f hlive cached, .refl _⟩
  | @fault st st' T T' r absent handled tlb _ ih =>
    have hfind : petmemFindAddress st.map v ≠ none := by
      intro hno
      rw [segvHandler_refused hno] at handled
      cases handled
    obtain ⟨h', -, hfoot⟩ := h.fault hK absent hfind tlb
    obtain hno | ⟨st₁, T₁, f, heq, hlive, hsees, hf, hfoot'⟩ := ih h' (.inl (h'.live_iff.mp (h.live_iff.mpr hfind)))
    · exact .inl hno
    · exact .inr ⟨st₁, T₁, f, heq, hlive, hsees, hf, hfoot.trans hfoot'⟩
  | @killed st T absent refused =>
    refine .inl ⟨rfl, fun hlive => ?_⟩
    obtain ⟨st', hst', -⟩ := h.flushes hK absent (h.live_iff.mp hlive)
    rw [segvHandler_handled hst'] at refused
    cases refused

/-! ### A store -/

theorem Sees.store {st : Process} {T : Tlb} {v f : ℕ} (h : Sees (st, T) M) (hlive : M.Live (v / 8))
    (hf : translate st.m v = some f) (w : Entry) :
    Sees ({ st with m := st.m.write (wordAt f v) w }, T) ⟨M.cells, Function.update M.word (v / 8) w⟩ := by
  have hv := h.inRegion (h.live_iff.mp hlive)
  have hU := h.vm.unshared
  have htrans : ∀ u, translate (st.m.write (wordAt f v) w) u = translate st.m u :=
    store_translate hU hv hf (wordIndex v) w
  refine ⟨⟨h.vm.map, store_unshared hU hv hf (wordIndex v) w, store_tracked hU h.vm.tracked hv hf (wordIndex v) w⟩,
    h.live, h.objects, ?_, ?_, ?_, ?_⟩
  · intro u hu hmapped
    exact h.mapped u hu (by rwa [htrans] at hmapped)
  · intro u g hu hp
    exact (htrans u).trans (h.cached u g hu hp)
  · intro u g hu hg
    have hg' : translate st.m u = some g := (htrans u).symm.trans hg
    show Function.update st.m.mem (wordAt f v) w (wordAt g u) = Function.update M.word (v / 8) w (u / 8)
    by_cases hword : u / 8 = v / 8
    · have hpage : u / 4096 = v / 4096 := by omega
      obtain rfl : f = g := by
        rw [translate_congr hv hpage, hf] at hg'
        exact Option.some.inj hg'
      rw [hword, (wordAt_eq_iff hpage).mpr hword, Function.update_self, Function.update_self]
    · have hne : wordAt g u ≠ wordAt f v := by
        by_cases hgf : g = f
        · -- one frame belongs to one page
          subst hgf
          exact fun he => hword ((wordAt_eq_iff (hU.page_eq (h.inRegion hu) hv hg' hf)).mp he)
        · exact wordAt_ne hgf
      rw [Function.update_of_ne hne, Function.update_of_ne hword]
      exact h.held u g hu hg'
  · intro u hu hnone
    have hnone' : translate st.m u = none := (htrans u).symm.trans hnone
    show Function.update M.word (v / 8) w (u / 8) = Entry.zero
    rw [Function.update_of_ne, h.clear u hu hnone']
    intro hword
    have hpage : u / 4096 = v / 4096 := by omega
    rw [translate_congr hv hpage, hf] at hnone'
    cases hnone'

/-! ### `pet_free` -/

/-- A free that spares the others: what is live afterwards is mapped as it was, and what is
mapped afterwards is live. -/
theorem Sees.free_same {st st' : Process} {T : Tlb} {vaddr : ℕ} (h : Sees (st, T) M)
    (hcond : FreeMeets SparesOthers st (.free vaddr)) (hfree : FreeVspace st vaddr st') :
    (∀ v, petmemFindAddress st'.map v ≠ none → translate st'.m v = translate st.m v) ∧
      ∀ v, InRegion v → translate st'.m v ≠ none → petmemFindAddress st'.map v ≠ none := by
  obtain ⟨live, hlive⟩ := h.live
  cases hp : freeLoop vaddr st.map.nodes with
  | none =>
    have hst : FreeVspace st vaddr st := ⟨0, by simp only [petmemFreeVspace, hp]⟩
    obtain rfl := hfree.unique hst
    exact ⟨fun _ _ => rfl, h.mapped⟩
  | some p =>
    obtain ⟨hfirst, hspared⟩ := hcond p hp
    obtain ⟨st'', hst'', -, hf⟩ := h.vm.free hp hfirst
    obtain rfl := hfree.unique hst''
    obtain ⟨hnodes, hstart, ha, -⟩ := freeLoop_shape hp
    have hcursor : p.cursor ∈ st.map.nodes := by
      rw [hnodes]
      simp
    have hsize := h.vm.map.size_eq hcursor
    have hmem : ∀ n, n.allocated = 1 → (n ∈ st'.map.nodes ↔ n ∈ st.map.nodes ∧ n.start ≠ vaddr) := by
      rw [hfree.map_eq]
      exact fun n => hlive.mem_free_iff vaddr
    constructor
    · intro v hv
      obtain ⟨n, hn, hold⟩ := petmemFindAddress_ne_none_iff.mp hv
      obtain ⟨hna, hv₁, hv₂⟩ := MemMap.holds_iff.mp hold
      obtain ⟨hn', hne⟩ := (hmem n hna).mp hn
      have hapart := h.vm.map.tiles.disjoint hn' hcursor (by rintro rfl; exact hne hstart)
      exact hf.others hspared v (by omega)
    · intro v hv hmapped
      have hsame := (hf.fewer v).resolve_left hmapped
      obtain ⟨n, hn, hold⟩ := petmemFindAddress_ne_none_iff.mp (h.mapped v hv (by rwa [hsame] at hmapped))
      obtain ⟨hna, hv₁, hv₂⟩ := MemMap.holds_iff.mp hold
      refine petmemFindAddress_ne_none_iff.mpr ⟨n, (hmem n hna).mpr ⟨hn, fun hstart' => ?_⟩, hold⟩
      -- the pages of the segment that was freed are gone
      obtain rfl := hlive.eq_cursor hp hn hna hstart'
      exact hmapped (hf.gone v hv₁ (by omega))

/-- **A free** that spares the others releases the object and touches no other. -/
theorem Sees.free {st st' : Process} {T T' : Tlb} {vaddr : ℕ} (hK : K.Fresh) (h : Sees (st, T) M)
    (hcond : FreeMeets SparesOthers st (.free vaddr)) (hfree : FreeTlb va st T vaddr st' T') :
    Sees (st', T') { M with cells := Function.update M.cells vaddr none } ∧ Footprint st.m st'.m := by
  have hfirst : FreeMeets FirstTable st (.free vaddr) := fun p hp => (hcond p hp).1
  have hret := hfree.freeVspace
  obtain ⟨hsame, hmapped⟩ := h.free_same hcond hret
  obtain ⟨hkept, hfoot⟩ := hret.kept h.vm hfirst
  have hvm : VmInv st' := h.vm.step hK.serves ⟨hfirst, hret⟩
  obtain ⟨live, hlive⟩ := h.live
  have hmap := hret.map_eq
  have hmem : ∀ n, n.allocated = 1 → (n ∈ st'.map.nodes ↔ n ∈ st.map.nodes ∧ n.start ≠ vaddr) := by
    rw [hmap]
    exact fun n => hlive.mem_free_iff vaddr
  have hold : ∀ v, petmemFindAddress st'.map v ≠ none → petmemFindAddress st.map v ≠ none := by
    intro v hv
    obtain ⟨n, hn, hold⟩ := petmemFindAddress_ne_none_iff.mp hv
    exact petmemFindAddress_ne_none_iff.mpr ⟨n, ((hmem n (MemMap.holds_iff.mp hold).1).mp hn).1, hold⟩
  have hlive' : LiveInv st'.map (liveStep st.map live (.free vaddr)) := by
    rw [hmap]
    exact hlive.free vaddr
  obtain ⟨fuel, -, htlb⟩ := hfree
  refine ⟨⟨hvm, ⟨_, hlive'⟩, fun k s => ?_, hmapped, fun v f hv hp => ?_, fun v f hv hf => ?_,
    fun v hv hnone => ?_⟩, hfoot⟩
  · show Function.update M.cells vaddr none k = some s ↔ _
    by_cases hk : k = vaddr
    · subst hk
      rw [Function.update_self]
      refine iff_of_false (by simp) ?_
      rintro ⟨n, hn, ha, hstart, -⟩
      exact ((hmem n ha).mp hn).2 hstart
    · rw [Function.update_of_ne hk, h.objects k s]
      constructor
      · rintro ⟨n, hn, ha, rfl, rfl⟩
        exact ⟨n, (hmem n ha).mpr ⟨hn, hk⟩, ha, rfl, rfl⟩
      · rintro ⟨n, hn, ha, rfl, rfl⟩
        exact ⟨n, ((hmem n ha).mp hn).1, ha, rfl, rfl⟩
  · have hv' := h.inRegion (hold v hv)
    rw [hsame v hv]
    exact (htlb.cached hv' hp).elim (h.cached v f (hold v hv)) id
  · have hf' : translate st.m v = some f := (hsame v hv).symm.trans hf
    rw [← h.held v f (hold v hv) hf']
    exact hkept v f (h.inRegion (hold v hv)) hf' (wordIndex v)
  · exact h.clear v (hold v hv) ((hsame v hv).symm.trans hnone)

/-! ### `pet_malloc` -/

/-- The map `map'` is `map` with one more segment, `seg`. -/
structure NewSegment (map map' : MapHead) (seg : MemMap) : Prop where
  /-- The map is well formed. -/
  inv : MapInv map'
  /-- The segment is allocated. -/
  allocated : seg.allocated = 1
  /-- It has pages. -/
  sized : 0 < seg.size
  /-- It is the only new one. -/
  nodes : ∀ A : MemMap, A.allocated = 1 → (A ∈ map'.nodes ↔ A = seg ∨ A ∈ map.nodes)
  /-- It is apart from the others. -/
  apart : ∀ A ∈ map.nodes, A.allocated = 1 → A.start + A.size ≤ seg.start ∨ seg.start + seg.size ≤ A.start

/-- `petmem_alloc_vspace` of at least one page fails and changes nothing, or makes a segment. -/
theorem petmemAllocVspace_newSegment {map : MapHead} (hI : MapInv map) {pages : ℕ} (hpages : 1 ≤ pages) :
    petmemAllocVspace map pages = (0, map) ∨
      ∃ seg, NewSegment map (petmemAllocVspace map pages).2 seg ∧ seg.size = 4096 * pages ∧
        (petmemAllocVspace map pages).1 = seg.start := by
  rcases petmemAllocVspace_cases map pages with h | ⟨before, cursor, after, hn, hfit, h⟩
  · exact .inl h
  have hinv := hI.alloc pages
  rw [h] at hinv ⊢
  have hcursor : cursor ∈ map.nodes := by
    rw [hn]
    simp
  have hroom := hfit.size_eq 0
  refine .inr ⟨cursor.take pages, ⟨hinv, rfl, Nat.mul_pos (by decide) hpages, fun A hA => ?_, fun A hA ha => ?_⟩,
    rfl, rfl⟩
  · rw [hn]
    exact mem_nodes_split hfit.1 hA
  · have hne : A ≠ cursor := by
      rintro rfl
      exact absurd (hfit.1.symm.trans ha) (by decide)
    have := hI.tiles.disjoint hA hcursor hne
    show A.start + A.size ≤ cursor.start ∨ cursor.start + (cursor.take pages).size ≤ A.start
    omega

/-- `pet_malloc`, from what the driver does. -/
theorem petMalloc_eq {map : MapHead} (hI : MapInv map) (size : BitVec 64) :
    (petMalloc map size).1.toNat = (petmemAllocVspace map (lazyAllocPages size).toNat).1 ∧
      (petMalloc map size).2 = (petmemAllocVspace map (lazyAllocPages size).toNat).2 := by
  unfold petMalloc lazyAlloc
  rcases petmemAllocVspace_cases map (lazyAllocPages size).toNat with h | ⟨before, cursor, after, hn, hfit, h⟩
  · simp [h]
  · have hb := hI.tiles.mem_bounds (x := cursor) (by simp [hn])
    simp only [petmemRegionStart, petmemRegionEnd] at hb
    have haddr : cursor.start ≠ 0 := by omega
    have hlt : cursor.start < 2 ^ 64 := by omega
    simp only [h, if_neg haddr, if_true, Option.getD_some, BitVec.toNat_ofNat, Nat.mod_eq_of_lt hlt, and_self]

section

variable {map' : MapHead} {seg : MemMap}

theorem NewSegment.keeps {map : MapHead} (h : NewSegment map map' seg) {v : ℕ} (hv : petmemFindAddress map v ≠ none) :
    petmemFindAddress map' v ≠ none := by
  rw [petmemFindAddress_ne_none_iff] at hv ⊢
  obtain ⟨A, hA, hold⟩ := hv
  exact ⟨A, (h.nodes A (MemMap.holds_iff.mp hold).1).mpr (.inr hA), hold⟩

/-- What is live afterwards is in the new segment or was live before. -/
theorem NewSegment.find {map : MapHead} (h : NewSegment map map' seg) {v : ℕ} (hv : petmemFindAddress map' v ≠ none) :
    v / 8 ∈ words seg.start seg.size ∨ petmemFindAddress map v ≠ none := by
  rw [petmemFindAddress_ne_none_iff] at hv ⊢
  obtain ⟨A, hA, hold⟩ := hv
  obtain ⟨ha, hin⟩ := MemMap.holds_iff.mp hold
  rcases (h.nodes A ha).mp hA with rfl | hA'
  · exact .inl ((h.inv.mem_words_iff hA).mpr hin)
  · exact .inr ⟨A, hA', hold⟩

/-- The memory afterwards: one more object, which is clear. -/
def grantWords (M : ObjMem ℕ ℕ Entry) (addr size : ℕ) : ObjMem ℕ ℕ Entry where
  cells := Function.update M.cells addr (some (words addr size))
  word a := if addr ≤ 8 * a ∧ 8 * a < addr + size then Entry.zero else M.word a

theorem Sees.grants (h : Sees x M) (hs : NewSegment x.1.map map' seg) :
    Grants Entry.zero M seg.start (words seg.start seg.size) (grantWords M seg.start seg.size) := by
  have hapart : ∀ a ∈ words seg.start seg.size, ¬ M.Live a := by
    rintro a ⟨ha₁, ha₂⟩ ⟨k, s, hk, ha⟩
    obtain ⟨A, hA, hal, rfl, rfl⟩ := (h.objects k s).mp hk
    obtain ⟨ha₃, ha₄⟩ := ha
    have := hs.apart A hA hal
    omega
  refine ⟨Option.eq_none_iff_forall_ne_some.mpr fun s hk => ?_, hapart, rfl, fun a ha => if_pos ha,
    fun a ha => if_neg fun hin => hapart a hin ha⟩
  obtain ⟨A, hA, hal, hstart, -⟩ := (h.objects _ s).mp hk
  obtain ⟨live, hlive⟩ := h.live
  have := hs.apart A hA hal
  have := hlive.sized A hA hal
  have := hs.sized
  omega

/-- **An allocation** of at least one page, with nothing stale in the TLB, grants a clear object. -/
theorem Sees.alloc {st : Process} {T : Tlb} (h : Sees (st, T) M) (hs : NewSegment st.map map' seg)
    (hlive : ∃ live, LiveInv map' live) (hcoh : Coherent st.m T) :
    Sees ({ st with map := map' }, T) (grantWords M seg.start seg.size) := by
  have hgrant := h.grants hs
  have hword : ∀ v, petmemFindAddress st.map v ≠ none →
      (grantWords M seg.start seg.size).word (v / 8) = M.word (v / 8) :=
    fun v hv => hgrant.frame _ (h.live_iff.mpr hv)
  refine ⟨⟨hs.inv, h.vm.unshared, h.vm.tracked⟩, hlive, fun k s => ?_, fun v hv hm => hs.keeps (h.mapped v hv hm),
    fun v f hv hp => ?_, fun v f hv hf => ?_, fun v hv hnone => ?_⟩
  · rw [hgrant.cells]
    by_cases hk : k = seg.start
    · subst hk
      rw [Function.update_self]
      constructor
      · intro he
        exact ⟨seg, (hs.nodes seg hs.allocated).mpr (.inl rfl), hs.allocated, rfl, Option.some.inj he⟩
      · rintro ⟨A, hA, ha, hstart, rfl⟩
        rcases (hs.nodes A ha).mp hA with rfl | hA'
        · rfl
        · -- no segment before had this address
          have hnone := hgrant.name
          rw [← hstart, (h.objects _ _).mpr ⟨A, hA', ha, rfl, rfl⟩] at hnone
          cases hnone
    · rw [Function.update_of_ne hk, h.objects k s]
      constructor
      · rintro ⟨A, hA, ha, rfl, rfl⟩
        exact ⟨A, (hs.nodes A ha).mpr (.inr hA), ha, rfl, rfl⟩
      · rintro ⟨A, hA, ha, rfl, rfl⟩
        refine ⟨A, ((hs.nodes A ha).mp hA).resolve_left ?_, ha, rfl, rfl⟩
        rintro rfl
        exact hk rfl
  · have hr := hs.inv.inRegion_of_find hv
    have hf := hcoh _ hp hr.page_start
    rw [translate_congr hr (Nat.mul_div_cancel _ (by decide))] at hf
    exact hf
  · have hold : petmemFindAddress st.map v ≠ none :=
      h.mapped v (hs.inv.inRegion_of_find hv) (by rw [show translate st.m v = some f from hf]; simp)
    rw [hword v hold]
    exact h.held v f hold hf
  · by_cases hin : v / 8 ∈ words seg.start seg.size
    · exact hgrant.clear _ hin
    · have hold := (hs.find hv).resolve_left hin
      rw [hword v hold]
      exact h.clear v hold hnone

/-- **`pet_malloc`** of at least one page, with nothing stale in the TLB. -/
theorem Sees.malloc {st : Process} {T : Tlb} (h : Sees (st, T) M) {size : BitVec 64} (hpages : ¬ ZeroPages size)
    (hcoh : Coherent st.m T) :
    ∃ M', Exec (MemStep Entry.zero) M (UserCall.malloc size (petMalloc st.map size).1).event.toList M' ∧
      Sees ({ st with map := (petMalloc st.map size).2 }, T) M' := by
  have hone : 1 ≤ (lazyAllocPages size).toNat :=
    Nat.one_le_iff_ne_zero.mpr fun h₀ => hpages ((lazyAllocPages_eq_zero_iff size).mp h₀)
  obtain ⟨haddr, hmap⟩ := petMalloc_eq h.vm.map size
  rcases petmemAllocVspace_newSegment h.vm.map hone with hno | ⟨seg, hs, hsize, hstart⟩
  · rw [hno] at haddr hmap
    have hzero : (petMalloc st.map size).1 = 0 := BitVec.toNat_inj.mp haddr
    refine ⟨M, ?_, ?_⟩
    · rw [hzero]
      exact .nil
    · rw [show (petMalloc st.map size).2 = st.map from hmap]
      exact h
  · obtain ⟨live, hlive⟩ := h.live
    rw [hstart] at haddr
    have hb := hs.inv.tiles.mem_bounds ((hs.nodes seg hs.allocated).mpr (.inl rfl))
    simp only [petmemRegionStart] at hb
    have hne : (petMalloc st.map size).1 ≠ 0 := by
      intro h₀
      rw [show (petMalloc st.map size).1.toNat = 0 from congrArg BitVec.toNat h₀] at haddr
      omega
    have hevent : (UserCall.malloc size (petMalloc st.map size).1).event =
        some (.grant seg.start (words seg.start seg.size)) := by
      rw [UserCall.event, if_neg hne, show (petMalloc st.map size).1.toNat = seg.start from haddr, hsize]
    refine ⟨grantWords M seg.start seg.size, ?_, ?_⟩
    · rw [hevent]
      exact .single (h.grants hs)
    · rw [show (petMalloc st.map size).2 = _ from hmap]
      exact h.alloc hs ⟨_, hlive.alloc hone⟩ hcoh

end

end

end PetLab.VMproject
