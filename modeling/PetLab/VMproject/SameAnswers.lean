import PetLab.VMproject.UserRuns

/-!
# What the answers depend on

Of what a process asks for, the driver answers some: `pet_malloc` with an address, a load with
a word, any access with its end or without. The answers depend on the calls that the process
itself has made before, and on nothing else (`eq_of_like`). The page allocator chooses the
frames, the processor fills the TLB when it likes, `kmalloc` leaves what it likes in the head of
the map, and none of this can be told from the answers.
-/

namespace PetLab.VMproject

open PetLab.Lib

/-! ### Calls and their answers -/

/-- What a call does to the map, and what `pet_malloc` returns. -/
def MapStep (map : MapHead) (call : UserCall) (map' : MapHead) : Prop :=
  match call with
  | .malloc size addr => addr = (petMalloc map size).1 ∧ map' = (petMalloc map size).2
  | .free addr => map' = petmemFreeNode map addr.toNat
  | .load _ _ | .store _ _ | .crash _ => map' = map

/-- The same call, or an access to the same address; the answers can differ. -/
def UserCall.Like : UserCall → UserCall → Prop
  | .malloc size _, .malloc size' _ => size = size'
  | .free addr, .free addr' => addr = addr'
  | .store v w, .store v' w' => v = v' ∧ w = w'
  | .load v _, .load v' _ => v = v'
  | .crash v, .crash v' => v = v'
  | .crash v, .load v' _ | .load v _, .crash v' => v = v'
  | .crash v, .store v' _ | .store v _, .crash v' => v = v'
  | _, _ => False

section

variable {va : ℕ → ℕ} {K : Kernel} {v : ℕ}

theorem Touch.map_eq {x : Process × Tlb} {st : Process} {T : Tlb} {f : ℕ} (h : Touch va K v x (some (st, T, f))) :
    st.map = x.1.map := by
  generalize hr : some (st, T, f) = r at h
  induction h with
  | @hit st₁ T₁ T₂ g fill cached =>
    obtain ⟨rfl, -, -⟩ : st = st₁ ∧ T = T₂ ∧ f = g := by simpa using hr
    rfl
  | @fault st₁ st₂ _ _ _ _ _ tlb _ ih =>
    obtain ⟨⟨r', hst⟩, -⟩ := tlb
    obtain ⟨m', -, rfl⟩ := Process.pagefault_eq_some.mp hst
    exact ih hr
  | killed => cases hr

theorem UserStep.mapStep {x : Process × Tlb} {call : UserCall} {s : Option (Process × Tlb)}
    (h : UserStep va K (some x) call s) :
    ∃ map', MapStep x.1.map call map' ∧ ∀ x', s = some x' → x'.1.map = map' := by
  cases h with
  | malloc size fill =>
    refine ⟨_, ⟨rfl, rfl⟩, fun x' hx' => ?_⟩
    rw [← Option.some.inj hx']
  | free hfree =>
    refine ⟨_, rfl, fun x' hx' => ?_⟩
    rw [← Option.some.inj hx']
    exact hfree.freeVspace.map_eq
  | load htouch =>
    refine ⟨_, rfl, fun x' hx' => ?_⟩
    rw [← Option.some.inj hx']
    exact htouch.map_eq
  | store w htouch =>
    refine ⟨_, rfl, fun x' hx' => ?_⟩
    rw [← Option.some.inj hx']
    exact htouch.map_eq
  | crash htouch => exact ⟨_, rfl, fun x' hx' => by cases hx'⟩

end

/-! ### The map -/

/-- Two maps in order, which differ in what `kmalloc` left in the head and nowhere else. -/
structure SameMap (map map' : MapHead) : Prop where
  /-- The first is in order. -/
  inv : MapInv map
  /-- The second is in order. -/
  inv' : MapInv map'
  /-- The nodes are the same. -/
  nodes : map.nodes = map'.nodes
  /-- `kmalloc` goes on alike. -/
  kmalloc : map.kmalloc = map'.kmalloc

theorem sameMap_init (junk junk' : MemMap) : SameMap (petmemInitProcess junk) (petmemInitProcess junk') :=
  ⟨mapInv_petmemInitProcess junk, mapInv_petmemInitProcess junk', rfl, rfl⟩

section

variable {map map' : MapHead}

/-- Allocating looks at the nodes only. -/
theorem SameMap.alloc (h : SameMap map map') (numPages : ℕ) :
    (petmemAllocVspace map numPages).1 = (petmemAllocVspace map' numPages).1 ∧
      SameMap (petmemAllocVspace map numPages).2 (petmemAllocVspace map' numPages).2 := by
  have hI := h.inv.alloc numPages
  have hI' := h.inv'.alloc numPages
  unfold petmemAllocVspace at hI hI' ⊢
  rw [← h.nodes, ← h.kmalloc] at hI' ⊢
  cases hloop : allocLoop numPages map.kmalloc map.nodes with
  | none => exact ⟨rfl, h⟩
  | some r =>
    simp only [hloop] at hI hI' ⊢
    exact ⟨trivial, hI, hI', rfl, rfl⟩

/-- A free looks at the head only to see that it is the head: the node before the one that is
freed is not merged with if it is the head, and the node after is never the head. -/
theorem SameMap.place_free (h : SameMap map map') {vaddr : ℕ} {p : Place} (hp : freeLoop vaddr map.nodes = some p) :
    (p.free map).nodes = (p.free map').nodes := by
  obtain ⟨hn, -, halloc, -⟩ := freeLoop_shape hp
  obtain ⟨before, c, after⟩ := p
  simp only at hn halloc
  obtain ⟨n, after, rfl⟩ := List.exists_cons_of_ne_nil (h.inv.after_ne_nil hn halloc)
  have hptrs := h.inv.ptrs
  have hptrs' := h.inv'.ptrs
  rw [← h.nodes] at hptrs'
  rw [hn] at hptrs hptrs'
  rcases List.eq_nil_or_concat before with rfl | ⟨bs, b, rfl⟩
  · have hne : n.ptr ≠ map.map0.ptr := by
      rintro he
      simp [he] at hptrs
    have hne' : n.ptr ≠ map'.map0.ptr := by
      rintro he
      simp [he] at hptrs'
    simp only [Place.free, Place.combinePrev_nil h.inv.head, Place.combinePrev_nil h.inv'.head]
    rw [Place.combineNext_cons rfl (by simpa [Place.prev] using hne),
      Place.combineNext_cons rfl (by simpa [Place.prev] using hne')]
  · rw [List.concat_eq_append] at hn hptrs ⊢
    have hne : n.ptr ≠ b.ptr := by
      rintro he
      simp [he, List.nodup_append] at hptrs
    have hbody : b.head = 0 := (h.inv.ok b (by simp [hn])).body
    simp only [Place.free, Place.combinePrev_concat hbody]
    split_ifs
    · rw [Place.combineNext_cons rfl (by simpa [Place.prev] using hne),
        Place.combineNext_cons rfl (by simpa [Place.prev] using hne)]
    · rw [Place.combineNext_cons rfl (by simpa [Place.prev] using hne),
        Place.combineNext_cons rfl (by simpa [Place.prev] using hne)]

theorem FreeShape.kmalloc_eq {c : MemMap} (h : FreeShape map c map') : map'.kmalloc = map.kmalloc := by
  obtain ⟨⟩ := h
  rfl

theorem petmemFreeNode_kmalloc (hI : MapInv map) (vaddr : ℕ) : (petmemFreeNode map vaddr).kmalloc = map.kmalloc := by
  unfold petmemFreeNode
  cases hp : freeLoop vaddr map.nodes with
  | none => rfl
  | some p => exact (hI.free_shape hp).kmalloc_eq

theorem SameMap.free (h : SameMap map map') (vaddr : ℕ) :
    SameMap (petmemFreeNode map vaddr) (petmemFreeNode map' vaddr) := by
  refine ⟨h.inv.free vaddr, h.inv'.free vaddr, ?_, ?_⟩
  · unfold petmemFreeNode
    rw [← h.nodes]
    cases hp : freeLoop vaddr map.nodes with
    | none => exact h.nodes
    | some p => exact h.place_free hp
  · rw [petmemFreeNode_kmalloc h.inv, petmemFreeNode_kmalloc h.inv', h.kmalloc]

theorem SameMap.malloc (h : SameMap map map') (size : BitVec 64) :
    (petMalloc map size).1 = (petMalloc map' size).1 ∧ SameMap (petMalloc map size).2 (petMalloc map' size).2 := by
  obtain ⟨haddr, hmap⟩ := petMalloc_eq h.inv size
  obtain ⟨haddr', hmap'⟩ := petMalloc_eq h.inv' size
  obtain ⟨hsame, hmaps⟩ := h.alloc (lazyAllocPages size).toNat
  exact ⟨BitVec.toNat_inj.mp (haddr.trans (hsame.trans haddr'.symm)), by rwa [hmap, hmap']⟩

/-- The same call does the same to the same map. -/
theorem SameMap.step (h : SameMap map map') {call : UserCall} {m₁ m₂ : MapHead} (h₁ : MapStep map call m₁)
    (h₂ : MapStep map' call m₂) : SameMap m₁ m₂ := by
  cases call with
  | malloc size addr =>
    rw [h₁.2, h₂.2]
    exact (h.malloc size).2
  | free addr =>
    rw [show m₁ = _ from h₁, show m₂ = _ from h₂]
    exact h.free addr.toNat
  | load v w => rwa [show m₁ = map from h₁, show m₂ = map' from h₂]
  | store v w => rwa [show m₁ = map from h₁, show m₂ = map' from h₂]
  | crash v => rwa [show m₁ = map from h₁, show m₂ = map' from h₂]

end

/-! ### The answers -/

section

variable {M M' N N' : ObjMem ℕ ℕ Entry} {v v' : RegionAddr}

/-- An access that gets through is to a live word, and one that kills the process is not. -/
theorem ne_of_live_of_trap (hagree : M.Agree M') (hlive : M.Live ((v : ℕ) / 8))
    (htrap : Exec (MemStep Entry.zero) M' (UserCall.crash v').event.toList N') : v ≠ v' := by
  rintro rfl
  obtain ⟨-, ⟨hdead, -⟩, -⟩ := exec_cons_iff.mp htrap
  exact hdead (hagree.live_iff.mp hlive)

theorem live_of_load {w : Entry} (h : Exec (MemStep Entry.zero) M (UserCall.load v w).event.toList N) :
    M.Live ((v : ℕ) / 8) ∧ w = M.word ((v : ℕ) / 8) := by
  obtain ⟨-, ⟨hlive, hw, -⟩, -⟩ := exec_cons_iff.mp h
  exact ⟨hlive, hw⟩

theorem live_of_store {w : Entry} (h : Exec (MemStep Entry.zero) M (UserCall.store v w).event.toList N) :
    M.Live ((v : ℕ) / 8) := by
  obtain ⟨-, ⟨hlive, -⟩, -⟩ := exec_cons_iff.mp h
  exact hlive

/-- One call. -/
theorem eq_of_like_step {call call' : UserCall} (hlike : call.Like call') (hagree : M.Agree M')
    {map map' m₁ m₂ : MapHead} (hsame : SameMap map map') (h₁ : MapStep map call m₁) (h₂ : MapStep map' call' m₂)
    (hN : Exec (MemStep Entry.zero) M call.event.toList N)
    (hN' : Exec (MemStep Entry.zero) M' call'.event.toList N') : call = call' := by
  have hagree' : M'.Agree M := hagree.symm
  cases call with
  | malloc size addr =>
    cases call' with
    | malloc size' addr' =>
      obtain rfl : size = size' := hlike
      rw [h₁.1, h₂.1, (hsame.malloc size).1]
    | _ => exact hlike.elim
  | free addr =>
    cases call' with
    | free addr' => rw [show addr = addr' from hlike]
    | _ => exact hlike.elim
  | load v w =>
    cases call' with
    | load v' w' =>
      obtain rfl : v = v' := hlike
      obtain ⟨hlive, hw⟩ := live_of_load hN
      rw [hw, (live_of_load hN').2, hagree.word _ hlive]
    | crash v' => exact absurd hlike (ne_of_live_of_trap hagree (live_of_load hN).1 hN')
    | _ => exact hlike.elim
  | store v w =>
    cases call' with
    | store v' w' => rw [show v = v' from hlike.1, show w = w' from hlike.2]
    | crash v' => exact absurd hlike (ne_of_live_of_trap hagree (live_of_store hN) hN')
    | _ => exact hlike.elim
  | crash v =>
    cases call' with
    | crash v' => rw [show v = v' from hlike]
    | load v' w' => exact absurd (Eq.symm hlike) (ne_of_live_of_trap hagree' (live_of_load hN').1 hN)
    | store v' w' => exact absurd (Eq.symm hlike) (ne_of_live_of_trap hagree' (live_of_store hN') hN)
    | _ => exact hlike.elim

end

/-- **The same calls, the same answers**, from the same map and memories that agree. -/
theorem eq_of_like {calls calls' : List UserCall} (hlike : List.Forall₂ UserCall.Like calls calls')
    {map map' map₁ map₂ : MapHead} {M M' N N' : ObjMem ℕ ℕ Entry} (hsame : SameMap map map') (hagree : M.Agree M')
    (hmap : Exec MapStep map calls map₁) (hmap' : Exec MapStep map' calls' map₂)
    (hN : Exec (MemStep Entry.zero) M (calls.filterMap UserCall.event) N)
    (hN' : Exec (MemStep Entry.zero) M' (calls'.filterMap UserCall.event) N') : calls = calls' := by
  induction hlike generalizing map map' M M' with
  | nil => rfl
  | @cons call call' calls calls' hlike _ ih =>
    obtain ⟨m₁, hm₁, hmaps⟩ := exec_cons_iff.mp hmap
    obtain ⟨m₂, hm₂, hmaps'⟩ := exec_cons_iff.mp hmap'
    rw [← List.singleton_append, List.filterMap_append, filterMap_single] at hN hN'
    obtain ⟨M₁, hM₁, hrest⟩ := exec_append.mp hN
    obtain ⟨M₂, hM₂, hrest'⟩ := exec_append.mp hN'
    have hcall : call = call' := eq_of_like_step hlike hagree hsame hm₁ hm₂ hM₁ hM₂
    subst hcall
    rw [ih (hsame.step hm₁ hm₂) (hagree.exec hM₁ hM₂) hmaps hmaps' hrest hrest']

end PetLab.VMproject
