import PetLab.VMproject.MemMapInv

/-!
# The map and the live allocations

What a process has allocated is known from the calls it made: `petmem_alloc_vspace`
returned the address, and `petmem_free_vspace` has not been called with it since
(`liveRun`). As long as no call asks for zero pages, the allocated nodes of the map are
exactly these (`LiveInv`), and the rest of the map follows from them: a free node is the
whole gap between two allocated ones, so the list is determined up to free nodes of size
zero (`canon_eq_of_live`). The order in which memory was allocated and freed leaves no
trace.

A zero-page request breaks this. It takes no room, so that the next one is given the same
address (`MapInv.alloc_zero_twice`).
-/

namespace PetLab.VMproject

open PetLab.Lib

/-- The live allocations, `(start, size)`, after a call in a state where they are `live`. -/
def liveStep (map : MapHead) (live : List (ℕ × ℕ)) : MapOp → List (ℕ × ℕ)
  | .alloc numPages =>
    let addr := (petmemAllocVspace map numPages).1
    if addr = 0 then live else (addr, pageSize4KB * numPages) :: live
  | .free vaddr => live.filter fun p => p.1 ≠ vaddr

/-- The live allocations after a sequence of calls on a new process. -/
def liveRun (junk : MemMap) (ops : List MapOp) : List (ℕ × ℕ) :=
  (ops.foldl (fun s op => (mapStep s.1 op, liveStep s.1 s.2 op)) (petmemInitProcess junk, ([] : List (ℕ × ℕ)))).2

/-- What a node says, but not where it is kept. -/
def MemMap.contents (n : MemMap) : ℕ × ℕ × ℤ × ℤ := (n.start, n.size, n.allocated, n.head)

/-- A free node of size zero, as an exact fit leaves behind. -/
def MemMap.blank (n : MemMap) : Bool := n.allocated = 0 ∧ n.size = 0

/-- The nodes without those. -/
def MapHead.canon (map : MapHead) : List (ℕ × ℕ × ℤ × ℤ) :=
  (map.nodes.filter fun n => !n.blank).map MemMap.contents

theorem mapRun_concat (junk : MemMap) (ops : List MapOp) (op : MapOp) :
    mapRun junk (ops ++ [op]) = mapStep (mapRun junk ops) op := by
  rw [mapRun, List.foldl_append]
  rfl

theorem liveRun_concat (junk : MemMap) (ops : List MapOp) (op : MapOp) :
    liveRun junk (ops ++ [op]) = liveStep (mapRun junk ops) (liveRun junk ops) op := by
  have hfst : ∀ ops : List MapOp, (ops.foldl (fun s op => (mapStep s.1 op, liveStep s.1 s.2 op))
      (petmemInitProcess junk, ([] : List (ℕ × ℕ)))).1 = mapRun junk ops := by
    intro ops
    induction ops using List.reverseRecOn with
    | nil => rfl
    | append_singleton ops op ih =>
      rw [List.foldl_append, mapRun_concat, ← ih]
      rfl
  rw [liveRun, List.foldl_append, ← hfst ops]
  rfl

/-! ### The invariant -/

/-- The map holds the live allocations, and nothing else is allocated. -/
structure LiveInv (map : MapHead) (live : List (ℕ × ℕ)) : Prop where
  /-- The map is well formed. -/
  inv : MapInv map
  /-- Allocated nodes have pages. -/
  sized : ∀ n ∈ map.nodes, n.allocated = 1 → 0 < n.size
  /-- They are the live allocations. -/
  nodes : ∀ p, p ∈ live ↔ ∃ n ∈ map.nodes, n.allocated = 1 ∧ (n.start, n.size) = p
  /-- No two live allocations start at the same address. -/
  distinct : (live.map Prod.fst).Nodup

theorem liveInv_init (junk : MemMap) : LiveInv (petmemInitProcess junk) [] where
  inv := mapInv_petmemInitProcess junk
  sized := by simp [petmemInitProcess]
  nodes := by simp [petmemInitProcess]
  distinct := .nil

/-- A start address names one node, if the nodes that may have it are not empty. -/
theorem MapInv.eq_of_start {map : MapHead} (hI : MapInv map) {A B : MemMap} (hA : A ∈ map.nodes) (hB : B ∈ map.nodes)
    (hA₀ : 0 < A.size) (hB₀ : 0 < B.size) (h : A.start = B.start) : A = B := by
  by_contra hne
  have := hI.tiles.disjoint hA hB hne
  omega

theorem LiveInv.alloc {map : MapHead} {live : List (ℕ × ℕ)} (hI : LiveInv map live) {numPages : ℕ}
    (hpages : 1 ≤ numPages) :
    LiveInv (mapStep map (.alloc numPages)) (liveStep map live (.alloc numPages)) := by
  have hmap := hI.inv.alloc numPages
  simp only [mapStep, liveStep]
  rcases petmemAllocVspace_cases map numPages with h | ⟨before, cursor, after, hn, hfit, h⟩
  · rw [h]
    exact hI
  rw [h] at hmap ⊢
  have hcursor : cursor ∈ map.nodes := by
    rw [hn]
    simp
  have hb := (hI.inv.tiles.mem_bounds hcursor).1
  have haddr : cursor.start ≠ 0 := by
    intro h₀
    rw [h₀] at hb
    exact absurd hb (by decide)
  have hsize : 0 < (cursor.take numPages).size := Nat.mul_pos (by decide) hpages
  -- of the allocated nodes, the one that was split off is new
  have hmem : ∀ A : MemMap, A.allocated = 1 →
      (A ∈ before ++ cursor.take numPages :: cursor.rest numPages map.kmalloc :: after ↔
        A = cursor.take numPages ∨ A ∈ map.nodes) := by
    intro A hA
    rw [hn]
    exact mem_nodes_split hfit.1 hA
  rw [if_neg haddr]
  refine ⟨hmap, fun n hm ha => ?_, fun p => ?_, ?_⟩
  · rcases (hmem n ha).mp hm with rfl | hm
    · exact hsize
    · exact hI.sized n hm ha
  · rw [List.mem_cons, hI.nodes]
    constructor
    · rintro (rfl | ⟨n, hm, ha, hp⟩)
      · exact ⟨cursor.take numPages, (hmem _ rfl).mpr (.inl rfl), rfl, rfl⟩
      · exact ⟨n, (hmem n ha).mpr (.inr hm), ha, hp⟩
    · rintro ⟨n, hm, ha, hp⟩
      rcases (hmem n ha).mp hm with rfl | hm
      · exact .inl hp.symm
      · exact .inr ⟨n, hm, ha, hp⟩
  · rw [List.map_cons, List.nodup_cons]
    refine ⟨fun hmem' => ?_, hI.distinct⟩
    obtain ⟨p, hp, hstart⟩ := List.mem_map.mp hmem'
    obtain ⟨n, hm, ha, rfl⟩ := (hI.nodes p).mp hp
    have hcursor₀ : 0 < cursor.size := by
      have := hfit.size_eq map.kmalloc
      omega
    obtain rfl := hI.inv.eq_of_start hm hcursor (hI.sized n hm ha) hcursor₀ hstart
    exact absurd (hfit.1.symm.trans ha) (by decide)

/-- What `petmem_free_vspace` finds at the address of a live allocation is its node. -/
theorem LiveInv.eq_cursor {map : MapHead} {live : List (ℕ × ℕ)} (hI : LiveInv map live) {vaddr : ℕ} {p : Place}
    (hp : freeLoop vaddr map.nodes = some p) {n : MemMap} (hn : n ∈ map.nodes) (ha : n.allocated = 1)
    (hstart : n.start = vaddr) : n = p.cursor := by
  obtain ⟨hnodes, hpstart, hpa, -⟩ := freeLoop_shape hp
  have hcursor : p.cursor ∈ map.nodes := by
    rw [hnodes]
    simp
  exact hI.inv.eq_of_start hn hcursor (hI.sized n hn ha) (hI.sized _ hcursor hpa) (hstart.trans hpstart.symm)

/-- After a free, the allocated nodes are those that do not start at the address. -/
theorem LiveInv.mem_free_iff {map : MapHead} {live : List (ℕ × ℕ)} (hI : LiveInv map live) (vaddr : ℕ) {n : MemMap}
    (ha : n.allocated = 1) : n ∈ (petmemFreeNode map vaddr).nodes ↔ n ∈ map.nodes ∧ n.start ≠ vaddr := by
  rw [petmemFreeNode]
  cases hp : freeLoop vaddr map.nodes with
  | none =>
    have hnone := freeLoop_eq_none_iff.mp hp
    exact ⟨fun hn => ⟨hn, fun hstart => hnone n hn ⟨hstart, ha⟩⟩, And.left⟩
  | some p =>
    rw [(hI.inv.free_shape hp).mem_nodes_iff hI.inv ha]
    refine and_congr_right fun hn => not_congr ⟨?_, hI.eq_cursor hp hn ha⟩
    rintro rfl
    exact (freeLoop_shape hp).2.1

theorem LiveInv.free {map : MapHead} {live : List (ℕ × ℕ)} (hI : LiveInv map live) (vaddr : ℕ) :
    LiveInv (mapStep map (.free vaddr)) (liveStep map live (.free vaddr)) := by
  simp only [mapStep, liveStep]
  refine ⟨hI.inv.free vaddr, fun n hn ha => ?_, fun p => ?_, ?_⟩
  · exact hI.sized n ((hI.mem_free_iff vaddr ha).mp hn).1 ha
  · rw [List.mem_filter, hI.nodes, decide_eq_true_eq]
    constructor
    · rintro ⟨⟨n, hn, ha, rfl⟩, hstart⟩
      exact ⟨n, (hI.mem_free_iff vaddr ha).mpr ⟨hn, hstart⟩, ha, rfl⟩
    · rintro ⟨n, hn, ha, rfl⟩
      obtain ⟨hn, hstart⟩ := (hI.mem_free_iff vaddr ha).mp hn
      exact ⟨⟨n, hn, ha, rfl⟩, hstart⟩
  · exact hI.distinct.sublist (List.filter_sublist.map _)

theorem liveInv_run (junk : MemMap) {ops : List MapOp} (hpages : ∀ n, .alloc n ∈ ops → 1 ≤ n) :
    LiveInv (mapRun junk ops) (liveRun junk ops) := by
  induction ops using List.reverseRecOn with
  | nil => exact liveInv_init junk
  | append_singleton ops op ih =>
    have hI := ih fun n hn => hpages n (by simp [hn])
    rw [mapRun_concat, liveRun_concat]
    cases op with
    | alloc numPages => exact hI.alloc (hpages numPages (by simp))
    | free vaddr => exact hI.free vaddr

theorem LiveInv.disjoint {map : MapHead} {live : List (ℕ × ℕ)} (hI : LiveInv map live) :
    live.Pairwise fun p q => p.1 + p.2 ≤ q.1 ∨ q.1 + q.2 ≤ p.1 := by
  refine hI.distinct.of_map.pairwise_of_forall_ne fun p hp q hq hne => ?_
  obtain ⟨n, hn, -, rfl⟩ := (hI.nodes p).mp hp
  obtain ⟨n', hn', -, rfl⟩ := (hI.nodes q).mp hq
  exact hI.inv.tiles.disjoint hn hn' fun h => hne (by rw [h])

/-- Two requests for zero pages: both succeed, since some node is free, and get the same
address. -/
theorem MapInv.alloc_zero_twice {map : MapHead} (hI : MapInv map) :
    (petmemAllocVspace map 0).1 ≠ 0 ∧
      (petmemAllocVspace (petmemAllocVspace map 0).2 0).1 = (petmemAllocVspace map 0).1 := by
  have hsome : ∃ n ∈ map.nodes, n.fits 0 := by
    obtain ⟨last, hlast, hfree⟩ := hI.lastFree
    exact ⟨last, List.mem_of_getLast? hlast, hfree, Nat.zero_le _⟩
  obtain ⟨before, cursor, after, hn, hbefore, hfit⟩ := exists_first_fit hsome
  have hcursor : cursor ∈ map.nodes := by simp [hn]
  have hb := (hI.tiles.mem_bounds hcursor).1
  -- the split leaves a free node at the same address, and nothing before it fits
  have hbefore' : ∀ n ∈ before ++ [cursor.take 0], ¬ n.fits 0 := by
    intro n hm
    rcases List.mem_append.mp hm with hm | hm
    · exact hbefore n hm
    · rw [List.mem_singleton.mp hm]
      exact fun h => absurd h.1 (by decide : (1 : ℤ) ≠ 0)
  have hrest : (cursor.rest 0 map.kmalloc).fits 0 := ⟨rfl, Nat.zero_le _⟩
  have hfirst : petmemAllocVspace map 0 = (cursor.start, { map with
      nodes := before ++ cursor.take 0 :: cursor.rest 0 map.kmalloc :: after, kmalloc := map.kmalloc + 1 }) := by
    simp only [petmemAllocVspace, hn, allocLoop_eq _ _ hbefore hfit]
  have hsecond := allocLoop_eq (map.kmalloc + 1) after hbefore' hrest
  rw [List.append_assoc, List.singleton_append] at hsecond
  rw [hfirst, petmemAllocVspace]
  simp only [hsecond]
  refine ⟨fun h₀ => ?_, ?_⟩
  · rw [h₀] at hb
    exact absurd hb (by decide)
  · simp [MemMap.rest]

/-! ### The map follows from the live allocations -/

section

variable {map map₁ map₂ : MapHead} {live live₁ live₂ : List (ℕ × ℕ)}

/-- What is left of the map without the blank nodes. -/
def MapHead.solid (map : MapHead) : List MemMap := map.nodes.filter fun n => !n.blank

theorem MapHead.mem_solid {n : MemMap} : n ∈ map.solid ↔ n ∈ map.nodes ∧ ¬ (n.allocated = 0 ∧ n.size = 0) := by
  simp only [solid, MemMap.blank, List.mem_filter, Bool.not_eq_true', decide_eq_false_iff_not]

theorem MapInv.tiles_solid (hI : MapInv map) :
    Tiles MemMap.start MemMap.size petmemRegionStart petmemRegionEnd map.solid := by
  refine hI.tiles.filter fun n _ hn => ?_
  simp only [MemMap.blank, Bool.not_eq_false', decide_eq_true_eq] at hn
  exact hn.2

theorem MapInv.apart_solid (hI : MapInv map) :
    map.solid.IsChain fun a b => ¬ (¬ a.allocated = 1 ∧ ¬ b.allocated = 1) := by
  refine (isChain_filter ?_ fun n _ hn => ?_).1
  · refine hI.apart.imp_of_mem_imp fun a b ha hb h hfree => h ?_
    exact ⟨(hI.ok a ha).flag.resolve_right hfree.1, (hI.ok b hb).flag.resolve_right hfree.2⟩
  · simp only [MemMap.blank, Bool.not_eq_false', decide_eq_true_eq] at hn
    rw [hn.1]
    decide

theorem LiveInv.size_pos (hI : LiveInv map live) {n : MemMap} (hn : n ∈ map.solid) : 0 < n.size := by
  obtain ⟨hn, hsolid⟩ := MapHead.mem_solid.mp hn
  rcases (hI.inv.ok n hn).flag with ha | ha
  · exact Nat.pos_of_ne_zero fun h₀ => hsolid ⟨ha, h₀⟩
  · exact hI.sized n hn ha

/-- Two maps with the same live allocations have them at the same places. -/
theorem LiveInv.mem_solid_of_live (h₁ : LiveInv map₁ live₁) (h₂ : LiveInv map₂ live₂)
    (hlive : ∀ p, p ∈ live₁ → p ∈ live₂) :
    ∀ n ∈ map₁.solid, n.allocated = 1 →
      ∃ n' ∈ map₂.solid, n'.allocated = 1 ∧ n'.start = n.start ∧ n'.size = n.size := by
  intro n hn ha
  have hp := (h₁.nodes _).mpr ⟨n, (MapHead.mem_solid.mp hn).1, ha, rfl⟩
  obtain ⟨n', hn', ha', heq⟩ := (h₂.nodes _).mp (hlive _ hp)
  obtain ⟨hstart, hsize⟩ := Prod.mk.inj heq
  exact ⟨n', MapHead.mem_solid.mpr ⟨hn', by simp [ha']⟩, ha', hstart, hsize⟩

/-- **The map depends only on what is live.** -/
theorem canon_eq_of_live (h₁ : LiveInv map₁ live₁) (h₂ : LiveInv map₂ live₂) (hlive : ∀ p, p ∈ live₁ ↔ p ∈ live₂) :
    map₁.canon = map₂.canon := by
  have hsame := h₁.inv.tiles_solid.unique h₂.inv.tiles_solid (fun n hn => h₁.size_pos hn) (fun n hn => h₂.size_pos hn)
    h₁.inv.apart_solid h₂.inv.apart_solid (h₁.mem_solid_of_live h₂ fun p => (hlive p).mp)
    (h₂.mem_solid_of_live h₁ fun p => (hlive p).mpr)
  refine map_eq_map_of_forall₂ hsame fun n hn n' hn' ⟨hstart, hsize, halloc⟩ => ?_
  have hok := h₁.inv.ok n (MapHead.mem_solid.mp hn).1
  have hok' := h₂.inv.ok n' (MapHead.mem_solid.mp hn').1
  have hflag : n.allocated = n'.allocated := by
    rcases hok.flag with ha | ha
    · rw [ha, hok'.flag.resolve_right fun ha' => absurd (ha.symm.trans (halloc.mpr ha')) (by decide)]
    · rw [ha, halloc.mp ha]
  rw [MemMap.contents, MemMap.contents, hstart, hsize, hflag, hok.body, hok'.body]

/-- A map with no live allocation is one free node. -/
theorem LiveInv.nodes_of_nil (hI : LiveInv map []) :
    map.nodes.map MemMap.contents = [(petmemRegionStart, petmemRegionEnd - petmemRegionStart, 0, 0)] := by
  have hfree : ∀ n ∈ map.nodes, n.allocated = 0 := by
    intro n hn
    refine (hI.inv.ok n hn).flag.resolve_right fun ha => ?_
    exact absurd ((hI.nodes _).mpr ⟨n, hn, ha, rfl⟩) List.not_mem_nil
  have htiles := hI.inv.tiles
  have hapart := hI.inv.apart
  have hok := hI.inv.ok
  match hnodes : map.nodes with
  | [] =>
    rw [hnodes, tiles_nil] at htiles
    exact absurd htiles (by decide)
  | [n] =>
    rw [hnodes] at htiles
    have hn : n ∈ map.nodes := by simp [hnodes]
    obtain ⟨hstart, hsize⟩ := htiles
    rw [tiles_nil] at hsize
    have hsize' : n.size = petmemRegionEnd - petmemRegionStart := by omega
    rw [List.map_singleton, MemMap.contents, hstart, hsize', hfree n hn, (hok n hn).body]
  | n :: n' :: nodes =>
    -- two free nodes would be neighbours
    rw [hnodes] at hapart
    exact absurd ⟨hfree n (by simp [hnodes]), hfree n' (by simp [hnodes])⟩ (hapart.rel_head? (by simp))

end

/-- Freeing addresses, one after the other. -/
theorem mapRun_frees (junk : MemMap) (ops : List MapOp) (addrs : List ℕ) :
    mapRun junk (ops ++ addrs.map .free) = addrs.foldl petmemFreeNode (mapRun junk ops) := by
  rw [mapRun, List.foldl_append, List.foldl_map]
  rfl

/-- It leaves the allocations that start elsewhere. -/
theorem mem_liveRun_frees (junk : MemMap) (ops : List MapOp) (addrs : List ℕ) (p : ℕ × ℕ) :
    p ∈ liveRun junk (ops ++ addrs.map .free) ↔ p ∈ liveRun junk ops ∧ p.1 ∉ addrs := by
  induction addrs using List.reverseRecOn with
  | nil => simp
  | append_singleton addrs vaddr ih =>
    rw [List.map_append, ← List.append_assoc, List.map_singleton, liveRun_concat, liveStep, List.mem_filter, ih]
    simp only [List.mem_append, List.mem_singleton, not_or, decide_eq_true_eq, and_assoc]

theorem liveInv_frees (junk : MemMap) {ops : List MapOp} (hpages : ∀ n, .alloc n ∈ ops → 1 ≤ n) (addrs : List ℕ) :
    LiveInv (addrs.foldl petmemFreeNode (mapRun junk ops)) (liveRun junk (ops ++ addrs.map .free)) := by
  rw [← mapRun_frees]
  refine liveInv_run junk fun n hn => hpages n ?_
  simpa using hn

/-- **The map depends only on what is live.** Two sequences of calls that leave the same
allocations live leave the same nodes, up to free nodes of size zero: so a free undoes
an allocation, two frees can be exchanged, and once everything is freed, in whatever
order, the map is the one free node of a new process. -/
theorem mapRun_depends_on_live (junk₁ junk₂ : MemMap) (ops₁ ops₂ : List MapOp)
    (hpages₁ : ∀ n, .alloc n ∈ ops₁ → 1 ≤ n) (hpages₂ : ∀ n, .alloc n ∈ ops₂ → 1 ≤ n) :
    ((∀ p, p ∈ liveRun junk₁ ops₁ ↔ p ∈ liveRun junk₂ ops₂) →
      (mapRun junk₁ ops₁).canon = (mapRun junk₂ ops₂).canon) ∧
    (∀ n addr map', 1 ≤ n → petmemAllocVspace (mapRun junk₁ ops₁) n = (addr, map') → addr ≠ 0 →
      (petmemFreeNode map' addr).canon = (mapRun junk₁ ops₁).canon) ∧
    (∀ v w, (petmemFreeNode (petmemFreeNode (mapRun junk₁ ops₁) v) w).canon =
      (petmemFreeNode (petmemFreeNode (mapRun junk₁ ops₁) w) v).canon) ∧
    ∀ addrs : List ℕ, (∀ p ∈ liveRun junk₁ ops₁, p.1 ∈ addrs) →
      (addrs.foldl petmemFreeNode (mapRun junk₁ ops₁)).nodes.map MemMap.contents =
        [(petmemRegionStart, petmemRegionEnd - petmemRegionStart, 0, 0)] := by
  have hI := liveInv_run junk₁ hpages₁
  refine ⟨canon_eq_of_live hI (liveInv_run junk₂ hpages₂), ?_, fun v w => ?_, fun addrs hall => ?_⟩
  · intro n addr map' hn halloc haddr
    have hI' := hI.alloc hn
    simp only [mapStep, liveStep, halloc, if_neg haddr] at hI'
    refine canon_eq_of_live (hI'.free addr) hI fun p => ?_
    -- the address was not live before
    have hnodup := hI'.distinct
    rw [List.map_cons, List.nodup_cons] at hnodup
    simp only [liveStep, List.mem_filter, List.mem_cons, decide_eq_true_eq]
    constructor
    · rintro ⟨rfl | hp, hne⟩
      · exact absurd rfl hne
      · exact hp
    · intro hp
      exact ⟨.inr hp, fun heq => hnodup.1 (List.mem_map.mpr ⟨p, hp, heq⟩)⟩
  · refine canon_eq_of_live (liveInv_frees junk₁ hpages₁ [v, w]) (liveInv_frees junk₁ hpages₁ [w, v]) fun p => ?_
    simp only [mem_liveRun_frees, List.mem_cons, List.not_mem_nil, or_false]
    rw [or_comm]
  · have hempty : liveRun junk₁ (ops₁ ++ addrs.map .free) = [] := by
      refine List.eq_nil_iff_forall_not_mem.mpr fun p hp => ?_
      obtain ⟨hp, hnot⟩ := (mem_liveRun_frees junk₁ ops₁ addrs p).mp hp
      exact hnot (hall p hp)
    exact (hempty ▸ liveInv_frees junk₁ hpages₁ addrs).nodes_of_nil

/-- The second of two allocations, once the first is freed, and the same with a third one
that was freed as well: the address space is not more fragmented. -/
theorem mapRun_depends_on_live_two :
    (mapRun ⟨0, 0, 0, 0, 0⟩ [.alloc 1, .alloc 2, .free petmemRegionStart]).canon =
      (mapRun ⟨0, 0, 0, 7, 0⟩ [.alloc 1, .alloc 2, .alloc 3, .free petmemRegionStart,
        .free (petmemRegionStart + 4096 * 3)]).canon ∧
    ([petmemRegionStart + 4096].foldl petmemFreeNode
      (mapRun ⟨0, 0, 0, 0, 0⟩ [.alloc 1, .alloc 2, .free petmemRegionStart])).nodes.map MemMap.contents =
        [(petmemRegionStart, petmemRegionEnd - petmemRegionStart, 0, 0)] := by
  have hlive : liveRun ⟨0, 0, 0, 0, 0⟩ [.alloc 1, .alloc 2, .free petmemRegionStart] =
      [(petmemRegionStart + 4096, 8192)] := by decide +kernel
  have hlive' : liveRun ⟨0, 0, 0, 7, 0⟩ [.alloc 1, .alloc 2, .alloc 3, .free petmemRegionStart,
      .free (petmemRegionStart + 4096 * 3)] = [(petmemRegionStart + 4096, 8192)] := by decide +kernel
  obtain ⟨hsame, -, -, hall⟩ := mapRun_depends_on_live ⟨0, 0, 0, 0, 0⟩ ⟨0, 0, 0, 7, 0⟩
    [.alloc 1, .alloc 2, .free petmemRegionStart]
    [.alloc 1, .alloc 2, .alloc 3, .free petmemRegionStart, .free (petmemRegionStart + 4096 * 3)]
    (by simp) (by simp)
  refine ⟨hsame fun p => by rw [hlive, hlive'], hall _ fun p hp => ?_⟩
  rw [hlive, List.mem_singleton] at hp
  simp [hp]

end PetLab.VMproject
