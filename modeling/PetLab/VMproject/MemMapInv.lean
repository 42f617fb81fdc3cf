import PetLab.Lib.Run
import PetLab.Lib.Tiling
import PetLab.VMproject.MemMap
import Mathlib.Algebra.BigOperators.Ring.List
import Mathlib.Algebra.Ring.Nat
import Mathlib.Data.List.Chain
import Mathlib.Data.List.Nodup

/-!
# The map is always a tiling of the region

What holds of the map in every state that `petmem_alloc_vspace` and
`petmem_free_vspace` can reach from `petmem_init_process` (`MapInv`): the nodes
tile the region, in whole pages, no two free nodes are neighbours, and the last
node is free. The last clause is what keeps `petmem_free_vspace` from merging into
the list head, whose `allocated` field nobody initialised: an allocated node is
never last, so `cursor_next` is a real node.

Both operations are described once, as a rewriting of the node list
(`allocLoop_shape`, `free_shape`), and the invariant is read off from that.
-/

namespace PetLab.VMproject

open PetLab.Lib

/-- What holds of every node of the map: whole pages, free or allocated, not the head. -/
structure MemMap.Ok (n : MemMap) : Prop where
  /-- The size is a number of pages. -/
  pages : pageSize4KB ∣ n.size
  /-- The node is free or allocated. -/
  flag : n.allocated = 0 ∨ n.allocated = 1
  /-- It is not marked as the head. -/
  body : n.head = 0

/-- The representation invariant of the map. -/
structure MapInv (map : MapHead) : Prop where
  /-- The nodes tile the region. -/
  tiles : Tiles MemMap.start MemMap.size petmemRegionStart petmemRegionEnd map.nodes
  /-- Every node is well formed. -/
  ok : ∀ n ∈ map.nodes, n.Ok
  /-- No two neighbours are both free. -/
  apart : map.nodes.IsChain fun a b => ¬ (a.allocated = 0 ∧ b.allocated = 0)
  /-- The last node is free. -/
  lastFree : ∃ last ∈ map.nodes.getLast?, last.allocated = 0
  /-- `map0` is marked as the head. -/
  head : map.map0.head = 1
  /-- The nodes are different objects. -/
  ptrs : ((map.map0 :: map.nodes).map MemMap.ptr).Nodup
  /-- `kmalloc` returns none of them again. -/
  fresh : ∀ n ∈ map.map0 :: map.nodes, n.ptr < map.kmalloc

theorem mapInv_petmemInitProcess (junk : MemMap) : MapInv (petmemInitProcess junk) where
  tiles := by simp [petmemInitProcess, petmemRegionStart, petmemRegionEnd]
  ok := by
    simp only [petmemInitProcess, List.mem_singleton, forall_eq]
    exact ⟨by decide, .inl rfl, rfl⟩
  apart := .singleton _
  lastFree := ⟨_, rfl, rfl⟩
  head := rfl
  ptrs := by simp [petmemInitProcess]
  fresh := by simp [petmemInitProcess]

/-! ### Allocating -/

/-- The loop splits the first node that fits. -/
theorem allocLoop_shape {numPages ptr addr : ℕ} {nodes nodes' : List MemMap}
    (h : allocLoop numPages ptr nodes = some (addr, nodes')) :
    ∃ (before : List MemMap) (cursor : MemMap) (after : List MemMap), nodes = before ++ cursor :: after ∧
      (∀ n ∈ before, ¬ n.fits numPages) ∧ cursor.fits numPages ∧ addr = cursor.start ∧
      nodes' = before ++ cursor.take numPages :: cursor.rest numPages ptr :: after := by
  induction nodes generalizing nodes' with
  | nil => simp [allocLoop] at h
  | cons n nodes ih =>
    rw [allocLoop] at h
    split_ifs at h with hn
    · simp only [Option.some.injEq, Prod.mk.injEq] at h
      exact ⟨[], n, nodes, rfl, by simp, hn, h.1.symm, h.2.symm⟩
    · obtain ⟨⟨a, ns⟩, hr, hra⟩ := Option.map_eq_some_iff.mp h
      simp only [Prod.mk.injEq] at hra
      obtain ⟨rfl, rfl⟩ := hra
      obtain ⟨before, cursor, after, rfl, hb, hc, ha, rfl⟩ := ih hr
      exact ⟨n :: before, cursor, after, rfl, by simpa [hn] using hb, hc, ha, rfl⟩

theorem allocLoop_eq {numPages : ℕ} (ptr : ℕ) {before : List MemMap} (after : List MemMap) {cursor : MemMap}
    (hbefore : ∀ n ∈ before, ¬ n.fits numPages) (hcursor : cursor.fits numPages) :
    allocLoop numPages ptr (before ++ cursor :: after) =
      some (cursor.start, before ++ cursor.take numPages :: cursor.rest numPages ptr :: after) := by
  induction before with
  | nil => rw [List.nil_append, allocLoop, if_pos hcursor, List.nil_append]
  | cons n before ih =>
    rw [List.cons_append, allocLoop, if_neg (hbefore n List.mem_cons_self),
      ih fun m hm => hbefore m (List.mem_cons_of_mem _ hm)]
    rfl

/-- If a node fits, there is a first one. -/
theorem exists_first_fit {numPages : ℕ} {nodes : List MemMap} (h : ∃ n ∈ nodes, n.fits numPages) :
    ∃ (before : List MemMap) (cursor : MemMap) (after : List MemMap), nodes = before ++ cursor :: after ∧
      (∀ n ∈ before, ¬ n.fits numPages) ∧ cursor.fits numPages := by
  have hsome : (nodes.find? fun n => decide (n.fits numPages)).isSome :=
    List.find?_isSome.mpr (h.imp fun n hn => ⟨hn.1, decide_eq_true hn.2⟩)
  obtain ⟨cursor, hfind⟩ := Option.isSome_iff_exists.mp hsome
  obtain ⟨hfit, before, after, hn, hbefore⟩ := List.find?_eq_some_iff_append.mp hfind
  exact ⟨before, cursor, after, hn, fun n hm => by simpa using hbefore n hm, of_decide_eq_true hfit⟩

/-- `petmem_alloc_vspace` fails and changes nothing, or splits a node. -/
theorem petmemAllocVspace_cases (map : MapHead) (numPages : ℕ) :
    petmemAllocVspace map numPages = (0, map) ∨
      ∃ before cursor after, map.nodes = before ++ cursor :: after ∧ cursor.fits numPages ∧
        petmemAllocVspace map numPages =
          (cursor.start, { map with
            nodes := before ++ cursor.take numPages :: cursor.rest numPages map.kmalloc :: after,
            kmalloc := map.kmalloc + 1 }) := by
  rw [petmemAllocVspace]
  cases h : allocLoop numPages map.kmalloc map.nodes with
  | none => exact .inl rfl
  | some r =>
    obtain ⟨before, cursor, after, hn, -, hc, ha, hr⟩ :=
      allocLoop_shape (show allocLoop numPages map.kmalloc map.nodes = some (r.1, r.2) from h)
    exact .inr ⟨before, cursor, after, hn, hc, by simp only [ha, hr]⟩

/-- The pages taken and the rest make up the node. -/
theorem MemMap.fits.size_eq {numPages : ℕ} {cursor : MemMap} (h : cursor.fits numPages) (ptr : ℕ) :
    cursor.size = (cursor.take numPages).size + (cursor.rest numPages ptr).size := by
  have := Nat.div_mul_le_self cursor.size pageSize4KB
  have := Nat.mul_le_mul_right pageSize4KB h.2
  simp only [MemMap.take, MemMap.rest]
  rw [Nat.mul_comm pageSize4KB]
  omega

/-- Of the allocated nodes, the split adds one. -/
theorem mem_nodes_split {numPages ptr : ℕ} {before after : List MemMap} {cursor A : MemMap}
    (hfree : cursor.allocated = 0) (hlive : A.allocated = 1) :
    A ∈ before ++ cursor.take numPages :: cursor.rest numPages ptr :: after ↔
      A = cursor.take numPages ∨ A ∈ before ++ cursor :: after := by
  have hcursor : A ≠ cursor := by
    rintro rfl
    exact absurd (hfree.symm.trans hlive) (by decide)
  have hrest : A ≠ cursor.rest numPages ptr := by
    rintro rfl
    exact absurd hlive (by decide : (0 : ℤ) ≠ 1)
  simp only [List.mem_append, List.mem_cons, hcursor, hrest, false_or]
  tauto

theorem MapInv.alloc {map : MapHead} (hI : MapInv map) (numPages : ℕ) :
    MapInv (petmemAllocVspace map numPages).2 := by
  rcases petmemAllocVspace_cases map numPages with h | ⟨before, cursor, after, hn, hfit, h⟩
  · rw [h]
    exact hI
  rw [h]
  obtain ⟨htiles, hok, hapart, hlast, hhead, hptrs, hfresh⟩ := hI
  rw [hn] at htiles hapart hptrs hlast
  simp only [hn, List.mem_cons, List.mem_append] at hok hfresh
  have hc := hok cursor (.inr (.inl rfl))
  refine ⟨?_, ?_, ?_, ?_, hhead, ?_, ?_⟩
  · -- the two nodes cover what the one did
    obtain ⟨b, hb, hc⟩ := tiles_append.mp htiles
    refine tiles_append.mpr ⟨b, hb, ?_⟩
    refine (tiles_merge (x := cursor.take numPages) (z := cursor) rfl (hfit.size_eq map.kmalloc)).mpr ⟨hc, ?_⟩
    simp only [MemMap.rest, MemMap.take, hc.1]
  · simp only [List.mem_append, List.mem_cons]
    rintro n (hm | rfl | rfl | hm)
    · exact hok n (.inl hm)
    · exact ⟨Nat.dvd_mul_right .., .inr rfl, hc.body⟩
    · exact ⟨Nat.dvd_sub hc.pages (Nat.dvd_mul_right ..), .inl rfl, rfl⟩
    · exact hok n (.inr (.inr hm))
  · -- the free node the split leaves has the chosen one's neighbour after it
    obtain ⟨h₁, h₂⟩ := List.isChain_split.mp hapart
    refine List.isChain_split.mpr ⟨?_, List.isChain_cons_cons.mpr ⟨by simp [MemMap.take], ?_⟩⟩
    · refine List.isChain_append.mpr ⟨(List.isChain_append.mp h₁).1, .singleton _, ?_⟩
      simp [MemMap.take]
    · refine List.isChain_cons.mpr ⟨fun y hy => ?_, h₂.tail⟩
      have := h₂.rel_head? hy
      simpa [MemMap.rest, hfit.1] using this
  · -- the last node is still there, or it is the one that was split
    obtain ⟨last, hl, hfree⟩ := hlast
    rcases List.eq_nil_or_concat after with rfl | ⟨ys, y, rfl⟩
    · exact ⟨cursor.rest numPages map.kmalloc, by simp, rfl⟩
    · exact ⟨last, by simpa [List.getLast?_append, List.getLast?_cons] using hl, hfree⟩
  · have hperm : (map.map0 :: (before ++ cursor.take numPages :: cursor.rest numPages map.kmalloc :: after)).Perm
        (cursor.rest numPages map.kmalloc :: map.map0 :: (before ++ cursor.take numPages :: after)) := by
      refine .trans (.cons _ ?_) (.swap ..)
      simpa using @List.perm_middle _ (cursor.rest numPages map.kmalloc) (before ++ [cursor.take numPages]) after
    rw [(hperm.map MemMap.ptr).nodup_iff, List.map_cons, List.nodup_cons]
    refine ⟨fun hmem => ?_, by simpa [MemMap.take] using hptrs⟩
    obtain ⟨n, hn', hptr⟩ := List.mem_map.mp hmem
    have hlt : n.ptr < map.kmalloc := by
      simp only [List.mem_cons, List.mem_append] at hn'
      rcases hn' with rfl | hm | rfl | hm
      · exact hfresh _ (.inl rfl)
      · exact hfresh n (.inr (.inl hm))
      · exact hfresh cursor (.inr (.inr (.inl rfl)))
      · exact hfresh n (.inr (.inr (.inr hm)))
    exact absurd hptr hlt.ne
  · simp only [List.mem_append, List.mem_cons]
    rintro n (rfl | hm | rfl | rfl | hm)
    · exact Nat.lt_succ_of_lt (hfresh _ (.inl rfl))
    · exact Nat.lt_succ_of_lt (hfresh n (.inr (.inl hm)))
    · exact Nat.lt_succ_of_lt (hfresh cursor (.inr (.inr (.inl rfl))))
    · exact Nat.lt_succ_self _
    · exact Nat.lt_succ_of_lt (hfresh n (.inr (.inr (.inr hm))))

/-! ### Freeing -/

/-- The search stops at the first allocated node that starts at the address. -/
theorem freeLoop_shape {vaddr : ℕ} {nodes : List MemMap} {p : Place} (h : freeLoop vaddr nodes = some p) :
    nodes = p.before ++ p.cursor :: p.after ∧ p.cursor.start = vaddr ∧ p.cursor.allocated = 1 ∧
      ∀ n ∈ p.before, ¬ (n.start = vaddr ∧ n.allocated = 1) := by
  induction nodes generalizing p with
  | nil => simp [freeLoop] at h
  | cons n nodes ih =>
    rw [freeLoop] at h
    split_ifs at h with hn
    · obtain rfl := Option.some.inj h
      exact ⟨rfl, hn.1, hn.2, by simp⟩
    · obtain ⟨q, hq, rfl⟩ := Option.map_eq_some_iff.mp h
      obtain ⟨rfl, h₁, h₂, h₃⟩ := ih hq
      exact ⟨rfl, h₁, h₂, by simpa using ⟨fun h => not_and.mp hn h, by simpa using h₃⟩⟩

/-- The search fails only when there is no such node. -/
theorem freeLoop_eq_none_iff {vaddr : ℕ} {nodes : List MemMap} :
    freeLoop vaddr nodes = none ↔ ∀ n ∈ nodes, ¬ (n.start = vaddr ∧ n.allocated = 1) := by
  induction nodes with
  | nil => simp [freeLoop]
  | cons n nodes ih =>
    rw [freeLoop]
    split_ifs with hn
    · simp [hn]
    · simp only [Option.map_eq_none_iff, ih, List.mem_cons, forall_eq_or_imp]
      exact ⟨fun h => ⟨hn, h⟩, fun h => h.2⟩

/-- An allocated node has a node after it: it is not the last. -/
theorem MapInv.after_ne_nil {map : MapHead} (hI : MapInv map) {before after : List MemMap} {n : MemMap}
    (hn : map.nodes = before ++ n :: after) (ha : n.allocated = 1) : after ≠ [] := by
  rintro rfl
  obtain ⟨last, hl, hfree⟩ := hI.lastFree
  rw [hn, List.getLast?_concat, Option.mem_some_iff] at hl
  rw [← hl, ha] at hfree
  exact absurd hfree (by decide)

/-- How `petmem_free_vspace` rewrites the list: the node, with the free node before
it and the free node after it if there are such, becomes one free node. -/
inductive FreeShape (map : MapHead) (cursor : MemMap) : MapHead → Prop where
  /-- The block `prev cursor next` becomes `merged`; its neighbours are not free. -/
  | mk (lo : List MemMap) {hi : List MemMap} (prev next : Option MemMap) {merged : MemMap}
      (nodes : map.nodes = lo ++ (prev.toList ++ cursor :: next.toList) ++ hi)
      (prevFree : ∀ n ∈ prev, n.allocated = 0) (nextFree : ∀ n ∈ next, n.allocated = 0)
      (loLast : ∀ n ∈ lo.getLast?, n.allocated ≠ 0) (hiHead : ∀ n ∈ hi.head?, n.allocated ≠ 0)
      (free : merged.allocated = 0) (body : merged.head = 0)
      (ptr : merged.ptr ∈ (prev.toList ++ cursor :: next.toList).map MemMap.ptr)
      (size : merged.size = ((prev.toList ++ cursor :: next.toList).map MemMap.size).sum)
      (start : ∀ n ∈ (prev.toList ++ [cursor]).head?, merged.start = n.start) :
      FreeShape map cursor { map with nodes := lo ++ merged :: hi }

/-- The list head is not touched. -/
theorem FreeShape.map0_eq {map map' : MapHead} {c : MemMap} (h : FreeShape map c map') :
    map'.map0 = map.map0 := by
  obtain ⟨⟩ := h
  rfl

/-- Of the allocated nodes, only the one freed is gone. -/
theorem FreeShape.mem_nodes_iff {map map' : MapHead} {c A : MemMap} (hI : MapInv map) (h : FreeShape map c map')
    (hlive : A.allocated = 1) : A ∈ map'.nodes ↔ A ∈ map.nodes ∧ A ≠ c := by
  obtain ⟨lo, prev, next, hn, hprev, hnext, -, -, hfree, -, -, -, -⟩ := h
  rename_i hi merged
  have hnodup : map.nodes.Nodup := hI.ptrs.of_cons.of_map
  rw [hn] at hnodup ⊢
  have hmerged : A ≠ merged := by
    rintro rfl
    exact absurd (hfree.symm.trans hlive) (by decide)
  have hfreed : A ∉ prev ∧ A ∉ next :=
    ⟨fun hA => absurd ((hprev A hA).symm.trans hlive) (by decide),
      fun hA => absurd ((hnext A hA).symm.trans hlive) (by decide)⟩
  -- the node freed is nowhere else in the list
  have hc : A ∈ lo ∨ A ∈ hi → A ≠ c := by
    rintro hA rfl
    simp only [List.nodup_append, List.mem_append, List.mem_cons, Option.mem_toList] at hnodup
    rcases hA with hA | hA
    · exact hnodup.1.2.2 A hA A (.inr (.inl rfl)) rfl
    · exact hnodup.2.2 A (.inr (.inr (.inl rfl))) A hA rfl
  simp only [List.mem_append, List.mem_cons, Option.mem_toList, hmerged, false_or]
  tauto

/-- `cursor_prev` when there is no node before. -/
theorem Place.combinePrev_nil {map : MapHead} (hhead : map.map0.head = 1) (c : MemMap) (after : List MemMap) :
    (Place.mk [] c after).combinePrev map = ⟨[], c, after⟩ := by
  simp [Place.combinePrev, Place.prev, hhead]

/-- `cursor_prev` when there is one. -/
theorem Place.combinePrev_concat {map : MapHead} {b : MemMap} (hb : b.head = 0) (c : MemMap)
    (before after : List MemMap) :
    (Place.mk (before ++ [b]) c after).combinePrev map =
      if b.allocated = 0 then ⟨before, { b with size := b.size + c.size }, after⟩
      else ⟨before ++ [b], c, after⟩ := by
  simp [Place.combinePrev, Place.prev, hb]

/-- The merge with a node after that is not the node before. -/
theorem Place.combineNext_cons {map : MapHead} {n c' : MemMap} {before after : List MemMap} {p : Place}
    (hp : p.after = n :: after) (hne : n.ptr ≠ (p.prev map).ptr) :
    (Place.mk before c' (n :: after)).combineNext p map =
      { map with nodes := before ++
          if n.allocated = 0 then { n with start := c'.start, size := n.size + c'.size } :: after
          else c' :: n :: after } := by
  simp only [Place.combineNext, Place.next, hp, List.headD_cons, hne, ne_eq, not_false_eq_true, and_true]
  split_ifs <;> rfl

/-- **What `petmem_free_vspace` does to the map**, in a map that meets the invariant. -/
theorem MapInv.free_shape {map : MapHead} (hI : MapInv map) {vaddr : ℕ} {p : Place}
    (h : freeLoop vaddr map.nodes = some p) : FreeShape map p.cursor (p.free map) := by
  obtain ⟨hn, -, halloc, -⟩ := freeLoop_shape h
  obtain ⟨before, c, after⟩ := p
  simp only at hn halloc
  obtain ⟨n, after, rfl⟩ := List.exists_cons_of_ne_nil (hI.after_ne_nil hn halloc)
  have hok : ∀ m ∈ before ++ c :: n :: after, m.Ok := fun m hm => hI.ok m (hn ▸ hm)
  have hptrs := hI.ptrs
  have hapart := hI.apart
  rw [hn] at hptrs hapart
  have hhi : n.allocated = 0 → ∀ m ∈ after.head?, m.allocated ≠ 0 := by
    intro h₀ m hm hm₀
    exact (List.isChain_split.mp hapart).2.tail.rel_head? hm ⟨h₀, hm₀⟩
  have hnn : n.allocated ≠ 0 → ∀ m ∈ (n :: after).head?, m.allocated ≠ 0 := by simp
  rcases List.eq_nil_or_concat before with rfl | ⟨bs, b, rfl⟩
  · -- `cursor_prev` is the head
    have hne : n.ptr ≠ map.map0.ptr := by
      rintro he
      simp [he] at hptrs
    rw [Place.free]
    simp only
    rw [Place.combinePrev_nil hI.head, Place.combineNext_cons rfl (by simpa [Place.prev] using hne)]
    simp only [List.nil_append]
    split_ifs with hn₀
    · refine .mk [] none (some n) (by simp [hn]) (by simp) (by simpa using hn₀)
        (by simp) (hhi hn₀) hn₀ ?_ (by simp) (by simp [Nat.add_comm]) (by simp)
      exact (hok n (by simp)).body
    · refine .mk [] none none (by simp [hn]) (by simp) (by simp)
        (by simp) (hnn hn₀) rfl ?_ (by simp) (by simp) (by simp)
      exact (hok c (by simp)).body
  · have hb := hok b (by simp)
    rw [List.concat_eq_append] at hn hptrs hapart hok ⊢
    have hne : n.ptr ≠ b.ptr := by
      rintro he
      simp [he, List.nodup_append] at hptrs
    rw [Place.free]
    simp only
    rw [Place.combinePrev_concat hb.body]
    split_ifs with hb₀
    · -- `cursor_prev` is free: the node before it is not
      have hlo : ∀ m ∈ bs.getLast?, m.allocated ≠ 0 := by
        intro m hm hm₀
        rw [List.append_assoc] at hapart
        exact (List.isChain_append.mp hapart).2.2 m hm b (by simp) ⟨hm₀, hb₀⟩
      rw [Place.combineNext_cons rfl (by simpa [Place.prev] using hne)]
      split_ifs with hn₀
      · refine .mk bs (some b) (some n) (by simp [hn]) (by simpa using hb₀) (by simpa using hn₀)
          hlo (hhi hn₀) hn₀ (hok n (by simp)).body (by simp) ?_ (by simp)
        simp only [Option.toList_some, List.cons_append, List.nil_append, List.map_cons, List.map_nil,
          List.sum_cons, List.sum_nil]
        omega
      · exact .mk bs (some b) none (by simp [hn]) (by simpa using hb₀) (by simp)
          hlo (hnn hn₀) hb₀ hb.body (by simp) (by simp) (by simp)
    · have hlo : ∀ m ∈ (bs ++ [b]).getLast?, m.allocated ≠ 0 := by simpa using hb₀
      rw [Place.combineNext_cons rfl (by simpa [Place.prev] using hne)]
      split_ifs with hn₀
      · exact .mk (bs ++ [b]) none (some n) (by simp [hn]) (by simp) (by simpa using hn₀)
          hlo (hhi hn₀) hn₀ (hok n (by simp)).body (by simp) (by simp [Nat.add_comm]) (by simp)
      · exact .mk (bs ++ [b]) none none (by simp [hn]) (by simp) (by simp)
          hlo (hnn hn₀) rfl (hok c (by simp)).body (by simp) (by simp) (by simp)

theorem MapInv.of_freeShape {map map' : MapHead} (hI : MapInv map) {c : MemMap}
    (h : FreeShape map c map') : MapInv map' := by
  obtain ⟨lo, prev, next, hn, hprev, hnext, hlo, hhi, hfree, hbody, hptr, hsize, hstart⟩ := h
  rename_i hi merged
  obtain ⟨htiles, hok, hapart, hlast, hhead, hptrs, hfresh⟩ := hI
  rw [hn] at htiles hok hapart hlast
  set block := prev.toList ++ c :: next.toList with hblock
  have hne : block ≠ [] := by simp [hblock]
  refine ⟨?_, ?_, ?_, ?_, hhead, ?_, ?_⟩
  · -- the block is replaced by one node of the same extent
    obtain ⟨e, he, hhi'⟩ := tiles_append.mp htiles
    obtain ⟨d, hlo', hb⟩ := tiles_append.mp he
    refine tiles_append.mpr ⟨d, hlo', ?_⟩
    rw [← List.singleton_append]
    refine tiles_append.mpr ⟨e, hb.block hne ?_ hsize, hhi'⟩
    cases prev <;> simpa [hblock] using hstart
  · simp only [List.mem_append, List.mem_cons]
    rintro n (hm | rfl | hm)
    · exact hok n (by simp [hm])
    · refine ⟨hsize ▸ List.dvd_sum fun k hk => ?_, .inl hfree, hbody⟩
      obtain ⟨m, hm, rfl⟩ := List.mem_map.mp hk
      exact (hok m (by simp [hm])).pages
    · exact hok n (by simp [hm])
  · obtain ⟨h₁, h₂, -⟩ := List.isChain_append.mp hapart
    obtain ⟨h₁, -, -⟩ := List.isChain_append.mp h₁
    refine List.isChain_append.mpr ⟨h₁, List.isChain_cons.mpr ⟨fun y hy h => hhi y hy h.2, h₂⟩, ?_⟩
    intro x hx y _ h
    exact hlo x hx h.1
  · -- the last node is after the block, or the block ends with a free node
    rcases List.eq_nil_or_concat hi with rfl | ⟨ys, y, rfl⟩
    · exact ⟨merged, by simp, hfree⟩
    · obtain ⟨last, hl, hl₀⟩ := hlast
      exact ⟨last, by simpa [List.getLast?_append, List.getLast?_cons] using hl, hl₀⟩
  · -- the merged node is one of the block's
    have hsub : List.Sublist ((map.map0 :: (lo ++ merged :: hi)).map MemMap.ptr)
        ((map.map0 :: map.nodes).map MemMap.ptr) := by
      rw [hn]
      simp only [List.map_cons, List.map_append]
      refine .cons_cons _ ?_
      rw [List.append_assoc]
      refine .append_left ?_ _
      rw [← List.singleton_append]
      exact .append_right (List.singleton_sublist.mpr (by simpa [hblock] using hptr)) _
    exact hptrs.sublist hsub
  · have hmem : ∀ k ∈ (map.map0 :: map.nodes).map MemMap.ptr, k < map.kmalloc := by
      intro k hk
      obtain ⟨m, hm, rfl⟩ := List.mem_map.mp hk
      exact hfresh m hm
    simp only [List.mem_cons, List.mem_append]
    rintro n (rfl | hm | rfl | hm)
    · exact hmem _ (by simp)
    · exact hmem _ (List.mem_map_of_mem (by simp [hn, hm]))
    · refine hmem _ (List.mem_cons_of_mem _ ?_)
      rw [hn]
      simp only [List.map_append, List.mem_append] at hptr ⊢
      exact .inl (.inr (by simpa [hblock] using hptr))
    · exact hmem _ (List.mem_map_of_mem (by simp [hn, hm]))

theorem MapInv.free {map : MapHead} (hI : MapInv map) (vaddr : ℕ) : MapInv (petmemFreeNode map vaddr) := by
  rw [petmemFreeNode]
  cases h : freeLoop vaddr map.nodes with
  | none => exact hI
  | some p => exact hI.of_freeShape (hI.free_shape h)

/-! ### Whole runs -/

/-- A call that changes the map. -/
inductive MapOp where
  /-- `petmem_alloc_vspace`. -/
  | alloc (numPages : ℕ)
  /-- `petmem_free_vspace`. -/
  | free (vaddr : ℕ)

/-- The map after a call. -/
def mapStep (map : MapHead) : MapOp → MapHead
  | .alloc numPages => (petmemAllocVspace map numPages).2
  | .free vaddr => petmemFreeNode map vaddr

/-- The map after a sequence of calls on a new process. -/
def mapRun (junk : MemMap) (ops : List MapOp) : MapHead := ops.foldl mapStep (petmemInitProcess junk)

/-- The invariant holds after any sequence of calls. -/
theorem mapInv_mapRun (junk : MemMap) (ops : List MapOp) : MapInv (mapRun junk ops) := by
  refine (exec_foldl (R := fun map op map' => map' = mapStep map op) (g := id) (fun _ _ _ => rfl) _).inv
    (mapInv_petmemInitProcess junk) ?_
  rintro map (numPages | vaddr) _ hI rfl
  · exact hI.alloc numPages
  · exact hI.free vaddr

/-- **The map tiles the region.** After any sequence of allocations and frees, of any
size and at any address, the nodes tile the region in whole pages, no two
neighbours are free, the last node is free, and so the next `petmem_free_vspace`
finds a real node after the one it frees and leaves the list head alone, whatever
its fields hold. -/
theorem mapRun_tiles_region (junk : MemMap) (ops : List MapOp) :
    Tiles MemMap.start MemMap.size petmemRegionStart petmemRegionEnd (mapRun junk ops).nodes ∧
    (∀ n ∈ (mapRun junk ops).nodes, pageSize4KB ∣ n.size) ∧
    ((mapRun junk ops).nodes.IsChain fun a b => ¬ (a.allocated = 0 ∧ b.allocated = 0)) ∧
    (∃ last ∈ (mapRun junk ops).nodes.getLast?, last.allocated = 0) ∧
    ∀ vaddr, (petmemFreeNode (mapRun junk ops) vaddr).map0 = (mapRun junk ops).map0 ∧
      ∀ p, freeLoop vaddr (mapRun junk ops).nodes = some p → p.next (mapRun junk ops) ∈ (mapRun junk ops).nodes := by
  have hI := mapInv_mapRun junk ops
  refine ⟨hI.tiles, fun n hn => (hI.ok n hn).pages, hI.apart, hI.lastFree, fun vaddr => ⟨?_, fun p hp => ?_⟩⟩
  · rw [petmemFreeNode]
    cases h : freeLoop vaddr (mapRun junk ops).nodes with
    | none => rfl
    | some p => exact (hI.free_shape h).map0_eq
  · obtain ⟨hn, -, ha, -⟩ := freeLoop_shape hp
    obtain ⟨n, after, hafter⟩ := List.exists_cons_of_ne_nil (hI.after_ne_nil hn ha)
    rw [Place.next, hafter, List.headD_cons, hn, hafter]
    simp

end PetLab.VMproject
