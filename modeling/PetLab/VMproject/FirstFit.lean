import PetLab.VMproject.MapLive
import Mathlib.Order.Bounds.Basic

/-!
# First fit is complete

`petmem_alloc_vspace` takes the first free node with room for the request. It looks at one
node at a time, so it would miss a run of free pages that is spread over two of them. There
is no such run: a free node that is not empty is the whole gap between two live allocations
(`MapInv.apart_solid`), and so a run of free pages lies in one node (`LiveInv.fits_of_freeRun`).

What is returned is then the lowest address at which the request can be placed right behind
a live allocation or at the start of the region (`firstFit_complete`).
-/

namespace PetLab.VMproject

open PetLab.Lib

/-- `numPages` pages at `a` are in the region and free of live allocations. -/
structure FreeRun (live : List (ℕ × ℕ)) (numPages a : ℕ) : Prop where
  /-- The pages are pages. -/
  aligned : pageSize4KB ∣ a
  /-- They are in the region, -/
  low : petmemRegionStart ≤ a
  /-- all of them. -/
  high : a + pageSize4KB * numPages ≤ petmemRegionEnd
  /-- No live allocation has any of them. -/
  clear : ∀ p ∈ live, a + pageSize4KB * numPages ≤ p.1 ∨ p.1 + p.2 ≤ a

/-- A run that begins at the start of the region or where a live allocation ends. -/
def Candidate (live : List (ℕ × ℕ)) (numPages a : ℕ) : Prop :=
  FreeRun live numPages a ∧ (a = petmemRegionStart ∨ ∃ p ∈ live, a = p.1 + p.2)

section

variable {map : MapHead} {live : List (ℕ × ℕ)} {numPages a : ℕ}

/-- A live allocation is a node that is allocated. -/
theorem LiveInv.mem_live (hI : LiveInv map live) {n : MemMap} (hn : n ∈ map.nodes) (ha : n.allocated = 1) :
    (n.start, n.size) ∈ live := (hI.nodes _).mpr ⟨n, hn, ha, rfl⟩

/-- A node that fits is as long as the request. -/
theorem MemMap.fits.le_size {n : MemMap} (h : n.fits numPages) : pageSize4KB * numPages ≤ n.size := by
  have hmul := Nat.mul_le_mul_left pageSize4KB h.2
  exact hmul.trans (Nat.mul_div_le n.size pageSize4KB)

/-- A run of free pages lies in one free node, which fits. -/
theorem LiveInv.fits_of_freeRun (hI : LiveInv map live) (hpages : 1 ≤ numPages) (ha : FreeRun live numPages a) :
    ∃ n ∈ map.nodes, n.fits numPages ∧ n.start ≤ a := by
  have hpos : 0 < pageSize4KB * numPages := Nat.mul_pos (by decide) hpages
  have hhigh := ha.high
  obtain ⟨x, hx, hxa, hax⟩ := hI.inv.tiles_solid.exists_mem ha.low (by omega : a < petmemRegionEnd)
  obtain ⟨hxn, -⟩ := MapHead.mem_solid.mp hx
  -- the node that has the first page is not live
  have hfree : x.allocated = 0 := by
    refine (hI.inv.ok x hxn).flag.resolve_right fun halloc => ?_
    have := ha.clear _ (hI.mem_live hxn halloc)
    simp only at this
    omega
  -- and it has all of the pages: where it ends, a live one begins
  have hend : a + pageSize4KB * numPages ≤ x.start + x.size := by
    rcases hI.inv.tiles_solid.next hI.inv.apart_solid hx with hlast | ⟨y, hy, hstart, hR⟩
    · rw [hlast]
      exact hhigh
    · have halloc : y.allocated = 1 := by
        by_contra hy₀
        exact hR ⟨by rw [hfree]; decide, hy₀⟩
      have hsize := hI.size_pos hy
      have := ha.clear _ (hI.mem_live (MapHead.mem_solid.mp hy).1 halloc)
      simp only at this
      omega
  refine ⟨x, hxn, ⟨hfree, ?_⟩, hxa⟩
  rw [Nat.le_div_iff_mul_le (by decide), Nat.mul_comm]
  omega

/-- A free node that fits starts at a candidate. -/
theorem LiveInv.candidate_of_fits (hI : LiveInv map live) (hpages : 1 ≤ numPages) {n : MemMap} (hn : n ∈ map.nodes)
    (hfit : n.fits numPages) : Candidate live numPages n.start := by
  have hpos : 0 < pageSize4KB * numPages := Nat.mul_pos (by decide) hpages
  have hsize := hfit.le_size
  have hsolid : n ∈ map.solid := MapHead.mem_solid.mpr ⟨hn, fun h => by omega⟩
  obtain ⟨hlow, hhigh⟩ := hI.inv.tiles.mem_bounds hn
  refine ⟨⟨?_, hlow, by omega, fun p hp => ?_⟩, ?_⟩
  · exact hI.inv.tiles.dvd_start (by decide) (fun x hx => (hI.inv.ok x hx).pages) hn
  · obtain ⟨m, hm, halloc, rfl⟩ := (hI.nodes p).mp hp
    have hne : n ≠ m := by
      rintro rfl
      exact absurd (hfit.1.symm.trans halloc) (by decide)
    have := hI.inv.tiles.disjoint hn hm hne
    simp only
    omega
  · -- the node before it in the map is live
    rcases hI.inv.tiles_solid.prev hI.inv.apart_solid hsolid with hfirst | ⟨m, hm, hend, hR⟩
    · exact .inl hfirst
    · have halloc : m.allocated = 1 := by
        by_contra hm₀
        exact hR ⟨hm₀, by rw [hfit.1]; decide⟩
      exact .inr ⟨_, hI.mem_live (MapHead.mem_solid.mp hm).1 halloc, hend.symm⟩

/-- `petmem_alloc_vspace` finds the first node that fits, and fails when there is none. -/
theorem MapInv.alloc_first (hI : MapInv map) (numPages : ℕ) :
    (petmemAllocVspace map numPages = (0, map) ∧ ∀ n ∈ map.nodes, ¬ n.fits numPages) ∨
      ∃ before cursor after, map.nodes = before ++ cursor :: after ∧ cursor.fits numPages ∧ cursor.start ≠ 0 ∧
        (∀ n ∈ map.nodes, n.fits numPages → cursor.start ≤ n.start) ∧
        petmemAllocVspace map numPages =
          (cursor.start, { map with
            nodes := before ++ cursor.take numPages :: cursor.rest numPages map.kmalloc :: after,
            kmalloc := map.kmalloc + 1 }) := by
  by_cases hnone : ∀ n ∈ map.nodes, ¬ n.fits numPages
  · refine .inl ⟨?_, hnone⟩
    rcases petmemAllocVspace_cases map numPages with h | ⟨before, cursor, after, hn, hfit, -⟩
    · exact h
    · exact absurd hfit (hnone cursor (by simp [hn]))
  · obtain ⟨before, cursor, after, hn, hbefore, hfit⟩ := exists_first_fit (by simpa using hnone)
    have hstart : petmemRegionStart ≤ cursor.start := (hI.tiles.mem_bounds (by simp [hn])).1
    refine .inr ⟨before, cursor, after, hn, hfit, ?_, fun n hmem hnfit => ?_, ?_⟩
    · intro h₀
      rw [h₀] at hstart
      exact absurd hstart (by decide)
    · rw [hn, List.mem_append, List.mem_cons] at hmem
      rcases hmem with hmem | rfl | hmem
      · exact absurd hnfit (hbefore n hmem)
      · exact Nat.le_refl _
      · have hpair := hI.tiles.pairwise
        rw [hn, List.pairwise_append, List.pairwise_cons] at hpair
        exact (Nat.le_add_right ..).trans (hpair.2.1.1 n hmem)
    · simp only [petmemAllocVspace, hn, allocLoop_eq _ _ hbefore hfit]

end

/-- **First fit is complete.** After any calls that ask for at least one page each, a request
for pages is given the lowest address at which they fit behind a live allocation or at the
start of the region; it fails exactly when no run of that many pages of the region is free;
and every node that was allocated stays as it is. -/
theorem firstFit_complete (junk : MemMap) (ops : List MapOp) (hops : ∀ n, .alloc n ∈ ops → 1 ≤ n) (numPages : ℕ)
    (hpages : 1 ≤ numPages) :
    ((petmemAllocVspace (mapRun junk ops) numPages).1 ≠ 0 →
      IsLeast {a | Candidate (liveRun junk ops) numPages a} (petmemAllocVspace (mapRun junk ops) numPages).1) ∧
    ((petmemAllocVspace (mapRun junk ops) numPages).1 = 0 ↔ ¬ ∃ a, FreeRun (liveRun junk ops) numPages a) ∧
    ∀ n : MemMap, n.allocated = 1 →
      (n ∈ (mapRun junk ops).nodes → n ∈ (petmemAllocVspace (mapRun junk ops) numPages).2.nodes) ∧
      (n ∈ (petmemAllocVspace (mapRun junk ops) numPages).2.nodes → n ∈ (mapRun junk ops).nodes ∨
        n.start = (petmemAllocVspace (mapRun junk ops) numPages).1 ∧ n.size = pageSize4KB * numPages) := by
  have hI := liveInv_run junk hops
  rcases hI.inv.alloc_first numPages with ⟨heq, hnone⟩ | ⟨before, cursor, after, hn, hfit, h₀, hleast, heq⟩
  · rw [heq]
    refine ⟨fun h => absurd rfl h, ⟨fun _ => ?_, fun _ => rfl⟩, fun n _ => ⟨id, .inl⟩⟩
    rintro ⟨a, ha⟩
    obtain ⟨n, hn, hfit, -⟩ := hI.fits_of_freeRun hpages ha
    exact hnone n hn hfit
  · have hcursor : cursor ∈ (mapRun junk ops).nodes := by simp [hn]
    have hcand := hI.candidate_of_fits hpages hcursor hfit
    rw [heq]
    refine ⟨fun _ => ⟨hcand, fun a ha => ?_⟩, ⟨fun h => absurd h h₀, fun h => absurd ⟨_, hcand.1⟩ h⟩,
      fun n halloc => ?_⟩
    · obtain ⟨n, hn, hnfit, hna⟩ := hI.fits_of_freeRun hpages ha.1
      exact (hleast n hn hnfit).trans hna
    · simp only [mem_nodes_split hfit.1 halloc, ← hn]
      refine ⟨.inr, fun h => h.symm.imp_right ?_⟩
      rintro rfl
      exact ⟨rfl, rfl⟩

/-- Two pages between two live allocations are free: three go behind the second one, two
between them. -/
theorem firstFit_complete_gap :
    (petmemAllocVspace (mapRun ⟨0, 0, 0, 0, 0⟩ [.alloc 1, .alloc 2, .alloc 1, .free (petmemRegionStart + 4096)]) 3).1 =
      petmemRegionStart + 4 * 4096 ∧
    IsLeast
      {a | Candidate (liveRun ⟨0, 0, 0, 0, 0⟩ [.alloc 1, .alloc 2, .alloc 1, .free (petmemRegionStart + 4096)]) 2 a}
      (petmemRegionStart + 4096) := by
  have htwo : (petmemAllocVspace
      (mapRun ⟨0, 0, 0, 0, 0⟩ [.alloc 1, .alloc 2, .alloc 1, .free (petmemRegionStart + 4096)]) 2).1 =
        petmemRegionStart + 4096 := by decide +kernel
  refine ⟨by decide +kernel, ?_⟩
  have hleast := (firstFit_complete ⟨0, 0, 0, 0, 0⟩
    [.alloc 1, .alloc 2, .alloc 1, .free (petmemRegionStart + 4096)] (by simp) 2 (by decide)).1
  rw [htwo] at hleast
  exact hleast (by decide)

end PetLab.VMproject
