import PetLab.VMproject.VmRuns

/-!
# A free leaves the other segments alone

`petmem_free_vspace` looks at one page more than the segment has, and may free a page
directory in which its scan missed something. In a run whose calls are decided by the
first table and spare the others (`SparesOthers`), a free changes no translation of
another segment and frees only the segment's own frames (`free_isolates`). The page
after the segment is enough to break that: `free_unmaps_neighbour`.
-/

namespace PetLab.VMproject

open PetLab.Lib

/-- The first table decides the walk, the page after the segment is not mapped, and the
scan of a page directory, if there is one, is right. -/
def SparesOthers (m : Machine) (s numPages : ℕ) : Prop := FirstTable m s numPages ∧ Spared m s numPages

/-- `petmem_free_vspace(map, A.start)` returns, leaves the pages of the other segments
as they were, and the user frames it frees were mapped by pages of `A`. -/
def FreeIsolates (st : Process) (A : MemMap) : Prop :=
  ∃ st', FreeVspace st A.start st' ∧
    (∀ B ∈ st.map.nodes, B ≠ A → ∀ v, B.holds v → translate st'.m v = translate st.m v) ∧
    ∀ f, .freePage .user (some f) ∈ st'.m.log.drop st.m.log.length →
      ∃ v, A.holds v ∧ translate st.m v = some f

/-- The segment found at `A.start` is `A`, or an empty one. -/
theorem MapInv.found_eq_or_empty {map : MapHead} (hI : MapInv map) {A : MemMap} (hA : A ∈ map.nodes)
    (hlive : A.allocated = 1) {p : Place} (hp : freeLoop A.start map.nodes = some p) :
    p.cursor = A ∨ p.cursor.size = 0 := by
  obtain ⟨hn, hstart, -, hbefore⟩ := freeLoop_shape hp
  rw [hn, List.mem_append, List.mem_cons] at hA
  rcases hA with hA | rfl | hA
  · exact absurd ⟨rfl, hlive⟩ (hbefore A hA)
  · exact .inl rfl
  · -- a later segment with the same start
    have htiles := hI.tiles
    rw [hn] at htiles
    obtain ⟨_, -, h⟩ := tiles_append.mp htiles
    have := (List.pairwise_cons.mp h.pairwise).1 A hA
    exact .inr (by omega)

/-- **A free leaves the other segments alone**, in every run whose frees spare them. -/
theorem free_isolates (K : Kernel) (hK : ∀ m, ∃ f, K.getZeroedPage m = some f ∧ f ∉ m.allocated)
    (st₀ : Process) (h₀ : NewProcess st₀) (ops : List VmOp) (st : Process)
    (hrun : Exec (Guard (FreeMeets SparesOthers) (VmStep K)) st₀ ops st) (A : MemMap) (hA : A ∈ st.map.nodes)
    (hlive : A.allocated = 1) (hcond : FreeMeets SparesOthers st (.free A.start)) : FreeIsolates st A := by
  have hrun' : Exec (Guard (FreeMeets FirstTable) (VmStep K)) st₀ ops st := by
    refine hrun.mono fun s op s' h => ⟨?_, h.2⟩
    cases op with
    | alloc n => trivial
    | pagefault a c => trivial
    | free vaddr => exact fun p hp => (h.1 p hp).1
  have hI := vmInv_of_run (Kernel.serves_of_not_mem_allocated hK) h₀ hrun'
  obtain ⟨p, hp⟩ : ∃ p, freeLoop A.start st.map.nodes = some p := by
    refine Option.ne_none_iff_exists'.mp fun hnone => ?_
    exact freeLoop_eq_none_iff.mp hnone A hA ⟨rfl, hlive⟩
  obtain ⟨hfirst, hspared⟩ := hcond p hp
  obtain ⟨st', hst', -, hf⟩ := hI.free hp hfirst
  have hcursor : p.cursor ∈ st.map.nodes := by
    rw [(freeLoop_shape hp).1]
    simp
  have hfound := hI.map.found_eq_or_empty hA hlive hp
  have hsize := hI.map.size_eq hcursor
  refine ⟨st', hst', ?_, ?_⟩
  · intro B hB hne v hv
    refine hf.others hspared v fun hin => ?_
    rw [hsize] at hin
    simp only [MemMap.holds, decide_eq_true_eq] at hv
    -- the address is in a segment that is not empty, so that is `A`
    have hpA : p.cursor = A := hfound.resolve_right (by omega)
    rw [hpA] at hin
    have := hI.map.tiles.disjoint hA hB hne.symm
    omega
  · intro f hmem
    obtain ⟨events, hlog, -, huser⟩ := hf.log
    rw [hlog, List.drop_left] at hmem
    obtain ⟨v, h₁, h₂, hv⟩ := huser hspared f hmem
    rw [hsize] at h₂
    have hpA : p.cursor = A := hfound.resolve_right (by omega)
    rw [hpA] at h₁ h₂
    exact ⟨v, by simp [MemMap.holds, hlive, h₁, h₂], hv⟩

/-- Two segments of one page, the first touched: its free leaves the second alone. -/
theorem free_isolates_two_segments : ∃ st,
    Exec (Guard (FreeMeets SparesOthers) (VmStep .bump)) .blank
      [.alloc 1, .alloc 1, .pagefault petmemRegionStart 0] st ∧
    translate st.m petmemRegionStart ≠ none ∧ FreeIsolates st ⟨1, petmemRegionStart, 4096, 1, 0⟩ := by
  obtain ⟨st, hst⟩ : ∃ st, st = [VmOp.alloc 1, .alloc 1, .pagefault petmemRegionStart 0].foldl Process.call .blank :=
    ⟨_, rfl⟩
  have hrun : Exec (Guard (FreeMeets SparesOthers) (VmStep .bump)) .blank
      [.alloc 1, .alloc 1, .pagefault petmemRegionStart 0] st := by
    rw [hst]
    exact exec_call (fun st op => FreeMeets.of_ne_free) _ (by simp)
  have hnodes : st.map.nodes = [⟨1, petmemRegionStart, 4096, 1, 0⟩, ⟨2, petmemRegionStart + 4096, 4096, 1, 0⟩,
      ⟨3, petmemRegionStart + 8192, 0x2000000000 - 8192, 0, 0⟩] := by
    rw [hst]
    decide +kernel
  have hpdp : child st.m st.m.cr3 (pmlEntry petmemRegionStart) = some 8 := by
    rw [hst]
    decide +kernel
  have hpd : child st.m 8 (pdpEntry petmemRegionStart) = some 9 := by
    rw [hst]
    decide +kernel
  have hpt : child st.m 9 (pdEntry petmemRegionStart) = some 10 := by
    rw [hst]
    decide +kernel
  have hafter : translate st.m (petmemRegionStart + 4096 * (4096 / pageSize4KB)) = none := by
    rw [hst]
    decide +kernel
  have hmapped : translate st.m petmemRegionStart ≠ none := by
    rw [hst]
    decide +kernel
  refine ⟨st, hrun, hmapped, free_isolates .bump Kernel.bump_fresh .blank newProcess_blank _ st hrun _
    (by rw [hnodes]; simp) rfl fun p hp => ?_⟩
  have hloop : freeLoop petmemRegionStart st.map.nodes = some ⟨[], ⟨1, petmemRegionStart, 4096, 1, 0⟩,
      [⟨2, petmemRegionStart + 4096, 4096, 1, 0⟩, ⟨3, petmemRegionStart + 8192, 0x2000000000 - 8192, 0, 0⟩]⟩ := by
    rw [hnodes]
    decide +kernel
  rw [← Option.some.inj (hloop.symm.trans hp)]
  refine ⟨?_, hafter, fun pdp pd h₁ h₂ h₃ => ?_⟩
  · simp only [FirstTable, hpdp, hpd]
    decide
  · obtain rfl := Option.some.inj (hpdp.symm.trans h₁)
    obtain rfl := Option.some.inj (hpd.symm.trans h₂)
    cases hpt.symm.trans h₃

/-- Two segments of one page, the second touched: the free of the first unmaps it. -/
theorem free_unmaps_neighbour :
    (∀ m, ∃ f, Kernel.bump.getZeroedPage m = some f ∧ f ∉ m.allocated) ∧ NewProcess .blank ∧ ∃ st,
    Exec (VmStep .bump) .blank [.alloc 1, .alloc 1, .pagefault (petmemRegionStart + 4096) 0] st ∧
    ⟨1, petmemRegionStart, 4096, 1, 0⟩ ∈ st.map.nodes ∧ ¬ FreeIsolates st ⟨1, petmemRegionStart, 4096, 1, 0⟩ := by
  obtain ⟨st, hst⟩ : ∃ st, st = [VmOp.alloc 1, .alloc 1, .pagefault (petmemRegionStart + 4096) 0].foldl
    Process.call .blank := ⟨_, rfl⟩
  have hrun : Exec (VmStep .bump) .blank [.alloc 1, .alloc 1, .pagefault (petmemRegionStart + 4096) 0] st := by
    rw [hst]
    exact (exec_call (C := fun _ _ => True) (fun _ _ _ => trivial) _ (by simp)).mono fun _ _ _ h => h.2
  refine ⟨Kernel.bump_fresh, newProcess_blank, st, hrun, by rw [hst]; decide +kernel, ?_⟩
  rintro ⟨st', hfree, hothers, -⟩
  obtain ⟨st'', hst'', hgone⟩ := Outcome.exists_of_returns
    (fun st => translate st.m (petmemRegionStart + 4096) = none) (petmemFreeVspace 5 st petmemRegionStart)
    (by rw [hst]; decide +kernel)
  obtain rfl := hfree.unique ⟨5, hst''⟩
  have hsame := hothers ⟨2, petmemRegionStart + 4096, 4096, 1, 0⟩ (by rw [hst]; decide +kernel) (by decide)
    (petmemRegionStart + 4096) (by decide)
  simp only [decide_eq_true_eq] at hgone
  rw [hgone] at hsame
  have hmapped : translate st.m (petmemRegionStart + 4096) ≠ none := by
    rw [hst]
    decide +kernel
  exact hmapped hsame.symm

end PetLab.VMproject
