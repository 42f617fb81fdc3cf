import PetLab.VMproject.FirstTable

/-!
# Only live memory is mapped

Runs of a process that allocates, touches and frees memory: any sequence of
`petmem_alloc_vspace`, `petmem_handle_pagefault` and `petmem_free_vspace` calls on a
new map. In a run whose calls of `petmem_free_vspace` are all decided by the first
table (`FirstTable`), a page of the region is mapped only as long as the segment it was
touched in is allocated (`vmRun_maps_live`). Without that, pages stay behind:
`free_leaves_page` is a segment across two page tables.
-/

namespace PetLab.VMproject

open PetLab.Lib

/-- A call. -/
inductive VmOp where
  /-- `petmem_alloc_vspace`. -/
  | alloc (numPages : ℕ)
  /-- `petmem_handle_pagefault`. -/
  | pagefault (faultAddr errorCode : ℕ)
  /-- `petmem_free_vspace`. -/
  | free (vaddr : ℕ)

/-- The process after a call that returns. -/
def VmStep (K : Kernel) (st : Process) : VmOp → Process → Prop
  | .alloc numPages, st' => st' = { st with map := (petmemAllocVspace st.map numPages).2 }
  | .pagefault faultAddr errorCode, st' => ∃ r, st.pagefault K faultAddr errorCode = some (r, st')
  | .free vaddr, st' => FreeVspace st vaddr st'

/-- A process that has just opened the device. -/
structure NewProcess (st : Process) : Prop where
  /-- The map is new. -/
  map : ∃ junk, st.map = petmemInitProcess junk
  /-- The tables of the region are unshared. -/
  unshared : TablesUnshared st.m
  /-- The page allocator knows of all pages in use. -/
  tracked : Tracked st.m

/-- The segment a call of `petmem_free_vspace` finds meets `P`. -/
def FreeMeets (P : Machine → ℕ → ℕ → Prop) (st : Process) : VmOp → Prop
  | .free vaddr => ∀ p, freeLoop vaddr st.map.nodes = some p →
      P st.m p.cursor.start (p.cursor.size / pageSize4KB)
  | _ => True

/-! ### The invariant -/

/-- What holds of a process in every state. -/
structure VmInv (st : Process) : Prop where
  /-- The map is well formed. -/
  map : MapInv st.map
  /-- The tables of the region are unshared. -/
  unshared : TablesUnshared st.m
  /-- The page allocator knows of all pages in use. -/
  tracked : Tracked st.m

theorem NewProcess.vmInv {st : Process} (h : NewProcess st) : VmInv st := by
  obtain ⟨junk, hmap⟩ := h.map
  refine ⟨?_, h.unshared, h.tracked⟩
  rw [hmap]
  exact mapInv_petmemInitProcess junk

/-- Every node starts at a page. -/
theorem MapInv.aligned {map : MapHead} (hI : MapInv map) {n : MemMap} (hn : n ∈ map.nodes) : 4096 ∣ n.start :=
  hI.tiles.dvd_start (by decide) (fun x hx => (hI.ok x hx).pages) hn

theorem MapInv.size_eq {map : MapHead} (hI : MapInv map) {n : MemMap} (hn : n ∈ map.nodes) :
    4096 * (n.size / pageSize4KB) = n.size := Nat.mul_div_cancel' (hI.ok n hn).pages

/-- A call of `petmem_free_vspace` that finds a segment, when the first table decides
the walk. -/
theorem VmInv.free {st : Process} (hI : VmInv st) {vaddr : ℕ} {p : Place} (hp : freeLoop vaddr st.map.nodes = some p)
    (hfirst : FirstTable st.m p.cursor.start (p.cursor.size / pageSize4KB)) :
    ∃ st', FreeVspace st vaddr st' ∧ st'.map = p.free st.map ∧
      Freed st.m st'.m p.cursor.start (p.cursor.size / pageSize4KB) := by
  have hmem : p.cursor ∈ st.map.nodes := by
    rw [(freeLoop_shape hp).1]
    simp
  have hb := hI.map.tiles.mem_bounds hmem
  obtain ⟨fuel, m', hm', hfreed⟩ := freePages_of_firstTable hI.unshared hI.tracked hb.1
    (by rw [hI.map.size_eq hmem]; exact hb.2) (hI.map.aligned hmem) hfirst
  refine ⟨⟨p.free st.map, m'⟩, ⟨fuel, ?_⟩, rfl, hfreed⟩
  simp only [petmemFreeVspace, hp, hm', petmemFreeNode]

/-- What a call does, when the first table decides the walks of `petmem_free_vspace`. -/
theorem VmInv.step_cases {K : Kernel} (hK : K.Serves Tracked) {st st' : Process} {op : VmOp} (hI : VmInv st)
    (h : Guard (FreeMeets FirstTable) (VmStep K) st op st') :
    (∃ n, op = .alloc n ∧ st' = { st with map := (petmemAllocVspace st.map n).2 }) ∨
      (∃ a c, op = .pagefault a c ∧ st' = st) ∨
      (∃ a c, op = .pagefault a c ∧ st'.map = st.map ∧ petmemFindAddress st.map a ≠ none ∧ c ≠ 2 ∧ InRegion a ∧
        Serviced Tracked st.m st'.m a) ∨
      (∃ vaddr, op = .free vaddr ∧ st' = st) ∨
      ∃ vaddr p, op = .free vaddr ∧ freeLoop vaddr st.map.nodes = some p ∧ st'.map = p.free st.map ∧
        Freed st.m st'.m p.cursor.start (p.cursor.size / pageSize4KB) := by
  obtain ⟨hcond, hstep⟩ := h
  cases op with
  | alloc n => exact .inl ⟨n, rfl, hstep⟩
  | pagefault a c =>
    obtain ⟨r, hr⟩ := hstep
    obtain ⟨m', hm', rfl⟩ := Process.pagefault_eq_some.mp hr
    rcases petmemHandlePagefault_cases hK hI.map hI.unshared hI.tracked a c with
      ⟨-, hno⟩ | ⟨hfind, hc, ha, m'', hyes, hs⟩
    · obtain ⟨-, rfl⟩ := Prod.mk.inj (Option.some.inj (hno.symm.trans hm'))
      exact .inr (.inl ⟨a, c, rfl, rfl⟩)
    · obtain ⟨-, rfl⟩ := Prod.mk.inj (Option.some.inj (hyes.symm.trans hm'))
      exact .inr (.inr (.inl ⟨a, c, rfl, rfl, hfind, hc, ha, hs⟩))
  | free vaddr =>
    cases hp : freeLoop vaddr st.map.nodes with
    | none =>
      obtain ⟨fuel, hfuel⟩ := hstep
      simp only [petmemFreeVspace, hp, Outcome.ok.injEq] at hfuel
      exact .inr (.inr (.inr (.inl ⟨vaddr, rfl, hfuel.symm⟩)))
    | some p =>
      obtain ⟨st'', hst, hmap, hfreed⟩ := hI.free hp (hcond p hp)
      obtain rfl := hst.unique hstep
      exact .inr (.inr (.inr (.inr ⟨vaddr, p, rfl, hp, hmap, hfreed⟩)))

theorem VmInv.step {K : Kernel} (hK : K.Serves Tracked) {st st' : Process} {op : VmOp} (hI : VmInv st)
    (h : Guard (FreeMeets FirstTable) (VmStep K) st op st') : VmInv st' := by
  rcases hI.step_cases hK h with ⟨n, -, rfl⟩ | ⟨a, c, -, rfl⟩ | ⟨a, c, -, hmap, -, -, -, hs⟩ | ⟨vaddr, -, rfl⟩ |
    ⟨vaddr, p, -, hp, hmap, hf⟩
  · exact ⟨hI.map.alloc n, hI.unshared, hI.tracked⟩
  · exact hI
  · exact ⟨by rw [hmap]; exact hI.map, hs.unshared, hs.serves⟩
  · exact hI
  · exact ⟨by rw [hmap]; exact hI.map.of_freeShape (hI.map.free_shape hp), hf.unshared, hf.tracked⟩

theorem vmInv_of_run {K : Kernel} (hK : K.Serves Tracked) {st₀ st : Process} {ops : List VmOp} (h₀ : NewProcess st₀)
    (h : Exec (Guard (FreeMeets FirstTable) (VmStep K)) st₀ ops st) : VmInv st :=
  h.inv h₀.vmInv fun _ _ _ hI hs => hI.step hK hs

/-! ### Live segments -/

/-- An allocated segment stays when another is allocated. -/
theorem mem_nodes_alloc {map : MapHead} {A : MemMap} (hA : A ∈ map.nodes) (hlive : A.allocated = 1) (n : ℕ) :
    A ∈ (petmemAllocVspace map n).2.nodes := by
  rcases petmemAllocVspace_cases map n with h | ⟨before, cursor, after, hn, hfit, h⟩
  · rw [h]
    exact hA
  · rw [h]
    rw [hn] at hA
    exact (mem_nodes_split hfit.1 hlive).mpr (.inr hA)

/-- The page of `v` was touched since the segment `A` was allocated: a fault on it came
in a state in which `A` was allocated, and `A` has been so ever since. -/
def FaultedSince (K : Kernel) (st₀ : Process) (ops : List VmOp) (st : Process) (A : MemMap) (v : ℕ) : Prop :=
  ∃ ops₁ a c ops₂ st₁, ops = ops₁ ++ .pagefault a c :: ops₂ ∧ a / 4096 = v / 4096 ∧ c ≠ 2 ∧
    Exec (VmStep K) st₀ ops₁ st₁ ∧ A ∈ st₁.map.nodes ∧
    Exec (fun s op s' => VmStep K s op s' ∧ A ∈ s'.map.nodes) st₁ (.pagefault a c :: ops₂) st

theorem FaultedSince.snoc {K : Kernel} {st₀ st st' : Process} {ops : List VmOp} {op : VmOp} {A : MemMap} {v : ℕ}
    (h : FaultedSince K st₀ ops st A v) (hstep : VmStep K st op st') (hA : A ∈ st'.map.nodes) :
    FaultedSince K st₀ (ops ++ [op]) st' A v := by
  obtain ⟨ops₁, a, c, ops₂, st₁, rfl, hpage, hc, hrun, hA₁, hsince⟩ := h
  exact ⟨ops₁, a, c, ops₂ ++ [op], st₁, by simp, hpage, hc, hrun, hA₁, .snoc hsince ⟨hstep, hA⟩⟩

/-- A segment that has an address has the whole page. -/
theorem MapInv.holds_of_page {map : MapHead} (hI : MapInv map) {A : MemMap} (hA : A ∈ map.nodes) {a v : ℕ}
    (ha : A.holds a) (hpage : a / 4096 = v / 4096) : A.holds v := by
  simp only [MemMap.holds, decide_eq_true_eq] at ha ⊢
  have := hI.aligned hA
  have := (hI.ok A hA).pages
  simp only [pageSize4KB] at this
  exact ⟨ha.1, by omega, by omega⟩

/-- Every mapped page belongs to an allocated segment and was touched since that was
allocated. -/
theorem mapped_of_run {K : Kernel} (hK : K.Serves Tracked) {st₀ st : Process} {ops : List VmOp}
    (h₀ : NewProcess st₀) (hempty : ∀ v, InRegion v → translate st₀.m v = none)
    (h : Exec (Guard (FreeMeets FirstTable) (VmStep K)) st₀ ops st) {v : ℕ} (hv : InRegion v)
    (hmapped : translate st.m v ≠ none) : ∃ A ∈ st.map.nodes, A.holds v ∧ FaultedSince K st₀ ops st A v := by
  induction h with
  | nil => exact absurd (hempty v hv) hmapped
  | @snoc ops op st st' hrun hstep ih =>
    have hI := vmInv_of_run hK h₀ hrun
    rcases hI.step_cases hK hstep with ⟨n, -, rfl⟩ | ⟨a, c, -, rfl⟩ | ⟨a, c, rfl, hmap, hfind, hc, ha, hs⟩ |
      ⟨vaddr, -, rfl⟩ | ⟨vaddr, p, -, hp, hmap, hf⟩
    · obtain ⟨A, hA, hold, hsince⟩ := ih hmapped
      have hlive : A.allocated = 1 := by
        simp only [MemMap.holds, decide_eq_true_eq] at hold
        exact hold.1
      have hA' := mem_nodes_alloc hA hlive n
      exact ⟨A, hA', hold, hsince.snoc hstep.2 hA'⟩
    · obtain ⟨A, hA, hold, hsince⟩ := ih hmapped
      exact ⟨A, hA, hold, hsince.snoc hstep.2 hA⟩
    · rw [hmap]
      by_cases hpage : a / 4096 = v / 4096
      · -- the page of this fault
        obtain ⟨A, hA⟩ := Option.ne_none_iff_exists'.mp hfind
        have hmem := List.mem_of_find?_eq_some hA
        refine ⟨A, hmem, hI.map.holds_of_page hmem (List.find?_some hA) hpage, ?_⟩
        refine ⟨ops, a, c, [], st, rfl, hpage, hc, hrun.mono fun _ _ _ h => h.2, hmem, .single ⟨hstep.2, ?_⟩⟩
        rw [hmap]
        exact hmem
      · rw [hs.translate_of_ne ha (Ne.symm hpage)] at hmapped
        obtain ⟨A, hA, hold, hsince⟩ := ih hmapped
        exact ⟨A, hA, hold, hsince.snoc hstep.2 (by rw [hmap]; exact hA)⟩
    · obtain ⟨A, hA, hold, hsince⟩ := ih hmapped
      exact ⟨A, hA, hold, hsince.snoc hstep.2 hA⟩
    · have hsame := (hf.fewer v).resolve_left hmapped
      rw [hsame] at hmapped
      obtain ⟨A, hA, hold, hsince⟩ := ih hmapped
      have hrange := hold
      simp only [MemMap.holds, decide_eq_true_eq] at hrange
      have hcursor : p.cursor ∈ st.map.nodes := by
        rw [(freeLoop_shape hp).1]
        simp
      -- the segment freed is another one: its pages are gone
      have hne : A ≠ p.cursor := by
        rintro rfl
        refine hmapped (hsame ▸ hf.gone v hrange.2.1 ?_)
        rw [hI.map.size_eq hcursor]
        exact hrange.2.2
      have hA' : A ∈ st'.map.nodes := by
        rw [hmap]
        exact ((hI.map.free_shape hp).mem_nodes_iff hI.map hrange.1).mpr ⟨hA, hne⟩
      exact ⟨A, hA', hold, hsince.snoc hstep.2 hA'⟩

/-- **Only live memory is mapped**, in every run in which the first table decides the
walks of `petmem_free_vspace`: a mapped page belongs to an allocated segment and was
touched since; the next free unmaps its whole segment and frees each of its frames
once; and a page of the next segment is not mapped until it is touched, and then gets
a zeroed frame that was not in use. -/
theorem vmRun_maps_live (K : Kernel) (hK : ∀ m, ∃ f, K.getZeroedPage m = some f ∧ f ∉ m.allocated)
    (st₀ : Process) (h₀ : NewProcess st₀) (hempty : ∀ v, InRegion v → translate st₀.m v = none)
    (ops : List VmOp) (st : Process) (hrun : Exec (Guard (FreeMeets FirstTable) (VmStep K)) st₀ ops st) :
    (∀ v, InRegion v → translate st.m v ≠ none →
      ∃ A ∈ st.map.nodes, A.holds v ∧ FaultedSince K st₀ ops st A v) ∧
    (∀ vaddr p, freeLoop vaddr st.map.nodes = some p → FreeMeets FirstTable st (.free vaddr) →
      ∃ st', FreeVspace st vaddr st' ∧ (∀ v, p.cursor.holds v → translate st'.m v = none) ∧
        ∀ v f, p.cursor.holds v → translate st.m v = some f →
          (st'.m.log.drop st.m.log.length).countP (KernelEvent.frees f) = 1) ∧
    (∀ n addr map', petmemAllocVspace st.map n = (addr, map') → addr ≠ 0 →
      ∀ v, addr ≤ v → v < addr + 4096 * n → translate st.m v = none) ∧
    ∀ v c, petmemFindAddress st.map v ≠ none → c ≠ 2 → translate st.m v = none →
      ∃ st', st.pagefault K v c = some (0, st') ∧ ∃ f, translate st'.m v = some f ∧ ¬ InUse st.m f ∧
        ∀ k : Fin 512, st'.m.mem (f * 512 + k) = Entry.zero := by
  have hS := Kernel.serves_of_not_mem_allocated hK
  have hI := vmInv_of_run hS h₀ hrun
  have hmapped := fun v => mapped_of_run hS h₀ hempty hrun (v := v)
  refine ⟨hmapped, ?_, ?_, ?_⟩
  · intro vaddr p hp hcond
    obtain ⟨st', hst', -, hf⟩ := hI.free hp (hcond p hp)
    have hcursor : p.cursor ∈ st.map.nodes := by
      rw [(freeLoop_shape hp).1]
      simp
    have hrange : ∀ v, p.cursor.holds v →
        p.cursor.start ≤ v ∧ v < p.cursor.start + 4096 * (p.cursor.size / pageSize4KB) := by
      intro v hv
      simp only [MemMap.holds, decide_eq_true_eq] at hv
      rw [hI.map.size_eq hcursor]
      exact hv.2
    obtain ⟨events, hlog, hcount, -⟩ := hf.log
    refine ⟨st', hst', fun v hv => hf.gone v (hrange v hv).1 (hrange v hv).2, fun v f hv hvf => ?_⟩
    rw [hlog, List.drop_left]
    exact hcount v f (hrange v hv).1 (hrange v hv).2 hvf
  · intro n addr map' halloc haddr v h₁ h₂
    rcases petmemAllocVspace_cases st.map n with h | ⟨before, cursor, after, hn, hfit, h⟩
    · rw [h] at halloc
      exact absurd (congrArg Prod.fst halloc).symm haddr
    · obtain rfl : cursor.start = addr := by
        rw [h] at halloc
        exact congrArg Prod.fst halloc
      have hcursor : cursor ∈ st.map.nodes := by
        rw [hn]
        simp
      have hb := hI.map.tiles.mem_bounds hcursor
      have hsize := hfit.size_eq 0
      simp only [MemMap.take, pageSize4KB] at hsize
      by_contra hne
      obtain ⟨A, hA, hold, -⟩ := hmapped v ⟨by omega, by omega⟩ hne
      simp only [MemMap.holds, decide_eq_true_eq] at hold
      -- the segment was free before, and what is mapped was not
      have hne' : A ≠ cursor := by
        rintro rfl
        exact absurd (hfit.1.symm.trans hold.1) (by decide)
      have := hI.map.tiles.disjoint hA hcursor hne'
      omega
  · intro v c hfind hc hnone
    rcases petmemHandlePagefault_cases hS hI.map hI.unshared hI.tracked v c with
      ⟨hno, -⟩ | ⟨-, -, -, m', hm', hs⟩
    · exact absurd hno (not_or.mpr ⟨hfind, hc⟩)
    · exact ⟨_, Process.pagefault_eq_some.mpr ⟨m', hm', rfl⟩, hs.maps hnone⟩

/-! ### Two pages, and two page tables -/

/-- A process that has just opened the device and has no page tables but the top one. -/
def Process.blank : Process := ⟨petmemInitProcess ⟨0, 0, 0, 0, 0⟩, .blank⟩

theorem newProcess_blank : NewProcess .blank where
  map := ⟨_, rfl⟩
  unshared := tablesUnshared_blank
  tracked := by
    rintro f ⟨js, -, hf⟩
    obtain rfl := eq_nil_of_descend_blank hf
    obtain rfl := Option.some.inj hf
    simp [Process.blank, Machine.blank]

/-- With `Kernel.bump` there is always a page. -/
theorem exists_pagefault_bump (st : Process) (faultAddr errorCode : ℕ) :
    ∃ r st', st.pagefault .bump faultAddr errorCode = some (r, st') := by
  obtain ⟨r, hr⟩ : ∃ r, petmemHandlePagefault .bump st.map st.m faultAddr errorCode = some r :=
    exists_petmemHandlePagefault fun m => Option.some_ne_none _
  exact ⟨r.1, _, Process.pagefault_eq_some.mpr ⟨r.2, hr, rfl⟩⟩

/-- A call that does not free, as a function. -/
def Process.call (st : Process) : VmOp → Process
  | .alloc numPages => { st with map := (petmemAllocVspace st.map numPages).2 }
  | .pagefault faultAddr errorCode => ((st.pagefault .bump faultAddr errorCode).map Prod.snd).getD st
  | .free _ => st

/-- A condition on calls that free says nothing about the others. -/
theorem FreeMeets.of_ne_free {P : Machine → ℕ → ℕ → Prop} {st : Process} {op : VmOp}
    (hop : ∀ vaddr, op ≠ .free vaddr) : FreeMeets P st op := by
  cases op with
  | alloc n => trivial
  | pagefault a c => trivial
  | free vaddr => exact absurd rfl (hop vaddr)

theorem exec_call {C : Process → VmOp → Prop} (hC : ∀ st op, (∀ vaddr, op ≠ .free vaddr) → C st op) (st : Process)
    {ops : List VmOp} (h : ∀ vaddr, .free vaddr ∉ ops) :
    Exec (Guard C (VmStep .bump)) st ops (ops.foldl Process.call st) := by
  refine exec_foldl (g := id) (fun st op hop => ⟨hC _ _ fun vaddr he => h vaddr (he ▸ hop), ?_⟩) st
  cases op with
  | alloc n => rfl
  | pagefault a c =>
    obtain ⟨r, st', hst'⟩ := exists_pagefault_bump st a c
    exact ⟨r, by simp [Process.call, hst']⟩
  | free vaddr => exact absurd hop (h vaddr)

/-- Two pages are allocated and the first is touched; then it is mapped, and the free
of the segment unmaps it. -/
theorem vmRun_maps_live_two_pages : ∃ st st',
    Exec (Guard (FreeMeets FirstTable) (VmStep .bump)) .blank [.alloc 2, .pagefault petmemRegionStart 0] st ∧
    translate st.m petmemRegionStart ≠ none ∧ FreeMeets FirstTable st (.free petmemRegionStart) ∧
    FreeVspace st petmemRegionStart st' ∧ translate st'.m petmemRegionStart = none := by
  obtain ⟨st, hst⟩ : ∃ st, st = [VmOp.alloc 2, .pagefault petmemRegionStart 0].foldl Process.call .blank := ⟨_, rfl⟩
  have hrun : Exec (Guard (FreeMeets FirstTable) (VmStep .bump)) .blank
      [.alloc 2, .pagefault petmemRegionStart 0] st := by
    rw [hst]
    exact exec_call (fun st op => FreeMeets.of_ne_free) _ (by simp)
  have hloop : freeLoop petmemRegionStart st.map.nodes =
      some ⟨[], ⟨1, petmemRegionStart, 8192, 1, 0⟩, [⟨2, petmemRegionStart + 8192, 0x2000000000 - 8192, 0, 0⟩]⟩ := by
    rw [hst]
    decide +kernel
  have hcond : FreeMeets FirstTable st (.free petmemRegionStart) := by
    intro p hp
    have hpdp : child st.m st.m.cr3 (pmlEntry petmemRegionStart) = some 8 := by
      rw [hst]
      decide +kernel
    have hpd : child st.m 8 (pdpEntry petmemRegionStart) = some 9 := by
      rw [hst]
      decide +kernel
    rw [← Option.some.inj (hloop.symm.trans hp)]
    simp only [FirstTable, hpdp, hpd]
    decide
  have hmapped : translate st.m petmemRegionStart ≠ none := by
    rw [hst]
    decide +kernel
  obtain ⟨-, hfree, -⟩ := vmRun_maps_live .bump Kernel.bump_fresh .blank newProcess_blank
    (fun v hv => translate_blank hv) _ st hrun
  obtain ⟨st', hst', hgone, -⟩ := hfree petmemRegionStart _ hloop hcond
  exact ⟨st, st', hrun, hmapped, hcond, hst', hgone _ (by decide)⟩

/-- Two pages on both sides of a 2MB boundary are touched and freed: the second stays
mapped, and belongs to no segment. -/
theorem free_leaves_page :
    (∀ m, ∃ f, Kernel.bump.getZeroedPage m = some f ∧ f ∉ m.allocated) ∧ NewProcess .blank ∧
    (∀ v, InRegion v → translate Process.blank.m v = none) ∧ ∃ st,
    Exec (VmStep .bump) .blank [.alloc 511, .alloc 2, .pagefault (petmemRegionStart + 4096 * 511) 0,
      .pagefault (petmemRegionStart + 4096 * 512) 0, .free (petmemRegionStart + 4096 * 511)] st ∧
    ∃ v, InRegion v ∧ translate st.m v ≠ none ∧ ¬ ∃ A ∈ st.map.nodes, A.holds v := by
  have hrun : Exec (VmStep .bump) .blank _ ([VmOp.alloc 511, .alloc 2, .pagefault (petmemRegionStart + 4096 * 511) 0,
      .pagefault (petmemRegionStart + 4096 * 512) 0].foldl Process.call .blank) :=
    (exec_call (C := fun _ _ => True) (fun _ _ _ => trivial) _ (by simp)).mono fun _ _ _ h => h.2
  obtain ⟨st, hst, htest⟩ := Outcome.exists_of_returns
    (fun st => translate st.m (petmemRegionStart + 4096 * 512) ≠ none ∧
      ∀ A ∈ st.map.nodes, A.holds (petmemRegionStart + 4096 * 512) = false)
    (petmemFreeVspace 5 ([VmOp.alloc 511, .alloc 2, .pagefault (petmemRegionStart + 4096 * 511) 0,
      .pagefault (petmemRegionStart + 4096 * 512) 0].foldl Process.call .blank) (petmemRegionStart + 4096 * 511))
    (by decide +kernel)
  simp only [decide_eq_true_eq] at htest
  refine ⟨Kernel.bump_fresh, newProcess_blank, fun v hv => translate_blank hv, st, .snoc hrun ⟨5, hst⟩, _,
    by decide, htest.1, ?_⟩
  rintro ⟨A, hA, hold⟩
  rw [htest.2 A hA] at hold
  cases hold

end PetLab.VMproject
