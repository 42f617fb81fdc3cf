import PetLab.VMproject.PagePools

/-!
# Giving pages back

`petmem_free_pages` looks for the pool with the address it is given. The address is physical, as `petmem_alloc_pages`
returned it, and `base_addr` of a pool is in the direct map. The direct map lies in the upper half of the
address space, and all physical addresses lie below it: no pool is ever found, and no block ever given
back (`freePages_never`).
-/

namespace PetLab.VMproject

open PetLab.Lib BuddyMempool

/-- The loop of `petmem_free_pages` over the pools. -/
def freePagesLoop (po pageAddr order : ℕ) : List PoolState → Option (List PoolState)
  | [] => some []
  | s :: rest =>
    if pageAddr ≥ s.mp.baseAddr ∧ pageAddr < ulAdd s.mp.baseAddr (intToUl (intShl s.mp.poolOrder)) then
      (s.mp.buddyFree (va po pageAddr) order).map fun mp => ⟨mp, s.out.erase (va po pageAddr, order)⟩ :: rest
    else (freePagesLoop po pageAddr order rest).map (s :: ·)

/-- `petmem_free_pages`. -/
def petmemFreePages (po : ℕ) (pools : List PoolState) (pageAddr numPages : ℕ) : Option (List PoolState) :=
  freePagesLoop po pageAddr (pageOrder numPages) pools

variable {po : ℕ} {w : PetmemState} {pools : List PoolState}

/-- An address below all pools is in none of them. -/
theorem freePagesLoop_below {pageAddr order : ℕ} (h : ∀ s ∈ pools, pageAddr < s.mp.baseAddr) :
    freePagesLoop po pageAddr order pools = some pools := by
  induction pools with
  | nil => rfl
  | cons s rest ih =>
    have hlt := h s List.mem_cons_self
    rw [freePagesLoop, if_neg (by omega), ih fun t ht => h t (List.mem_cons_of_mem s ht), Option.map_some]

/-- If `petmem_alloc_pages` took a block, giving it back gives every pool the free blocks it had. -/
def FreeUndoes (po : ℕ) (w : PetmemState) (numPages : ℕ) : Prop :=
  ∀ paddr pools', petmemAllocPages po w.pools numPages = some (paddr, pools') → pools' ≠ w.pools →
    ∃ pools'', petmemFreePages po pools' paddr numPages = some pools'' ∧
      pools''.map (·.mp.freeBlocks) = w.pools.map (·.mp.freeBlocks)

theorem PagesInv.not_freeUndoes (h : PagesInv po w) (hpo : 2 ^ 63 < po) (hlt : po < 2 ^ 64) {n paddr : ℕ}
    {pools' : List PoolState} (halloc : petmemAllocPages po w.pools n = some (paddr, pools'))
    (htook : pools' ≠ w.pools) : ¬ FreeUndoes po w n := by
  intro hundoes
  obtain ⟨hok, -, hpaddr, hdiff⟩ := allocPagesLoop_kept (by omega) hlt (Nat.le_add_left ..) h.ok halloc
  -- no pool is found
  have hbelow : ∀ s ∈ pools', paddr < s.mp.baseAddr := by
    intro s hs
    obtain ⟨reg, -, hlow, -⟩ := (hok s hs).range_inside
    have hoff : s.range.off = s.mp.baseAddr := rfl
    omega
  obtain ⟨pools'', hfree, hsame⟩ := hundoes paddr pools' halloc htook
  rw [petmemFreePages, freePagesLoop_below hbelow] at hfree
  obtain rfl := Option.some.inj hfree
  exact hdiff.elim htook fun hne => hne hsame

/-- **Giving pages back never undoes an allocation**: whatever the pools are, when a block was taken it is not
given back. -/
theorem freePages_never (hpo : 2 ^ 63 < po) (hlt : po < 2 ^ 64) {ops : List PageOp} (hrun : PageRuns po ops w)
    {n paddr : ℕ} {pools' : List PoolState} (halloc : petmemAllocPages po w.pools n = some (paddr, pools'))
    (htook : pools' ≠ w.pools) : ¬ FreeUndoes po w n :=
  (pagesInv_of_run (by omega) hlt hrun).not_freeUndoes hpo hlt halloc htook

/-- From the one page that was added, a page is taken. -/
theorem exists_take_onePage : ∃ w paddr pools', PageRuns 0xffff880000000000 [.add ⟨id, id⟩ id ⟨0x100000, 1⟩] w ∧
    petmemAllocPages 0xffff880000000000 w.pools 1 = some (paddr, pools') ∧ pools' ≠ w.pools := by
  obtain ⟨w, hrun, hserves, hall⟩ := exists_run_onePage
  have hk : pageOrder 1 = 12 := by decide
  have hinv := pagesInv_of_run (by decide) (by decide) hrun
  rcases allocPagesLoop_spec (by decide) (by decide) (le_refl 12) hinv.ok with
    ⟨-, s, -, a, mp', pools', hcall, -, -, hmem⟩ | ⟨hnot, -⟩
  · have hcall₁ : petmemAllocPages 0xffff880000000000 w.pools 1 = allocPagesLoop 0xffff880000000000 12 w.pools := by
      rw [petmemAllocPages, hk]
    refine ⟨w, _, pools', hrun, hcall₁.trans hcall, fun heq => ?_⟩
    exact absurd (hall _ (heq ▸ hmem)).2 (by simp)
  · exact absurd hserves hnot

theorem freePages_never_onePage : ∃ w, PageRuns 0xffff880000000000 [.add ⟨id, id⟩ id ⟨0x100000, 1⟩] w ∧
    ¬ FreeUndoes 0xffff880000000000 w 1 := by
  obtain ⟨w, paddr, pools', hrun, halloc, htook⟩ := exists_take_onePage
  exact ⟨w, hrun, freePages_never (by decide) (by decide) hrun halloc htook⟩

/-- The page that was taken is lost. -/
theorem freePages_leaks_page : ∃ w paddr pools', PageRuns 0xffff880000000000 [.add ⟨id, id⟩ id ⟨0x100000, 1⟩] w ∧
    petmemAllocPages 0xffff880000000000 w.pools 1 = some (paddr, pools') ∧ pools' ≠ w.pools ∧
    ¬ FreeUndoes 0xffff880000000000 w 1 := by
  obtain ⟨w, paddr, pools', hrun, halloc, htook⟩ := exists_take_onePage
  have hinv := pagesInv_of_run (by decide) (by decide) hrun
  exact ⟨w, paddr, pools', hrun, halloc, htook, hinv.not_freeUndoes (by decide) (by decide) halloc htook⟩

end PetLab.VMproject
