import Mathlib.Data.Nat.Log
import PetLab.VMproject.AddMemory

/-!
# Pages from several pools

`petmem_alloc_pages` asks the pools of `petmem_pool_list`, one after another, for a block that is large enough, and
takes the first answer that is not `0`. An answer is a physical address: `__pa` of what `buddy_alloc` returns.

Two things go wrong. `buddy_alloc` does not return `NULL` when the request is larger than the pool, it stops
the machine; and `NULL` is not `0` any more after `__pa`. So the first pool decides, and a pool further on is
asked only when the block is the one at physical address `0`, which is lost. What the caller expects is met if and
only if there is no pool, or the first pool is large enough and has a block for the request (`allocPages_meets_iff`).

## The model

A pool comes with the blocks of it that are outstanding. `get_order` is the least `k` such that `2 ^ k` pages are
enough. Pools are added by `ADD_MEMORY`, newest first; memory is given once, and with a number of pages for which
the pools lie in it (`Proper`).
-/

namespace PetLab.VMproject

open PetLab.Lib BuddyMempool

/-! ### The calls -/

/-- `get_order`. -/
def getOrder (size : ℕ) : ℕ := Nat.clog 2 size - 12

/-- `get_order(num_pages * PAGE_SIZE) + PAGE_SHIFT`. -/
def pageOrder (numPages : ℕ) : ℕ := getOrder (numPages * 4096 % 2 ^ 64) + 12

/-- The loop of `petmem_alloc_pages` over the pools: `paddr` and the pools. -/
def allocPagesLoop (po order : ℕ) : List PoolState → Option (ℕ × List PoolState)
  | [] => some (0, [])
  | s :: rest =>
    (s.mp.buddyAlloc order).bind fun r =>
      let s' : PoolState := ⟨r.2, if r.1 = 0 then s.out else (r.1, order) :: s.out⟩
      if pa po r.1 ≠ 0 then some (pa po r.1, s' :: rest)
      else (allocPagesLoop po order rest).map fun t => (t.1, s' :: t.2)

/-- `petmem_alloc_pages`. -/
def petmemAllocPages (po : ℕ) (pools : List PoolState) (numPages : ℕ) : Option (ℕ × List PoolState) :=
  allocPagesLoop po (pageOrder numPages) pools

/-! ### The system -/

/-- The pools, and the memory that was given. -/
structure PetmemState where
  pools : List PoolState
  ranges : List MemoryRange

/-- What happens to the pools. -/
inductive PageOp where
  /-- `ADD_MEMORY`, with what the memory holds. -/
  | add (links : Links ListHead) (order : ℕ → ℕ) (reg : MemoryRange)
  /-- `petmem_alloc_pages(numPages)`. -/
  | alloc (numPages : ℕ)
  /-- The users of the pool at place `i` write. -/
  | write (i : ℕ) (links : Links ListHead) (order : ℕ → ℕ)

/-- One operation. -/
def PageStep (po : ℕ) (w : PetmemState) : PageOp → PetmemState → Prop
  | .add links order reg, w' => ∃ new, addMemory links order po reg (w.pools.map PoolState.mp) =
      some (new ++ w.pools.map PoolState.mp) ∧ w' = ⟨new.map (⟨·, []⟩) ++ w.pools, reg :: w.ranges⟩
  | .alloc numPages, w' => ∃ paddr pools, petmemAllocPages po w.pools numPages = some (paddr, pools) ∧
      w' = ⟨pools, w.ranges⟩
  | .write i links order, w' => ∃ s s', w.pools[i]? = some s ∧ s.Permitted (.write links order) ∧
      s.step (.write links order) = some s' ∧ w' = ⟨w.pools.set i s', w.ranges⟩

/-- Memory is given once, its addresses do not wrap around, and of the number of pages, bit `31` is not used with
lower ones. -/
structure Proper (po : ℕ) (ranges : List MemoryRange) (reg : MemoryRange) : Prop where
  fits : reg.baseAddr + po + 4096 * reg.pages ≤ 2 ^ 64
  small : reg.pages % 2 ^ 32 ≤ 2 ^ 31
  apart : ∀ reg' ∈ ranges, reg.baseAddr + 4096 * reg.pages ≤ reg'.baseAddr ∨
    reg'.baseAddr + 4096 * reg'.pages ≤ reg.baseAddr

/-- Requests for memory are proper. -/
def PageOp.Proper (po : ℕ) (w : PetmemState) : PageOp → Prop
  | .add _ _ reg => VMproject.Proper po w.ranges reg
  | _ => True

/-- The runs from the loading of the module on. -/
def PageRuns (po : ℕ) (ops : List PageOp) (w : PetmemState) : Prop :=
  Exec (Guard (PageOp.Proper po) (PageStep po)) ⟨[], []⟩ ops w

/-- Where a pool lies. -/
def PoolState.range (s : PoolState) : Dyad := ⟨s.mp.baseAddr, s.mp.poolOrder⟩

/-- The outstanding blocks of a pool, by their addresses. -/
def PoolState.blocks (s : PoolState) : List Dyad := s.out.map fun p => ⟨p.1, max p.2 s.mp.minOrder⟩

/-! ### The invariant -/

/-- A pool in memory that was given. -/
def PoolOk (po : ℕ) (ranges : List MemoryRange) (s : PoolState) : Prop :=
  ∃ r L, r.minOrder = 12 ∧ PoolInv r s L ∧ ∃ reg ∈ ranges, reg.baseAddr + po ≤ r.base ∧
    r.base + 2 ^ r.poolOrder ≤ reg.baseAddr + po + 4096 * reg.pages ∧ reg.baseAddr + po + 4096 * reg.pages ≤ 2 ^ 64

/-- The pools lie in memory that was given, and apart. -/
structure PagesInv (po : ℕ) (w : PetmemState) : Prop where
  fits : ∀ reg ∈ w.ranges, reg.baseAddr + po + 4096 * reg.pages ≤ 2 ^ 64
  ok : ∀ s ∈ w.pools, PoolOk po w.ranges s
  apart : (w.pools.map PoolState.range).Pairwise Dyad.Apart

section

variable {po k : ℕ} {s s' : PoolState} {r : PoolRange} {L : ℕ → List ℕ} {ranges : List MemoryRange}

theorem PoolInv.range_eq (h : PoolInv r s L) : s.range = ⟨r.base, r.poolOrder⟩ := by
  rw [PoolState.range, h.shape.baseAddr, h.shape.poolOrder]

/-- An outstanding block is a block of the pool. -/
theorem PoolInv.exists_held (h : PoolInv r s L) {p : ℕ × ℕ} (hp : p ∈ s.out) :
    ∃ off, p.1 = r.base + off ∧ (⟨off, max p.2 r.minOrder⟩ : Dyad) ∈ heldOf r s.out := by
  obtain ⟨off, hoff⟩ := Nat.exists_eq_add_of_le (h.inside p hp).1
  exact ⟨off, hoff, p, hp, hoff, rfl⟩

/-- Outstanding blocks lie in the pool. -/
theorem PoolInv.block_inside (h : PoolInv r s L) {p : ℕ × ℕ} (hp : p ∈ s.out) :
    r.base ≤ p.1 ∧ p.1 + 2 ^ max p.2 r.minOrder ≤ r.base + 2 ^ r.poolOrder := by
  obtain ⟨off, hoff, hheld⟩ := h.exists_held hp
  have := h.shape.part.inside _ (.inr (.inl hheld))
  simp only [Dyad.size] at this
  omega

/-- And apart. -/
theorem PoolInv.block_apart (h : PoolInv r s L) {p q : ℕ × ℕ} (hp : p ∈ s.out) (hq : q ∈ s.out) (hne : p.1 ≠ q.1) :
    Dyad.Apart ⟨p.1, max p.2 r.minOrder⟩ ⟨q.1, max q.2 r.minOrder⟩ := by
  obtain ⟨off, hoff, hheld⟩ := h.exists_held hp
  obtain ⟨off', hoff', hheld'⟩ := h.exists_held hq
  have hapart := h.shape.part.apart _ (.inr (.inl hheld)) _ (.inr (.inl hheld')) (by
    intro he
    have := congrArg Dyad.off he
    simp only at this
    omega)
  simp only [Dyad.Apart, Dyad.size] at hapart ⊢
  omega

/-- The pool hands out the block at `a`, of order `k`, and becomes `s'`. -/
structure Gives (po : ℕ) (ranges : List MemoryRange) (s : PoolState) (k a : ℕ) (mp' : BuddyMempool) : Prop where
  call : s.mp.buddyAlloc k = some (a, mp')
  /-- It is the first block of the first list with one that is large enough. -/
  next : s.mp.Next k a
  free : ∃ b ∈ s.mp.freeBlocks, k ≤ b.order
  /-- It lies in the pool. -/
  inside : s.range.off ≤ a ∧ a + 2 ^ k ≤ s.range.off + s.range.size
  /-- It does not overlap what is outstanding. -/
  apart : ∀ c ∈ s.blocks, Dyad.Apart ⟨a, k⟩ c
  ok : PoolOk po ranges ⟨mp', (a, k) :: s.out⟩
  range_eq : PoolState.range ⟨mp', (a, k) :: s.out⟩ = s.range
  changed : mp'.freeBlocks ≠ s.mp.freeBlocks

/-- Addresses of a pool are in the direct map. -/
theorem PoolOk.range_inside (h : PoolOk po ranges s) :
    ∃ reg ∈ ranges, reg.baseAddr + po ≤ s.range.off ∧
      s.range.off + s.range.size ≤ reg.baseAddr + po + 4096 * reg.pages ∧
      reg.baseAddr + po + 4096 * reg.pages ≤ 2 ^ 64 := by
  obtain ⟨r, L, -, hinv, reg, hreg, hrest⟩ := h
  rw [hinv.range_eq]
  exact ⟨reg, hreg, hrest⟩

/-- **What `buddy_alloc` says to a request for pages**: it stops the machine, returns `NULL`, or hands out a block. -/
theorem PoolOk.alloc_cases (h : PoolOk po ranges s) (hk : 12 ≤ k) :
    (s.mp.poolOrder < k ∧ s.mp.buddyAlloc k = none) ∨
    ((∀ b ∈ s.mp.freeBlocks, b.order < k) ∧ (∀ a, ¬ s.mp.Next k a) ∧ s.mp.buddyAlloc k = some (0, s.mp)) ∨
    (k ≤ s.mp.poolOrder ∧ ∃ a mp', Gives po ranges s k a mp') := by
  obtain ⟨r, L, hmin, hinv, hreg⟩ := h
  have hmax : max k r.minOrder = k := by omega
  rw [hinv.shape.poolOrder]
  by_cases hle : k ≤ r.poolOrder
  · rcases hinv.alloc hle with ⟨hnone, hcall⟩ | ⟨hex, off, mp', L', hcall, hnext, hinv'⟩
    · rw [hmax] at hnone
      rw [hinv.freeBlocks_eq]
      refine .inr (.inl ⟨hnone, fun a hnext => ?_, hcall⟩)
      obtain ⟨off, j, -, hkj, hfree⟩ := hinv.shape.free_of_next hnext
      exact absurd (hnone _ hfree) (not_lt.mpr hkj)
    · rw [hmax] at hex hnext
      obtain ⟨hlow, hhigh⟩ := hinv'.block_inside List.mem_cons_self
      rw [hmax] at hhigh
      refine .inr (.inr ⟨hle, r.base + off, mp', hcall, hnext, ?_, ?_, fun c hc => ?_, ?_, ?_, fun heq => ?_⟩)
      · rw [hinv.freeBlocks_eq]
        exact hex
      · rw [hinv.range_eq]
        exact ⟨hlow, hhigh⟩
      · obtain ⟨p, hp, rfl⟩ := List.mem_map.mp hc
        have hne : r.base + off ≠ p.1 := by
          intro he
          have hnd := hinv'.nodup
          rw [List.map_cons, List.nodup_cons] at hnd
          exact hnd.1 (List.mem_map.mpr ⟨p, hp, he.symm⟩)
        have hapart := hinv'.block_apart List.mem_cons_self (List.mem_cons_of_mem _ hp) hne
        rw [hmax] at hapart
        rw [hinv.shape.minOrder]
        exact hapart
      · exact ⟨r, L', hmin, hinv', hreg⟩
      · rw [hinv'.range_eq, hinv.range_eq]
      · -- the block that was first on its list is not free any more
        rw [hinv.freeBlocks_eq, hinv'.freeBlocks_eq] at heq
        obtain ⟨off', j, hoff, -, hfree⟩ := hinv.shape.free_of_next hnext
        obtain rfl : off = off' := by omega
        rw [← heq] at hfree
        have hheld : (⟨off, max k r.minOrder⟩ : Dyad) ∈ heldOf r ((r.base + off, k) :: s.out) :=
          ⟨_, List.mem_cons_self, rfl, rfl⟩
        have he := hinv'.shape.part.eq_of_off (.inl hfree) (.inr (.inl hheld)) rfl
        rw [he] at hfree
        exact Set.disjoint_left.mp hinv'.shape.freeOut hfree (.inl hheld)
  · refine .inl ⟨by omega, ?_⟩
    rw [buddyAlloc, hinv.shape.poolOrder, if_pos (by omega)]

theorem Gives.address {a : ℕ} {mp' : BuddyMempool} (h : Gives po ranges s k a mp') :
    po ≤ a ∧ a < 2 ^ 64 ∧ pa po a = a - po ∧ va po (a - po) = a := by
  obtain ⟨reg, -, hlow, hhigh, hend⟩ := h.ok.range_inside
  rw [h.range_eq] at hlow hhigh
  have hin := h.inside
  have hpos := Nat.two_pow_pos k
  have h₁ : po ≤ a := by omega
  have h₂ : a < 2 ^ 64 := by omega
  refine ⟨h₁, h₂, ?_, ?_⟩
  · unfold pa ulSub
    omega
  · unfold va ulAdd
    omega

/-! ### The loop over the pools -/

/-- Of the pools, the first is large enough and has a block for the request; if that is the block at physical
address `0`, the next ones are asked as well. -/
def Serves (po k : ℕ) : List PoolState → Prop
  | [] => False
  | s :: rest => k ≤ s.mp.poolOrder ∧ ∃ a, s.mp.Next k a ∧ (a = po → Serves po k rest)

variable {rest pools : List PoolState}

theorem allocPagesLoop_none (h : s.mp.buddyAlloc k = none) : allocPagesLoop po k (s :: rest) = none := by
  rw [allocPagesLoop, h, Option.bind_none]

/-- `NULL` is not `0` any more. -/
theorem allocPagesLoop_null (hpo : 0 < po) (hlt : po < 2 ^ 64) (h : s.mp.buddyAlloc k = some (0, s.mp)) :
    allocPagesLoop po k (s :: rest) = some (2 ^ 64 - po, s :: rest) := by
  have hpa : pa po 0 = 2 ^ 64 - po := by
    unfold pa ulSub
    omega
  rw [allocPagesLoop, h, Option.bind_some]
  simp only [hpa, if_true]
  rw [if_pos (by omega)]

theorem allocPagesLoop_gives {a : ℕ} {mp' : BuddyMempool} (hpo : 0 < po) (h : Gives po ranges s k a mp') :
    allocPagesLoop po k (s :: rest) =
      if a = po then (allocPagesLoop po k rest).map fun t => (t.1, ⟨mp', (a, k) :: s.out⟩ :: t.2)
      else some (a - po, ⟨mp', (a, k) :: s.out⟩ :: rest) := by
  obtain ⟨hlow, -, hpa, -⟩ := h.address
  rw [allocPagesLoop, h.call, Option.bind_some]
  simp only [hpa, if_neg (by omega : a ≠ 0)]
  by_cases ha : a = po
  · rw [if_neg (by omega), if_pos ha]
  · rw [if_pos (by omega), if_neg ha]

theorem Gives.serves_iff {a : ℕ} {mp' : BuddyMempool} (h : Gives po ranges s k a mp') (hk : k ≤ s.mp.poolOrder) :
    Serves po k (s :: rest) ↔ (a = po → Serves po k rest) := by
  constructor
  · rintro ⟨-, a', hnext, himp⟩ ha
    exact himp ((h.next.unique hnext) ▸ ha)
  · exact fun himp => ⟨hk, a, h.next, himp⟩

/-- **What the loop does, when the pools serve the request and when they do not.** -/
theorem allocPagesLoop_spec (hpo : 0 < po) (hlt : po < 2 ^ 64) (hk : 12 ≤ k) (hok : ∀ s ∈ pools, PoolOk po ranges s) :
    (Serves po k pools ∧ ∃ s ∈ pools, ∃ a mp' pools', allocPagesLoop po k pools = some (a - po, pools') ∧ po < a ∧
      Gives po ranges s k a mp' ∧ ⟨mp', (a, k) :: s.out⟩ ∈ pools') ∨
    (¬ Serves po k pools ∧ (allocPagesLoop po k pools = none ∨
      (∃ pools', allocPagesLoop po k pools = some (2 ^ 64 - po, pools')) ∨
      (∃ pools', allocPagesLoop po k pools = some (0, pools') ∧
        (pools = [] ∨ pools' ≠ pools ∧ ∃ s ∈ pools, ∃ b ∈ s.mp.freeBlocks, k ≤ b.order)))) := by
  induction pools with
  | nil => exact .inr ⟨id, .inr (.inr ⟨[], rfl, .inl rfl⟩)⟩
  | cons s rest ih =>
    have hrest : ∀ t ∈ rest, PoolOk po ranges t := fun t ht => hok t (List.mem_cons_of_mem s ht)
    rcases (hok s List.mem_cons_self).alloc_cases hk with ⟨hsmall, hcall⟩ | ⟨-, hnone, hcall⟩ | ⟨hle, a, mp', hgives⟩
    · exact .inr ⟨fun hs => absurd hs.1 (by omega), .inl (allocPagesLoop_none hcall)⟩
    · refine .inr ⟨fun hs => ?_, .inr (.inl ⟨_, allocPagesLoop_null hpo hlt hcall⟩)⟩
      obtain ⟨-, a, hnext, -⟩ := hs
      exact hnone a hnext
    · rw [hgives.serves_iff hle, allocPagesLoop_gives hpo hgives]
      by_cases ha : a = po
      · -- the block at physical address `0` is lost, and the other pools decide
        have hchanged : ∀ pools' : List PoolState, ⟨mp', (a, k) :: s.out⟩ :: pools' ≠ s :: rest := by
          intro pools' he
          have := congrArg PoolState.mp (List.cons.inj he).1
          exact hgives.changed (by rw [← this])
        rw [if_pos ha]
        rcases ih hrest with ⟨hserves, t, ht, a', mp₁, pools', hcall, ha', hgives', hmem⟩ |
          ⟨hnot, hcall | ⟨pools', hcall⟩ | ⟨pools', hcall, -⟩⟩
        · rw [hcall, Option.map_some]
          exact .inl ⟨fun _ => hserves, t, List.mem_cons_of_mem s ht, a', mp₁, _, rfl, ha', hgives',
            List.mem_cons_of_mem _ hmem⟩
        · rw [hcall, Option.map_none]
          exact .inr ⟨fun himp => hnot (himp ha), .inl rfl⟩
        · rw [hcall, Option.map_some]
          exact .inr ⟨fun himp => hnot (himp ha), .inr (.inl ⟨_, rfl⟩)⟩
        · rw [hcall, Option.map_some]
          refine .inr ⟨fun himp => hnot (himp ha), .inr (.inr ⟨_, rfl, .inr ⟨hchanged _, ?_⟩⟩)⟩
          exact ⟨s, List.mem_cons_self, hgives.free⟩
      · rw [if_neg ha]
        have := hgives.address.1
        exact .inl ⟨fun he => absurd he ha, s, List.mem_cons_self, a, mp', _, rfl, by omega, hgives, List.mem_cons_self⟩

/-- What every call keeps, and that a call that changes something takes a block. -/
theorem allocPagesLoop_kept (hpo : 0 < po) (hlt : po < 2 ^ 64) (hk : 12 ≤ k) (hok : ∀ s ∈ pools, PoolOk po ranges s)
    {paddr : ℕ} {pools' : List PoolState} (h : allocPagesLoop po k pools = some (paddr, pools')) :
    (∀ s ∈ pools', PoolOk po ranges s) ∧ pools'.map PoolState.range = pools.map PoolState.range ∧
      paddr ≤ 2 ^ 64 - po ∧
      (pools' = pools ∨ pools'.map (·.mp.freeBlocks) ≠ pools.map (·.mp.freeBlocks)) := by
  induction pools generalizing pools' with
  | nil =>
    obtain ⟨rfl, rfl⟩ := Prod.mk.inj (Option.some.inj h)
    exact ⟨hok, rfl, Nat.zero_le _, .inl rfl⟩
  | cons s rest ih =>
    have hrest : ∀ t ∈ rest, PoolOk po ranges t := fun t ht => hok t (List.mem_cons_of_mem s ht)
    rcases (hok s List.mem_cons_self).alloc_cases hk with ⟨-, hcall⟩ | ⟨-, -, hcall⟩ | ⟨-, a, mp', hgives⟩
    · rw [allocPagesLoop_none hcall] at h
      exact absurd h (by simp)
    · rw [allocPagesLoop_null hpo hlt hcall] at h
      obtain ⟨rfl, rfl⟩ := Prod.mk.inj (Option.some.inj h)
      exact ⟨hok, rfl, le_rfl, .inl rfl⟩
    · rw [allocPagesLoop_gives hpo hgives] at h
      have hdiff : ∀ t : List PoolState, (⟨mp', (a, k) :: s.out⟩ :: t).map (·.mp.freeBlocks) ≠
          (s :: rest).map (·.mp.freeBlocks) := fun t he => hgives.changed (List.cons.inj he).1
      by_cases ha : a = po
      · rw [if_pos ha] at h
        obtain ⟨⟨paddr', pools''⟩, hcall, he⟩ := Option.map_eq_some_iff.mp h
        obtain ⟨rfl, rfl⟩ := Prod.mk.inj he
        obtain ⟨hok', hrange, hle, -⟩ := ih hrest hcall
        refine ⟨List.forall_mem_cons.mpr ⟨hgives.ok, hok'⟩, ?_, hle, .inr (hdiff _)⟩
        rw [List.map_cons, List.map_cons, hgives.range_eq, hrange]
      · rw [if_neg ha] at h
        obtain ⟨rfl, rfl⟩ := Prod.mk.inj (Option.some.inj h)
        have := hgives.address.2.1
        refine ⟨List.forall_mem_cons.mpr ⟨hgives.ok, hrest⟩, ?_, by omega, .inr (hdiff _)⟩
        rw [List.map_cons, List.map_cons, hgives.range_eq]

/-! ### Runs -/

variable {w w' : PetmemState}

theorem PoolOk.mono {ranges' : List MemoryRange} (h : PoolOk po ranges s) (hsub : ranges ⊆ ranges') :
    PoolOk po ranges' s := by
  obtain ⟨r, L, hmin, hinv, reg, hreg, hrest⟩ := h
  exact ⟨r, L, hmin, hinv, reg, hsub hreg, hrest⟩

theorem PagesInv.add (hpo : 0 < po) (h : PagesInv po w) {links : Links ListHead} {order : ℕ → ℕ} {reg : MemoryRange}
    (hreg : Proper po w.ranges reg) (hstep : PageStep po w (.add links order reg) w') : PagesInv po w' := by
  obtain ⟨new, hadd, rfl⟩ := hstep
  obtain ⟨new', hadd', hcover, hnew⟩ := addMemory_spec links order hpo hreg.fits hreg.small (w.pools.map PoolState.mp)
  obtain rfl : new = new' := List.append_cancel_right (Option.some.inj (hadd.symm.trans hadd'))
  -- the new pools lie in the new range
  have hinside : ∀ mp ∈ new, reg.baseAddr + po ≤ mp.baseAddr ∧
      mp.baseAddr + 2 ^ mp.poolOrder ≤ reg.baseAddr + po + 4096 * reg.pages := by
    intro mp hmp
    have hpos := Nat.two_pow_pos mp.poolOrder
    have hin := hcover.inside hmp
    have hle := Nat.mod_le reg.pages (2 ^ 32)
    have hva := va_eq hreg.fits (by omega)
    omega
  refine ⟨List.forall_mem_cons.mpr ⟨hreg.fits, h.fits⟩, fun s hs => ?_, ?_⟩
  · rcases List.mem_append.mp hs with hs | hs
    · obtain ⟨mp, hmp, rfl⟩ := List.mem_map.mp hs
      obtain ⟨r, L, hmin, hinv⟩ := hnew mp hmp
      have hin := hinside mp hmp
      rw [hinv.shape.baseAddr, hinv.shape.poolOrder] at hin
      exact ⟨r, L, hmin, hinv, reg, List.mem_cons_self, hin.1, hin.2, hreg.fits⟩
    · exact (h.ok s hs).mono (List.subset_cons_self reg w.ranges)
  · rw [List.map_append, List.pairwise_append, List.map_map, List.pairwise_map]
    refine ⟨hcover.apart, h.apart, fun b hb c hc => ?_⟩
    obtain ⟨mp, hmp, rfl⟩ := List.mem_map.mp hb
    obtain ⟨s, hs, rfl⟩ := List.mem_map.mp hc
    obtain ⟨reg', hreg', hlow, hhigh, -⟩ := (h.ok s hs).range_inside
    have hin := hinside mp hmp
    have happart := hreg.apart reg' hreg'
    simp only [Dyad.Apart, Dyad.size, Function.comp, PoolState.range] at hlow hhigh ⊢
    omega

theorem PagesInv.alloc (hpo : 0 < po) (hlt : po < 2 ^ 64) (h : PagesInv po w) {n : ℕ}
    (hstep : PageStep po w (.alloc n) w') : PagesInv po w' := by
  obtain ⟨paddr, pools, hcall, rfl⟩ := hstep
  obtain ⟨hok, hrange, -⟩ := allocPagesLoop_kept hpo hlt (Nat.le_add_left ..) h.ok hcall
  refine ⟨h.fits, hok, ?_⟩
  simp only
  rw [hrange]
  exact h.apart

theorem PagesInv.write (h : PagesInv po w) {i : ℕ} {links : Links ListHead} {order : ℕ → ℕ}
    (hstep : PageStep po w (.write i links order) w') : PagesInv po w' := by
  obtain ⟨s, s', hs, hperm, hs', rfl⟩ := hstep
  have hstate := Option.some.inj hs'
  have hrange : s'.range = s.range := by
    rw [← hstate]
    rfl
  refine ⟨h.fits, fun t ht => ?_, ?_⟩
  · rcases List.mem_or_eq_of_mem_set ht with ht | rfl
    · exact h.ok t ht
    · obtain ⟨r, L, hmin, hinv, hreg⟩ := h.ok s (List.mem_of_getElem? hs)
      exact ⟨r, L, hmin, hstate ▸ hinv.write hperm, hreg⟩
  · have hi : i < w.pools.length := (List.getElem?_eq_some_iff.mp hs).1
    have hsame : (w.pools.set i s').map PoolState.range = w.pools.map PoolState.range := by
      rw [List.map_set, hrange]
      refine List.ext_getElem? fun j => ?_
      by_cases hij : i = j
      · subst hij
        rw [List.getElem?_set_self (by simpa using hi), List.getElem?_map, hs, Option.map_some]
      · rw [List.getElem?_set_ne hij]
    simp only
    rw [hsame]
    exact h.apart

/-- **The run lemma.** -/
theorem pagesInv_of_run (hpo : 0 < po) (hlt : po < 2 ^ 64) {ops : List PageOp} (h : PageRuns po ops w) :
    PagesInv po w := by
  refine h.inv (I := PagesInv po) ⟨by simp, by simp, by simp⟩ ?_
  rintro w op w' hinv ⟨hproper, hstep⟩
  cases op with
  | add links order reg => exact hinv.add hpo hproper hstep
  | alloc n => exact hinv.alloc hpo hlt hstep
  | write i links order => exact hinv.write hstep

/-! ### What the caller expects -/

/-- Some pool has a free block of that many pages. -/
def HasPages (numPages : ℕ) (pools : List PoolState) : Prop :=
  ∃ s ∈ pools, ∃ b ∈ s.mp.freeBlocks, 4096 * numPages ≤ b.size

/-- The block at `paddr` was handed out: it has the pages asked for, lies in memory that was given, and does not
overlap what was outstanding. -/
def TakesBlock (po : ℕ) (w : PetmemState) (numPages paddr : ℕ) (pools' : List PoolState) : Prop :=
  ∃ order, 4096 * numPages ≤ 2 ^ order ∧ (∃ s ∈ pools', (va po paddr, order) ∈ s.out) ∧
    (∃ reg ∈ w.ranges, reg.baseAddr ≤ paddr ∧ paddr + 2 ^ order ≤ reg.baseAddr + 4096 * reg.pages) ∧
    ∀ s ∈ w.pools, ∀ b ∈ s.blocks, Dyad.Apart ⟨va po paddr, order⟩ b

/-- The machine is not stopped; the address is not `0` if and only if there is a block, and it is that of such a
block; if it is `0`, no pool has changed. -/
def AllocPagesMeets (po : ℕ) (w : PetmemState) (numPages : ℕ) : Prop :=
  ∃ paddr pools', petmemAllocPages po w.pools numPages = some (paddr, pools') ∧
    (paddr ≠ 0 ↔ HasPages numPages w.pools) ∧ (paddr ≠ 0 → TakesBlock po w numPages paddr pools') ∧
    (paddr = 0 → pools' = w.pools)

theorem getOrder_le_iff {size k : ℕ} : getOrder size ≤ k ↔ size ≤ 2 ^ (k + 12) := by
  rw [getOrder, ← Nat.clog_le_iff_le_pow (by decide : 1 < 2)]
  omega

/-- A block of the order asked for has the pages. -/
theorem le_two_pow_pageOrder {n : ℕ} (hn : n < 2 ^ 52) : 4096 * n ≤ 2 ^ pageOrder n := by
  have hmod : n * 4096 % 2 ^ 64 = 4096 * n := by omega
  have := getOrder_le_iff.mp (le_refl (getOrder (n * 4096 % 2 ^ 64)))
  rw [pageOrder]
  rw [hmod] at this ⊢
  exact this

theorem PoolOk.freeBlock_lt (h : PoolOk po ranges s) {b : Dyad} (hb : b ∈ s.mp.freeBlocks) : b.size < 2 ^ 64 := by
  obtain ⟨r, L, -, hinv, -⟩ := h
  rw [hinv.freeBlocks_eq] at hb
  exact Nat.pow_lt_pow_right (by decide) ((hinv.shape.part.order_le (.inl hb)).trans_lt r.poolOrder_lt)

/-- Outstanding blocks lie in their pools. -/
theorem PoolOk.block_inside (h : PoolOk po ranges s) {b : Dyad} (hb : b ∈ s.blocks) :
    s.range.off ≤ b.off ∧ b.off + b.size ≤ s.range.off + s.range.size := by
  obtain ⟨r, L, -, hinv, -⟩ := h
  obtain ⟨p, hp, rfl⟩ := List.mem_map.mp hb
  rw [hinv.range_eq, hinv.shape.minOrder]
  exact hinv.block_inside hp

theorem PagesInv.range_apart (h : PagesInv po w) {t : PoolState} (hs : s ∈ w.pools) (ht : t ∈ w.pools) (hne : s ≠ t) :
    s.range.Apart t.range := by
  have hsymm : Std.Symm fun s t : PoolState => s.range.Apart t.range := ⟨fun _ _ hab => hab.symm⟩
  exact (List.pairwise_map.mp h.apart).forall hs ht hne

/-- A block that a pool hands out is what the caller expects. -/
theorem PagesInv.takesBlock (h : PagesInv po w) (hs : s ∈ w.pools) {n a : ℕ} {mp' : BuddyMempool}
    (hgives : Gives po w.ranges s (pageOrder n) a mp') (hn : n < 2 ^ 52) {pools' : List PoolState}
    (hmem : ⟨mp', (a, pageOrder n) :: s.out⟩ ∈ pools') : TakesBlock po w n (a - po) pools' := by
  obtain ⟨hlow, -, -, hva⟩ := hgives.address
  have hin := hgives.inside
  refine ⟨pageOrder n, le_two_pow_pageOrder hn, ⟨_, hmem, ?_⟩, ?_, fun t ht b hb => ?_⟩
  · rw [hva]
    exact List.mem_cons_self
  · obtain ⟨reg, hreg, h₁, h₂, -⟩ := (h.ok s hs).range_inside
    exact ⟨reg, hreg, by omega, by omega⟩
  · rw [hva]
    by_cases hst : s = t
    · exact hgives.apart b (hst ▸ hb)
    · have hapart := h.range_apart hs ht hst
      have hbin := (h.ok t ht).block_inside hb
      unfold Dyad.Apart at hapart ⊢
      simp only [Dyad.size] at hapart hbin hin ⊢
      omega

theorem PagesInv.meets_iff (h : PagesInv po w) (hpo : 0 < po) (hlt : po < 2 ^ 64) (n : ℕ) :
    AllocPagesMeets po w n ↔ w.pools = [] ∨ n < 2 ^ 52 ∧ Serves po (pageOrder n) w.pools := by
  have hk : 12 ≤ pageOrder n := Nat.le_add_left ..
  rcases allocPagesLoop_spec hpo hlt hk h.ok with ⟨hserves, s, hs, a, mp', pools', hcall, ha, hgives, hmem⟩ |
    ⟨hnot, hfail⟩
  · have hne : w.pools ≠ [] := List.ne_nil_of_mem hs
    constructor
    · rintro ⟨paddr, pools₁, hcall₁, hiff, -, -⟩
      obtain ⟨rfl, rfl⟩ := Prod.mk.inj (Option.some.inj (hcall₁.symm.trans hcall))
      refine .inr ⟨?_, hserves⟩
      -- so many pages do not fit into the address space
      obtain ⟨t, ht, b, hb, hsize⟩ := hiff.mp (by omega)
      have := (h.ok t ht).freeBlock_lt hb
      omega
    · rintro (hnil | ⟨hn, -⟩)
      · exact absurd hnil hne
      · refine ⟨a - po, pools', hcall, iff_of_true (by omega) ?_, fun _ => h.takesBlock hs hgives hn hmem,
          fun h0 => absurd h0 (by omega)⟩
        obtain ⟨b, hb, hle⟩ := hgives.free
        exact ⟨s, hs, b, hb, (le_two_pow_pageOrder hn).trans (Nat.pow_le_pow_right (by decide) hle)⟩
  · constructor
    · rintro ⟨paddr, pools₁, hcall₁, -, htakes, hsame⟩
      unfold petmemAllocPages at hcall₁
      rcases hfail with hcall | ⟨pools', hcall⟩ | ⟨pools', hcall, hnil | ⟨hdiff, -⟩⟩
      · exact absurd (hcall₁.symm.trans hcall) (by simp)
      · -- what `__pa` makes of `NULL` is not an address in memory that was given
        obtain ⟨rfl, rfl⟩ := Prod.mk.inj (Option.some.inj (hcall₁.symm.trans hcall))
        obtain ⟨order, -, -, ⟨reg, hreg, -, hhigh⟩, -⟩ := htakes (by omega)
        have hfits := h.fits reg hreg
        have hpos := Nat.two_pow_pos order
        omega
      · exact .inl hnil
      · obtain ⟨rfl, rfl⟩ := Prod.mk.inj (Option.some.inj (hcall₁.symm.trans hcall))
        exact absurd (hsame rfl) hdiff
    · rintro (hnil | ⟨-, hserves⟩)
      · refine ⟨0, [], ?_, ?_, fun h0 => absurd rfl h0, fun _ => hnil.symm⟩
        · rw [petmemAllocPages, hnil]
          rfl
        · simp [HasPages, hnil]
      · exact absurd hserves hnot

/-- **Pages are allocated as expected, if and only if** there is no pool, or the request fits into the address
space and the first pool is large enough and has a block for it (with the block at physical address `0` skipped). -/
theorem allocPages_meets_iff (hpo : 0 < po) (hlt : po < 2 ^ 64) {ops : List PageOp} (hrun : PageRuns po ops w) (n : ℕ) :
    AllocPagesMeets po w n ↔ w.pools = [] ∨ n < 2 ^ 52 ∧ Serves po (pageOrder n) w.pools :=
  (pagesInv_of_run hpo hlt hrun).meets_iff hpo hlt n

/-- One page at 1 MiB is added: the pools are one free page each, and serve a request for a page. -/
theorem exists_run_onePage : ∃ w, PageRuns 0xffff880000000000 [.add ⟨id, id⟩ id ⟨0x100000, 1⟩] w ∧
    Serves 0xffff880000000000 12 w.pools ∧ ∀ s ∈ w.pools, s.mp.poolOrder = 12 ∧ s.out = [] := by
  have hproper : Proper 0xffff880000000000 [] ⟨0x100000, 1⟩ := ⟨by decide, by decide, by simp⟩
  obtain ⟨new, hadd, hcover, hnew⟩ := addMemory_spec ⟨id, id⟩ id (by decide) hproper.fits hproper.small []
  have hva : va 0xffff880000000000 0x100000 = 0xffff880000100000 := by decide
  simp only [hva] at hcover
  have hplace : ∀ mp ∈ new, mp.poolOrder = 12 ∧ 0xffff880000000000 < mp.baseAddr := by
    intro mp hmp
    have hin := hcover.inside hmp
    obtain ⟨r, L, hmin, hinv⟩ := hnew mp hmp
    have hge : 12 ≤ mp.poolOrder := by
      rw [hinv.shape.poolOrder, ← hmin]
      exact r.minLe
    have hle : 2 ^ mp.poolOrder ≤ 2 ^ 12 := by omega
    exact ⟨le_antisymm ((Nat.pow_le_pow_iff_right (by decide)).mp hle) hge, by omega⟩
  have hrun : PageRuns 0xffff880000000000 [.add ⟨id, id⟩ id ⟨0x100000, 1⟩] ⟨new.map (⟨·, []⟩) ++ [], [⟨0x100000, 1⟩]⟩ :=
    .single ⟨hproper, new, hadd, rfl⟩
  refine ⟨_, hrun, ?_, fun s hs => ?_⟩
  · have hinv := pagesInv_of_run (by decide) (by decide) hrun
    cases new with
    | nil =>
      obtain ⟨mp, hmp, -⟩ := (hcover.cover 0xffff880000100000).mpr (by decide)
      exact absurd hmp List.not_mem_nil
    | cons mp rest =>
      -- the first pool has the whole of itself to give
      obtain ⟨horder, hbase⟩ := hplace mp List.mem_cons_self
      rcases (hinv.ok ⟨mp, []⟩ List.mem_cons_self).alloc_cases (le_refl 12) with ⟨hsmall, -⟩ | ⟨hnone, -⟩ |
        ⟨hle, a, mp', hgives⟩
      · simp only at hsmall
        omega
      · have := hnone ⟨0, mp.poolOrder⟩ (hcover.whole mp List.mem_cons_self ▸ rfl)
        simp only at this
        omega
      · refine (hgives.serves_iff hle).mpr fun ha => ?_
        have := hgives.inside.1
        simp only [PoolState.range] at this
        omega
  · simp only [List.append_nil, List.mem_map] at hs
    obtain ⟨mp, hmp, rfl⟩ := hs
    exact ⟨(hplace mp hmp).1, rfl⟩

/-- The page is handed out. -/
theorem allocPages_meets_onePage : ∃ w, PageRuns 0xffff880000000000 [.add ⟨id, id⟩ id ⟨0x100000, 1⟩] w ∧
    w.pools ≠ [] ∧ AllocPagesMeets 0xffff880000000000 w 1 := by
  obtain ⟨w, hrun, hserves, -⟩ := exists_run_onePage
  have hk : pageOrder 1 = 12 := by decide
  refine ⟨w, hrun, fun hnil => ?_, (allocPages_meets_iff (by decide) (by decide) hrun 1).mpr (.inr ⟨by decide, ?_⟩)⟩
  · rw [hnil] at hserves
    exact hserves
  · rw [hk]
    exact hserves

/-- Two pages are asked of a pool of one, and the machine stops. -/
theorem allocPages_stops_twoPages : ∃ w, PageRuns 0xffff880000000000 [.add ⟨id, id⟩ id ⟨0x100000, 1⟩] w ∧
    ¬ AllocPagesMeets 0xffff880000000000 w 2 := by
  obtain ⟨w, hrun, hserves, hall⟩ := exists_run_onePage
  refine ⟨w, hrun, fun hmeets => ?_⟩
  have hinv := pagesInv_of_run (by decide) (by decide) hrun
  have hk : pageOrder 2 = 13 := by decide
  cases hpools : w.pools with
  | nil =>
    rw [hpools] at hserves
    exact hserves
  | cons s rest =>
    rcases (hinv.meets_iff (by decide) (by decide) 2).mp hmeets with hnil | ⟨-, hserves'⟩
    · exact absurd (hpools.symm.trans hnil) (by simp)
    · rw [hpools, hk] at hserves'
      have horder := (hall s (hpools ▸ List.mem_cons_self)).1
      have := hserves'.1
      omega

end

end PetLab.VMproject
