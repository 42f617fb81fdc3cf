import PetLab.Lib.Run
import PetLab.VMproject.BuddyInv

/-!
# Runs of a pool

A pool from `ADD_MEMORY` on: `buddy_init`, `buddy_free` of the whole pool, and then calls of
`buddy_alloc` and `buddy_free` in any order, with users who write what they like
into the blocks they have. A block is given back with the order it was asked for.

In every state of every run the blocks on the lists and the outstanding blocks make up the pool, and no
`BUG_ON` fires (`poolRun_partition`). Free blocks are put together as far as possible, so that they
follow from the outstanding ones: the order in which blocks are given back does not matter (`poolRun_coalesced`).
-/

namespace PetLab.VMproject

open PetLab.Lib BuddyMempool

/-! ### The system -/

/-- A pool and what its users have: the address and the order of each request that is outstanding. -/
structure PoolState where
  mp : BuddyMempool
  out : List (ℕ × ℕ)

/-- What happens to a pool. -/
inductive PoolOp where
  /-- `buddy_alloc(mp, order)`. -/
  | alloc (order : ℕ)
  /-- `buddy_free(mp, addr, order)`. -/
  | free (addr order : ℕ)
  /-- The users write to memory, and headers look like this afterwards. -/
  | write (links : Links ListHead) (order : ℕ → ℕ)

namespace PoolState

/-- The address `a` is in an outstanding block. -/
def Owned (s : PoolState) (a : ℕ) : Prop := ∃ p ∈ s.out, p.1 ≤ a ∧ a < p.1 + 2 ^ max p.2 s.mp.minOrder

/-- What the users may do: ask for no more than the pool, give back what they have, write where they may. -/
def Permitted (s : PoolState) : PoolOp → Prop
  | .alloc order => order ≤ s.mp.poolOrder
  | .free addr order => (addr, order) ∈ s.out
  | .write links order => (∀ a, ¬ s.Owned a → order a = s.mp.order a) ∧
      ∀ x, (∀ a, x = .link a → ¬ s.Owned a) → links.next x = s.mp.links.next x ∧ links.prev x = s.mp.links.prev x

/-- One operation, `none` if a `BUG_ON` fires. -/
def step (s : PoolState) : PoolOp → Option PoolState
  | .alloc order => (s.mp.buddyAlloc order).map fun r => ⟨r.2, if r.1 = 0 then s.out else (r.1, order) :: s.out⟩
  | .free addr order => (s.mp.buddyFree addr order).map fun mp => ⟨mp, s.out.erase (addr, order)⟩
  | .write links order => some ⟨{ s.mp with links := links, order := order }, s.out⟩

/-- The outstanding blocks. -/
def heldBlocks (s : PoolState) : Set Dyad :=
  {b | ∃ p ∈ s.out, p.1 = s.mp.baseAddr + b.off ∧ b.order = max p.2 s.mp.minOrder}

/-- The steps of the users. -/
def Runs (s : PoolState) (ops : List PoolOp) (s' : PoolState) : Prop :=
  Exec (Guard Permitted fun s op s' => s.step op = some s') s ops s'

end PoolState

/-- The blocks on the lists of a pool. -/
def BuddyMempool.freeBlocks (mp : BuddyMempool) : Set Dyad :=
  {b | b.order ≤ mp.poolOrder ∧ ∃ l, LinkRing mp.links (.avail b.order) l ∧ .link (mp.baseAddr + b.off) ∈ l}

/-- The pool that `ADD_MEMORY` makes of a range, over memory that holds anything. -/
def newPool (r : PoolRange) (links : Links ListHead) (order : ℕ → ℕ) : Option PoolState :=
  (buddyInit links order r.base r.poolOrder r.minOrder).bind fun mp =>
    (mp.buddyFree r.base r.poolOrder).map fun mp => ⟨mp, []⟩

/-! ### The invariant -/

variable {r : PoolRange} {s s' : PoolState} {L : ℕ → List ℕ} {b : Dyad}

/-- The blocks that are outstanding, by their offsets in the range. -/
def heldOf (r : PoolRange) (out : List (ℕ × ℕ)) : Set Dyad :=
  {b | ∃ p ∈ out, p.1 = r.base + b.off ∧ b.order = max p.2 r.minOrder}

/-- What holds in every state of a run. -/
structure PoolInv (r : PoolRange) (s : PoolState) (L : ℕ → List ℕ) : Prop where
  shape : Shape r s.mp L (heldOf r s.out) ∅
  coalesced : Coalesced r.poolOrder (freeOf L)
  /-- A block is outstanding once. -/
  nodup : (s.out.map Prod.fst).Nodup
  /-- And it is a block of the pool. -/
  inside : ∀ p ∈ s.out, r.base ≤ p.1 ∧ p.2 ≤ r.poolOrder

theorem heldOf_nil : heldOf r [] = ∅ := by
  ext b
  simp [heldOf]

theorem heldOf_cons (off order : ℕ) (out : List (ℕ × ℕ)) :
    heldOf r ((r.base + off, order) :: out) = insert ⟨off, max order r.minOrder⟩ (heldOf r out) := by
  ext b
  simp only [heldOf, Set.mem_ofPred_eq, List.mem_cons, Set.mem_insert_iff, Dyad.ext_iff]
  constructor
  · rintro ⟨p, rfl | hp, h₁, h₂⟩
    · exact .inl ⟨by omega, h₂⟩
    · exact .inr ⟨p, hp, h₁, h₂⟩
  · rintro (⟨h₁, h₂⟩ | ⟨p, hp, h⟩)
    · exact ⟨_, .inl rfl, by rw [h₁], h₂⟩
    · exact ⟨p, .inr hp, h⟩

/-- Taking a request off the list takes its block away. -/
theorem heldOf_erase {out : List (ℕ × ℕ)} {off order : ℕ} (hnd : (out.map Prod.fst).Nodup)
    (hmem : (r.base + off, order) ∈ out) :
    heldOf r (out.erase (r.base + off, order)) = heldOf r out \ {⟨off, max order r.minOrder⟩} := by
  have hnd' : out.Nodup := hnd.of_map _
  ext b
  simp only [heldOf, Set.mem_ofPred_eq, hnd'.mem_erase_iff, Set.mem_sdiff, Set.mem_singleton_iff]
  constructor
  · rintro ⟨p, ⟨hne, hp⟩, h₁, h₂⟩
    refine ⟨⟨p, hp, h₁, h₂⟩, ?_⟩
    rintro rfl
    exact hne (List.inj_on_of_nodup_map hnd hp hmem h₁)
  · rintro ⟨⟨p, hp, h₁, h₂⟩, hne⟩
    refine ⟨p, ⟨?_, hp⟩, h₁, h₂⟩
    rintro rfl
    exact hne (Dyad.ext (by simpa using h₁.symm) h₂)

namespace PoolInv

theorem heldBlocks_eq (h : PoolInv r s L) : s.heldBlocks = heldOf r s.out := by
  rw [PoolState.heldBlocks, h.shape.baseAddr, h.shape.minOrder]
  rfl

/-- The lists determine the free blocks. -/
theorem freeBlocks_eq (h : PoolInv r s L) : s.mp.freeBlocks = freeOf L := by
  ext b
  rw [freeBlocks, h.shape.baseAddr, h.shape.poolOrder, Set.mem_ofPred_eq]
  constructor
  · rintro ⟨hk, l, hl, hmem⟩
    rw [hl.unique (h.shape.ring b.order hk)] at hmem
    simpa [freeOf] using hmem
  · intro hb
    have hk := h.shape.part.order_le (.inl hb)
    exact ⟨hk, _, h.shape.ring b.order hk, List.mem_map.mpr ⟨b.off, hb, rfl⟩⟩

/-! ### What each operation does -/

theorem alloc (h : PoolInv r s L) {order : ℕ} (ho : order ≤ r.poolOrder) :
    ((∀ b ∈ freeOf L, b.order < max order r.minOrder) ∧ s.mp.buddyAlloc order = some (0, s.mp)) ∨
      (∃ b ∈ freeOf L, max order r.minOrder ≤ b.order) ∧ ∃ off mp' L',
        s.mp.buddyAlloc order = some (r.base + off, mp') ∧ s.mp.Next (max order r.minOrder) (r.base + off) ∧
          PoolInv r ⟨mp', (r.base + off, order) :: s.out⟩ L' := by
  rcases buddyAlloc_spec h.shape h.coalesced ho with hnone | ⟨hex, off, mp', L', hrun, hnext, hfresh, hshape, hc⟩
  · exact .inl hnone
  · refine .inr ⟨hex, off, mp', L', hrun, hnext, ?_, hc, ?_, ?_⟩
    · rw [heldOf_cons]
      exact hshape
    · rw [List.map_cons, List.nodup_cons]
      refine ⟨fun hin => ?_, h.nodup⟩
      -- a block that starts there is outstanding already
      obtain ⟨p, hp, hoff⟩ := List.mem_map.mp hin
      have hheld : (⟨off, max p.2 r.minOrder⟩ : Dyad) ∈ heldOf r s.out := ⟨p, hp, hoff, rfl⟩
      have heq := hshape.part.eq_of_off (b := ⟨off, max order r.minOrder⟩) (.inr (.inl (.inl rfl)))
        (.inr (.inl (.inr hheld))) rfl
      exact hfresh (heq ▸ hheld)
    · intro p hp
      rcases List.mem_cons.mp hp with rfl | hp
      · exact ⟨Nat.le_add_right .., ho⟩
      · exact h.inside p hp

theorem free (h : PoolInv r s L) {addr order : ℕ} (hmem : (addr, order) ∈ s.out) :
    ∃ mp' L', s.mp.buddyFree addr order = some mp' ∧ PoolInv r ⟨mp', s.out.erase (addr, order)⟩ L' := by
  obtain ⟨hbase, ho⟩ := h.inside _ hmem
  obtain ⟨off, rfl⟩ := Nat.exists_eq_add_of_le hbase
  have hheld : (⟨off, max order r.minOrder⟩ : Dyad) ∈ heldOf r s.out := ⟨_, hmem, rfl, rfl⟩
  obtain ⟨mp', L', hrun, hshape, hc⟩ :=
    buddyFree_spec (h.shape.takeBack hheld) h.coalesced ho rfl (h.shape.outTag _ hheld)
  refine ⟨mp', L', hrun, ?_, hc, h.nodup.sublist (List.erase_sublist.map _), fun p hp => ?_⟩
  · rw [heldOf_erase h.nodup hmem]
    exact hshape
  · exact h.inside p (List.mem_of_mem_erase hp)

/-- Where a free block starts, nobody may write. -/
theorem not_owned (h : PoolInv r s L) (hb : b ∈ freeOf L) : ¬ s.Owned (r.base + b.off) := by
  rintro ⟨p, hp, hle, hlt⟩
  obtain ⟨off, hoff⟩ := Nat.exists_eq_add_of_le (h.inside p hp).1
  rw [h.shape.minOrder] at hlt
  have hheld : (⟨off, max p.2 r.minOrder⟩ : Dyad) ∈ heldOf r s.out := ⟨p, hp, hoff, rfl⟩
  have heq := h.shape.part.eq_of_has (.inl hb) (.inr (.inl hheld)) b.has_off
    ⟨by simp only; omega, by simp only [Dyad.size]; omega⟩
  exact Set.disjoint_left.mp h.shape.freeOut hb (.inl (heq ▸ hheld))

theorem write (h : PoolInv r s L) {links : Links ListHead} {order : ℕ → ℕ}
    (hw : s.Permitted (.write links order)) : PoolInv r ⟨{ s.mp with links := links, order := order }, s.out⟩ L where
  shape := by
    refine h.shape.frame ⟨h.shape.baseAddr, h.shape.poolOrder, h.shape.minOrder, h.shape.numBlocks⟩
      (fun k => hw.2 _ fun a ha => ?_) (fun b hb => hw.2 _ fun a ha => ?_) (fun b hb => hw.1 _ (h.not_owned hb))
      fun _ _ => rfl
    · exact absurd ha (by simp)
    · obtain rfl : r.base + b.off = a := by simpa using ha
      exact h.not_owned hb
  coalesced := h.coalesced
  nodup := h.nodup
  inside := h.inside

/-- **The step lemma**: what the users may do goes through, and keeps the invariant. -/
theorem step (h : PoolInv r s L) {op : PoolOp} (hop : s.Permitted op) :
    ∃ s' L', s.step op = some s' ∧ PoolInv r s' L' := by
  cases op with
  | alloc order =>
    have ho : order ≤ r.poolOrder := h.shape.poolOrder ▸ hop
    rcases h.alloc ho with ⟨-, hrun⟩ | ⟨-, off, mp', L', hrun, -, hinv⟩
    · refine ⟨s, L, ?_, h⟩
      rw [PoolState.step, hrun, Option.map_some, if_pos rfl]
    · refine ⟨_, L', ?_, hinv⟩
      rw [PoolState.step, hrun, Option.map_some, if_neg (r.addr_ne_zero off)]
  | free addr order =>
    obtain ⟨mp', L', hrun, hinv⟩ := h.free hop
    refine ⟨_, L', ?_, hinv⟩
    rw [PoolState.step, hrun, Option.map_some]
  | write links order => exact ⟨_, L, rfl, h.write hop⟩

/-- **The run lemma.** -/
theorem run (h : PoolInv r s L) {ops : List PoolOp} (hrun : s.Runs ops s') : ∃ L', PoolInv r s' L' := by
  refine hrun.inv (I := fun s => ∃ L, PoolInv r s L) ⟨L, h⟩ ?_
  rintro t op t' ⟨L, ht⟩ ⟨hop, hstep⟩
  obtain ⟨t'', L', hstep', hinv⟩ := ht.step hop
  obtain rfl : t' = t'' := Option.some.inj (hstep.symm.trans hstep')
  exact ⟨L', hinv⟩

end PoolInv

/-- `ADD_MEMORY` makes a pool that is one free block. -/
theorem newPool_spec (r : PoolRange) (links : Links ListHead) (order : ℕ → ℕ) :
    ∃ mp L, newPool r links order = some ⟨mp, []⟩ ∧ PoolInv r ⟨mp, []⟩ L := by
  obtain ⟨mp, hinit, hshape, htag⟩ := buddyInit_spec r links order
  have hc : Coalesced r.poolOrder (freeOf fun _ => []) := fun b hb => absurd hb List.not_mem_nil
  obtain ⟨mp', L', hfree, hshape', hc'⟩ :=
    buddyFree_spec hshape hc le_rfl (max_eq_left r.minLe).symm (htag _)
  refine ⟨mp', L', ?_, ?_, hc', List.nodup_nil, fun p hp => absurd hp List.not_mem_nil⟩
  · rw [newPool, hinit, Option.bind_some]
    rw [Nat.add_zero] at hfree
    rw [hfree, Option.map_some]
  · rw [heldOf_nil]
    exact hshape'

/-! ### The pool is always cut into blocks -/

/-- The blocks on the lists and the outstanding blocks make up the pool, the allocator knows which is which, and
nothing the users may do stops it. -/
structure PoolSound (r : PoolRange) (s : PoolState) : Prop extends Manages r s.mp where
  /-- They cover the pool, do not overlap, and start at multiples of their sizes. -/
  part : Partition r.poolOrder (s.mp.freeBlocks ∪ s.heldBlocks)
  /-- No block on a list is outstanding. -/
  disjoint : Disjoint s.mp.freeBlocks s.heldBlocks
  /-- No block is outstanding twice. -/
  once : (s.out.map Prod.fst).Nodup
  /-- The lists are lists of blocks. -/
  lists : ∀ k ≤ r.poolOrder, ∃ l : List ℕ, LinkRing s.mp.links (.avail k) (l.map fun o => .link (r.base + o))
  /-- A block on `avail[k]` has order `k`. -/
  order : ∀ b ∈ s.mp.freeBlocks, s.mp.order (r.base + b.off) = b.order
  /-- The tag of a block on a list is set. -/
  freeTag : ∀ b ∈ s.mp.freeBlocks, s.mp.isAvailable (r.base + b.off) = some true
  /-- The tag of an outstanding block is not. -/
  outTag : ∀ b ∈ s.heldBlocks, s.mp.isAvailable (r.base + b.off) = some false
  /-- No `BUG_ON` fires. -/
  goesOn : ∀ op, s.Permitted op → ∃ s', s.step op = some s'

theorem PoolInv.sound (h : PoolInv r s L) : PoolSound r s where
  toManages := h.shape.toManages
  part := by
    have hp := h.shape.part
    rw [Set.union_empty] at hp
    rw [h.freeBlocks_eq, h.heldBlocks_eq]
    exact hp
  disjoint := by
    have hd := h.shape.freeOut
    rw [Set.union_empty] at hd
    rw [h.freeBlocks_eq, h.heldBlocks_eq]
    exact hd
  once := h.nodup
  lists := fun k hk => ⟨L k, h.shape.ring k hk⟩
  order := by
    rw [h.freeBlocks_eq]
    exact h.shape.order
  freeTag := by
    rw [h.freeBlocks_eq]
    intro b hb
    rw [isAvailable_eq h.shape.toManages (h.shape.off_lt (.inl hb)), h.shape.freeTag b hb]
  outTag := by
    rw [h.heldBlocks_eq]
    intro b hb
    rw [isAvailable_eq h.shape.toManages (h.shape.off_lt (.inr (.inl hb))), h.shape.outTag b hb]
  goesOn := by
    intro op hop
    obtain ⟨s', -, hstep, -⟩ := h.step hop
    exact ⟨s', hstep⟩

/-- **The blocks of a pool partition it**, in every state of every run. -/
theorem poolRun_partition (r : PoolRange) (links : Links ListHead) (order : ℕ → ℕ) :
    ∃ s₀, newPool r links order = some s₀ ∧ ∀ ops s, s₀.Runs ops s → PoolSound r s := by
  obtain ⟨mp, L, hnew, hinv⟩ := newPool_spec r links order
  refine ⟨_, hnew, fun ops s hrun => ?_⟩
  obtain ⟨L', hinv'⟩ := hinv.run hrun
  exact hinv'.sound

/-- Four pages at `0x4000`. -/
def PoolRange.fourPages : PoolRange := ⟨0x4000, 14, 12, by decide, by decide, by decide, by decide⟩

/-- A page is taken out of the four and given back. -/
theorem runs_fourPages : ∃ s₀ s : PoolState, newPool .fourPages ⟨id, id⟩ id = some s₀ ∧
    s₀.Runs [.alloc 12, .free 0x4000 12] s ∧ s.out = [] := by
  obtain ⟨mp, L, hnew, hinv⟩ := newPool_spec .fourPages ⟨id, id⟩ id
  have hperm : PoolState.Permitted ⟨mp, []⟩ (.alloc 12) := by
    show 12 ≤ mp.poolOrder
    rw [hinv.shape.poolOrder]
    decide
  obtain ⟨s₁, L₁, h₁, hinv₁⟩ := hinv.step hperm
  have hout : s₁.out = [(0x4000, 12)] := by
    have hrun : ((newPool .fourPages ⟨id, id⟩ id).bind fun s => (s.step (.alloc 12)).map PoolState.out) =
        some [(0x4000, 12)] := by decide
    rw [hnew, Option.bind_some, h₁] at hrun
    exact Option.some.inj hrun
  have hperm₁ : (0x4000, 12) ∈ s₁.out := hout ▸ List.mem_cons_self
  obtain ⟨mp₂, L₂, hfree, -⟩ := hinv₁.free hperm₁
  refine ⟨_, ⟨mp₂, s₁.out.erase (0x4000, 12)⟩, hnew, .snoc (.single ⟨hperm, h₁⟩) ⟨hperm₁, ?_⟩, ?_⟩
  · show (s₁.mp.buddyFree 0x4000 12).map _ = _
    rw [hfree, Option.map_some]
  · rw [hout, List.erase_cons_head]

theorem poolRun_partition_fourPages : ∃ s₀ s : PoolState, newPool .fourPages ⟨id, id⟩ id = some s₀ ∧
    s₀.Runs [.alloc 12, .free 0x4000 12] s ∧ PoolSound .fourPages s := by
  obtain ⟨s₀, s, hnew, hrun, -⟩ := runs_fourPages
  obtain ⟨s₀', hnew', hall⟩ := poolRun_partition .fourPages ⟨id, id⟩ id
  obtain rfl : s₀ = s₀' := Option.some.inj (hnew.symm.trans hnew')
  exact ⟨s₀, s, hnew, hrun, hall _ s hrun⟩

/-! ### Free blocks are put together -/

/-- Which blocks are free follows from which are outstanding. -/
theorem PoolInv.free_unique (h : PoolInv r s L) {L' : ℕ → List ℕ} (h' : PoolInv r s' L')
    (hout : heldOf r s'.out = heldOf r s.out) : freeOf L' = freeOf L :=
  h'.coalesced.unique h.coalesced (hout ▸ h'.shape.part) h.shape.part (hout ▸ h'.shape.freeOut) h.shape.freeOut

theorem PoolInv.free_of_nil (h : PoolInv r s L) (hout : s.out = []) : freeOf L = {⟨0, r.poolOrder⟩} := by
  have hp := h.shape.part
  rw [hout, heldOf_nil, Set.union_empty] at hp
  refine h.coalesced.unique (A := ∅) (fun b hb hN => ?_) hp ?_ (Set.disjoint_empty _) (Set.disjoint_empty _)
  · obtain rfl := hb
    exact absurd hN (lt_irrefl _)
  · rw [Set.union_empty]
    exact Partition.whole r.poolOrder

/-- **A pool coalesces**, and fails only when it must: no two free blocks are buddies; `buddy_alloc` returns `NULL` if
and only if there is no block on the lists that is large enough; giving back a block that was just handed out, as
long as the same blocks are outstanding otherwise, gives back the free blocks there were; and with nothing
outstanding, the pool is one free block. -/
theorem poolRun_coalesced (r : PoolRange) (links : Links ListHead) (order : ℕ → ℕ) :
    ∃ s₀, newPool r links order = some s₀ ∧ ∀ ops s, s₀.Runs ops s →
      (∀ b ∈ s.mp.freeBlocks, b.order < r.poolOrder → b.buddy ∉ s.mp.freeBlocks) ∧
      (∀ k ≤ r.poolOrder, (s.mp.buddyAlloc k).map Prod.fst = some 0 ↔
        ¬ ∃ b ∈ s.mp.freeBlocks, max k r.minOrder ≤ b.order) ∧
      (∀ k ≤ r.poolOrder, ∀ addr mp', s.mp.buddyAlloc k = some (addr, mp') → addr ≠ 0 →
        ∀ ops' s', PoolState.Runs ⟨mp', (addr, k) :: s.out⟩ ops' s' → s'.out = (addr, k) :: s.out →
          ∃ mp'', s'.mp.buddyFree addr k = some mp'' ∧ mp''.freeBlocks = s.mp.freeBlocks) ∧
      (s.out = [] → s.mp.freeBlocks = {⟨0, r.poolOrder⟩}) := by
  obtain ⟨mp, L₀, hnew, hinv₀⟩ := newPool_spec r links order
  refine ⟨_, hnew, fun ops s hrun => ?_⟩
  obtain ⟨L, hinv⟩ := hinv₀.run hrun
  rw [hinv.freeBlocks_eq]
  refine ⟨hinv.coalesced, fun k hk => ?_, fun k hk addr mp' halloc hne ops' s' hrun' hout => ?_, hinv.free_of_nil⟩
  · rcases hinv.alloc hk with ⟨hnone, hcall⟩ | ⟨hex, off, mp', L', hcall, -⟩
    · simp only [hcall, Option.map_some, true_iff]
      rintro ⟨b, hb, hle⟩
      have := hnone b hb
      omega
    · rw [hcall, Option.map_some]
      exact iff_of_false (fun h => r.addr_ne_zero off (Option.some.inj h)) fun h => h hex
  · rcases hinv.alloc hk with ⟨-, hcall⟩ | ⟨-, off, mp₁, L₁, hcall, -, hinv₁⟩
    · obtain ⟨rfl, -⟩ := Prod.mk.inj (Option.some.inj (hcall.symm.trans halloc))
      exact absurd rfl hne
    · obtain ⟨rfl, rfl⟩ := Prod.mk.inj (Option.some.inj (hcall.symm.trans halloc))
      obtain ⟨L₂, hinv₂⟩ := hinv₁.run hrun'
      obtain ⟨mp₃, L₃, hfree, hinv₃⟩ := hinv₂.free (hout ▸ List.mem_cons_self)
      refine ⟨mp₃, hfree, ?_⟩
      rw [hout, List.erase_cons_head] at hinv₃
      rw [hinv₃.freeBlocks_eq]
      exact hinv.free_unique hinv₃ rfl

theorem poolRun_coalesced_fourPages : ∃ s₀ s : PoolState, newPool .fourPages ⟨id, id⟩ id = some s₀ ∧
    s₀.Runs [.alloc 12, .free 0x4000 12] s ∧ s.mp.freeBlocks = {⟨0, 14⟩} := by
  obtain ⟨s₀, s, hnew, hrun, hout⟩ := runs_fourPages
  obtain ⟨s₀', hnew', hall⟩ := poolRun_coalesced .fourPages ⟨id, id⟩ id
  obtain rfl : s₀ = s₀' := Option.some.inj (hnew.symm.trans hnew')
  exact ⟨s₀, s, hnew, hrun, (hall _ s hrun).2.2.2 hout⟩

end PetLab.VMproject
