import PetLab.Lib.Dyadic
import PetLab.VMproject.Buddy

/-!
# The blocks of a pool

What the lists, headers and tag bits of a pool mean. `Shape r mp L H X`: the free blocks are the ones
on the lists `L`, the blocks `H` are outstanding, and the blocks `X` are in the hands of the
allocator, between two lists; together they are the pool, each part of it once. Only what is said
about the free blocks and the tags of `H` is read by the allocator: that tags and headers inside blocks are
left as they are does no harm.

Each statement of `buddy.c` moves a block: `list_del` from the free ones to the allocator (`Shape.take`),
`list_add` back (`Shape.give`), and the allocator halves what it has (`Shape.split`) or puts two buddies
together (`Shape.merge`). The loops are put together from these: `trim_spec`, `coalesce_spec`.
-/

namespace PetLab.VMproject

open PetLab.Lib BuddyMempool

/-! ### Addresses -/

/-- The memory of a pool. -/
structure PoolRange where
  /-- Where it starts. -/
  base : ℕ
  /-- Its size is `2 ^ poolOrder`. -/
  poolOrder : ℕ
  /-- The smallest block. -/
  minOrder : ℕ
  /-- Nothing lies at `NULL`. -/
  basePos : 0 < base
  /-- The range does not wrap around. -/
  fits : base + 2 ^ poolOrder ≤ 2 ^ 64
  /-- There is room for a block. -/
  minLe : minOrder ≤ poolOrder
  /-- A block holds a header. -/
  header : 5 ≤ minOrder

/-- The pool `mp` manages the range `r`. -/
structure Manages (r : PoolRange) (mp : BuddyMempool) : Prop where
  baseAddr : mp.baseAddr = r.base
  poolOrder : mp.poolOrder = r.poolOrder
  minOrder : mp.minOrder = r.minOrder
  numBlocks : mp.numBlocks = 2 ^ (r.poolOrder - r.minOrder)

namespace PoolRange

/-- The tag bit of the block at an offset. -/
def tag (r : PoolRange) (off : ℕ) : ℕ := off / 2 ^ r.minOrder

theorem poolOrder_lt (r : PoolRange) : r.poolOrder < 64 := by
  refine (Nat.pow_lt_pow_iff_right (by decide : 1 < 2)).mp ?_
  have := r.fits
  have := r.basePos
  omega

/-- No block is at `NULL`. -/
theorem addr_ne_zero (r : PoolRange) (off : ℕ) : r.base + off ≠ 0 := by
  have := r.basePos
  omega

theorem ulShl_eq (r : PoolRange) {k : ℕ} (hk : k ≤ r.poolOrder) : ulShl k = 2 ^ k :=
  Nat.mod_eq_of_lt (Nat.pow_lt_pow_right (by decide) (hk.trans_lt r.poolOrder_lt))

theorem ulSub_eq (r : PoolRange) {off : ℕ} (ho : off < 2 ^ r.poolOrder) : ulSub (r.base + off) r.base = off := by
  have := r.fits
  unfold ulSub
  omega

theorem ulAdd_eq (r : PoolRange) {off : ℕ} (ho : off < 2 ^ r.poolOrder) : ulAdd off r.base = r.base + off := by
  have := r.fits
  unfold ulAdd
  omega

theorem tag_lt (r : PoolRange) {off : ℕ} (ho : off < 2 ^ r.poolOrder) : r.tag off < 2 ^ (r.poolOrder - r.minOrder) := by
  refine Nat.div_lt_of_lt_mul ?_
  rwa [← Nat.pow_add, Nat.add_sub_cancel' r.minLe]

end PoolRange

section

variable {r : PoolRange} {mp : BuddyMempool} {off k : ℕ}

theorem blockToId_eq (hm : Manages r mp) (ho : off < 2 ^ r.poolOrder) :
    mp.blockToId (r.base + off) = some (r.tag off) := by
  have hid : ulSub (r.base + off) mp.baseAddr >>> mp.minOrder = r.tag off := by
    rw [hm.baseAddr, r.ulSub_eq ho, hm.minOrder, Nat.shiftRight_eq_div_pow]
    rfl
  have hlt : ¬ r.tag off ≥ mp.numBlocks := by
    rw [hm.numBlocks]
    exact not_le.mpr (r.tag_lt ho)
  unfold blockToId
  simp only [hid]
  rw [if_neg hlt]

theorem markAvailable_eq (hm : Manages r mp) (ho : off < 2 ^ r.poolOrder) :
    mp.markAvailable (r.base + off) = some { mp with tagBits := Function.update mp.tagBits (r.tag off) true } := by
  rw [markAvailable, blockToId_eq hm ho, Option.map_some]

theorem markAllocated_eq (hm : Manages r mp) (ho : off < 2 ^ r.poolOrder) :
    mp.markAllocated (r.base + off) = some { mp with tagBits := Function.update mp.tagBits (r.tag off) false } := by
  rw [markAllocated, blockToId_eq hm ho, Option.map_some]

theorem isAvailable_eq (hm : Manages r mp) (ho : off < 2 ^ r.poolOrder) :
    mp.isAvailable (r.base + off) = some (mp.tagBits (r.tag off)) := by
  rw [isAvailable, blockToId_eq hm ho, Option.map_some]

/-- `find_buddy` finds the buddy. -/
theorem findBuddy_eq (hm : Manages r mp) {b : Dyad} (ho : b.off < 2 ^ r.poolOrder) (hk : b.order ≤ r.poolOrder)
    (hb : b.buddy.off < 2 ^ r.poolOrder) : mp.findBuddy (r.base + b.off) b.order = some (r.base + b.buddy.off) := by
  have hle : ¬ r.base + b.off < r.base := by omega
  rw [findBuddy, hm.baseAddr, if_neg hle, r.ulSub_eq ho, r.ulShl_eq hk]
  exact congrArg some (r.ulAdd_eq hb)

end

/-! ### Blocks -/

/-- The blocks on the lists: `L k` are the offsets on `avail[k]`. -/
def freeOf (L : ℕ → List ℕ) : Set Dyad := {b | b.off ∈ L b.order}

/-- The free blocks `L`, the outstanding blocks `H` and the blocks `X` at hand make up the pool. -/
structure Shape (r : PoolRange) (mp : BuddyMempool) (L : ℕ → List ℕ) (H X : Set Dyad) : Prop
    extends Manages r mp where
  /-- Each part of the pool is in one block. -/
  part : Partition r.poolOrder (freeOf L ∪ (H ∪ X))
  /-- No free block is outstanding. -/
  freeOut : Disjoint (freeOf L) (H ∪ X)
  /-- And the allocator has no other one's block. -/
  outX : Disjoint H X
  /-- No block is smaller than the smallest. -/
  minimum : ∀ b ∈ freeOf L ∪ (H ∪ X), r.minOrder ≤ b.order
  /-- The lists. -/
  ring : ∀ k ≤ r.poolOrder, LinkRing mp.links (.avail k) ((L k).map fun o => .link (r.base + o))
  /-- The header of a free block says how large it is. -/
  order : ∀ b ∈ freeOf L, mp.order (r.base + b.off) = b.order
  /-- The tag of a free block is set. -/
  freeTag : ∀ b ∈ freeOf L, mp.tagBits (r.tag b.off) = true
  /-- The tag of an outstanding block is not. -/
  outTag : ∀ b ∈ H, mp.tagBits (r.tag b.off) = false

variable {r : PoolRange} {mp mp' : BuddyMempool} {L : ℕ → List ℕ} {H X : Set Dyad} {b c : Dyad}

theorem freeOf_erase (hnd : (L b.order).Nodup) :
    freeOf (Function.update L b.order ((L b.order).erase b.off)) = freeOf L \ {b} := by
  ext c
  simp only [freeOf, Set.mem_ofPred_eq, Set.mem_sdiff, Set.mem_singleton_iff]
  by_cases hk : c.order = b.order
  · rw [hk, Function.update_self, hnd.mem_erase_iff, Dyad.ext_iff]
    tauto
  · rw [Function.update_of_ne hk, Dyad.ext_iff]
    tauto

theorem freeOf_cons : freeOf (Function.update L b.order (b.off :: L b.order)) = insert b (freeOf L) := by
  ext c
  simp only [freeOf, Set.mem_ofPred_eq, Set.mem_insert_iff]
  by_cases hk : c.order = b.order
  · rw [hk, Function.update_self, List.mem_cons, Dyad.ext_iff]
    tauto
  · rw [Function.update_of_ne hk, Dyad.ext_iff]
    tauto

namespace Shape

theorem off_lt (h : Shape r mp L H X) (hb : b ∈ freeOf L ∪ (H ∪ X)) : b.off < 2 ^ r.poolOrder := by
  have := h.part.inside b hb
  have := b.size_pos
  omega

/-- Different blocks have different tags. -/
theorem eq_of_tag (h : Shape r mp L H X) (hb : b ∈ freeOf L ∪ (H ∪ X)) (hc : c ∈ freeOf L ∪ (H ∪ X))
    (ht : r.tag b.off = r.tag c.off) : b = c := by
  have hdvd : ∀ d ∈ freeOf L ∪ (H ∪ X), 2 ^ r.minOrder ∣ d.off := fun d hd =>
    (Nat.pow_dvd_pow 2 (h.minimum d hd)).trans (h.part.aligned d hd)
  refine h.part.eq_of_off hb hc ?_
  rw [← Nat.div_mul_cancel (hdvd b hb), ← Nat.div_mul_cancel (hdvd c hc)]
  exact congrArg (· * 2 ^ r.minOrder) ht

/-- A list has the nodes that no other list has. -/
theorem rings_apart (h : Shape r mp L H X) {j k : ℕ} (hne : j ≠ k) {y : ListHead}
    (hj : y ∈ .avail j :: (L j).map fun o => .link (r.base + o)) :
    y ∉ .avail k :: (L k).map fun o => ListHead.link (r.base + o) := by
  intro hk
  simp only [List.mem_cons, List.mem_map] at hj hk
  rcases hj with rfl | ⟨o, ho, rfl⟩
  · simp only [ListHead.avail.injEq, reduceCtorEq, and_false, exists_false, or_false] at hk
    exact hne hk
  · simp only [reduceCtorEq, ListHead.link.injEq, Nat.add_right_inj, exists_eq_right, false_or] at hk
    have heq := h.part.eq_of_off (b := ⟨o, j⟩) (c := ⟨o, k⟩) (.inl ho) (.inl hk) rfl
    exact hne (congrArg Dyad.order heq)

theorem free_nodup (h : Shape r mp L H X) (hb : b ∈ freeOf L) : (L b.order).Nodup :=
  (List.nodup_cons.mp (h.ring b.order (h.part.order_le (.inl hb))).nodup).2.of_map _

theorem not_mem_of_at_hand (h : Shape r mp L H X) (hb : b ∈ X) : b ∉ freeOf L ∪ H := by
  rintro (hf | hH)
  · exact Set.disjoint_left.mp h.freeOut hf (.inr hb)
  · exact Set.disjoint_left.mp h.outX hH hb

/-- A block at hand is on no list. -/
theorem not_mem_ring (h : Shape r mp L H X) (hb : b ∈ X) (k : ℕ) :
    ListHead.link (r.base + b.off) ∉ .avail k :: (L k).map fun o => .link (r.base + o) := by
  intro hin
  simp only [List.mem_cons, reduceCtorEq, List.mem_map, ListHead.link.injEq, Nat.add_right_inj, exists_eq_right,
    false_or] at hin
  have hfree : (⟨b.off, k⟩ : Dyad) ∈ freeOf L := hin
  have heq := h.part.eq_of_off (.inl hfree) (.inr (.inr hb)) rfl
  exact h.not_mem_of_at_hand hb (.inl (heq ▸ hfree))

/-- Whatever is not read may be written: the rest of the memory is the allocator's users'. -/
theorem frame (h : Shape r mp L H X) (hm : Manages r mp')
    (hheads : ∀ k, mp'.links.next (.avail k) = mp.links.next (.avail k) ∧
      mp'.links.prev (.avail k) = mp.links.prev (.avail k))
    (hlinks : ∀ b ∈ freeOf L, mp'.links.next (.link (r.base + b.off)) = mp.links.next (.link (r.base + b.off)) ∧
      mp'.links.prev (.link (r.base + b.off)) = mp.links.prev (.link (r.base + b.off)))
    (horder : ∀ b ∈ freeOf L, mp'.order (r.base + b.off) = mp.order (r.base + b.off))
    (htags : ∀ b ∈ freeOf L ∪ H, mp'.tagBits (r.tag b.off) = mp.tagBits (r.tag b.off)) : Shape r mp' L H X where
  toManages := hm
  part := h.part
  freeOut := h.freeOut
  outX := h.outX
  minimum := h.minimum
  ring := by
    intro k hk
    refine (h.ring k hk).frame fun a ha => ?_
    simp only [List.mem_cons, List.mem_map] at ha
    rcases ha with rfl | ⟨o, ho, rfl⟩
    · exact hheads k
    · exact hlinks ⟨o, k⟩ ho
  order := fun b hb => (horder b hb).trans (h.order b hb)
  freeTag := fun b hb => (htags b (.inl hb)).trans (h.freeTag b hb)
  outTag := fun b hb => (htags b (.inr hb)).trans (h.outTag b hb)

/-! ### Moving blocks -/

/-- `list_del` takes a block from its list. -/
theorem take (h : Shape r mp L H X) (hb : b ∈ freeOf L) :
    Shape r (mp.listDel (r.base + b.off)) (Function.update L b.order ((L b.order).erase b.off)) H (insert b X) := by
  have hfree := freeOf_erase (h.free_nodup hb)
  have hk := h.part.order_le (.inl hb)
  have hbHX : b ∉ H ∪ X := Set.disjoint_left.mp h.freeOut hb
  have hmem : ListHead.link (r.base + b.off) ∈ (L b.order).map fun o => .link (r.base + o) :=
    List.mem_map.mpr ⟨b.off, hb, rfl⟩
  have hset : freeOf L \ {b} ∪ (H ∪ insert b X) = freeOf L ∪ (H ∪ X) := by
    ext c
    by_cases hcb : c = b
    · subst hcb
      simp [hb]
    · simp [hcb]
  refine ⟨⟨h.baseAddr, h.poolOrder, h.minOrder, h.numBlocks⟩, ?part, ?freeOut, ?outX, ?minimum, ?ring, ?order,
    ?freeTag, h.outTag⟩
  case part =>
    rw [hfree, hset]
    exact h.part
  case freeOut =>
    rw [hfree, Set.disjoint_left]
    rintro c ⟨hc, hcb⟩ (hH | rfl | hX)
    · exact Set.disjoint_left.mp h.freeOut hc (.inl hH)
    · exact hcb rfl
    · exact Set.disjoint_left.mp h.freeOut hc (.inr hX)
  case outX =>
    rw [Set.disjoint_left]
    rintro c hH (rfl | hX)
    · exact hbHX (.inl hH)
    · exact Set.disjoint_left.mp h.outX hH hX
  case minimum =>
    rw [hfree, hset]
    exact h.minimum
  case ring =>
    intro k hkN
    by_cases hkb : k = b.order
    · subst hkb
      have hr := (h.ring b.order hk).del .poison1 .poison2 hmem
      rw [Function.update_self, List.map_erase (fun x y hxy => by simpa using hxy)]
      exact hr
    · rw [Function.update_of_ne hkb]
      exact (h.ring k hkN).frame fun a ha => (h.ring b.order hk).del_kept _ _ hmem (h.rings_apart hkb ha)
  case order =>
    intro c hc
    rw [hfree] at hc
    exact h.order c hc.1
  case freeTag =>
    intro c hc
    rw [hfree] at hc
    exact h.freeTag c hc.1

/-- `block->order = order; mark_available(mp, block); list_add(&block->link, &mp->avail[order])`: a block
at hand becomes free. -/
theorem give (h : Shape r mp L H X) (hb : b ∈ X) :
    ∃ mp', (mp.setOrder (r.base + b.off) b.order).markAvailable (r.base + b.off) = some mp' ∧
      Shape r (mp'.listAdd (r.base + b.off) b.order) (Function.update L b.order (b.off :: L b.order)) H (X \ {b}) ∧
      ∀ c ∈ X, c ≠ b → mp'.tagBits (r.tag c.off) = mp.tagBits (r.tag c.off) := by
  have hmem : b ∈ freeOf L ∪ (H ∪ X) := .inr (.inr hb)
  have hoff := h.off_lt hmem
  have hk := h.part.order_le hmem
  have hfresh : b ∉ freeOf L := fun hf => h.not_mem_of_at_hand hb (.inl hf)
  have hbH : b ∉ H := fun hH => h.not_mem_of_at_hand hb (.inr hH)
  have hm : Manages r (mp.setOrder (r.base + b.off) b.order) := ⟨h.baseAddr, h.poolOrder, h.minOrder, h.numBlocks⟩
  have hset : insert b (freeOf L) ∪ (H ∪ X \ {b}) = freeOf L ∪ (H ∪ X) := by
    ext c
    by_cases hcb : c = b
    · subst hcb
      simp [hb]
    · simp [hcb]
  -- no block that starts elsewhere is written to
  have hother : ∀ c ∈ freeOf L ∪ (H ∪ X), c ≠ b → c.off ≠ b.off := fun c hc hne he =>
    hne (h.part.eq_of_off hc hmem he)
  have htag : ∀ c ∈ freeOf L ∪ (H ∪ X), c ≠ b →
      Function.update mp.tagBits (r.tag b.off) true (r.tag c.off) = mp.tagBits (r.tag c.off) := fun c hc hne =>
    Function.update_of_ne (fun he => hne (h.eq_of_tag hc hmem he)) true mp.tagBits
  refine ⟨_, markAvailable_eq hm hoff, ?_, fun c hc hne => htag c (.inr (.inr hc)) hne⟩
  refine ⟨⟨h.baseAddr, h.poolOrder, h.minOrder, h.numBlocks⟩, ?part, ?freeOut, ?outX, ?minimum, ?ring, ?order,
    ?freeTag, ?outTag⟩
  case part =>
    rw [freeOf_cons, hset]
    exact h.part
  case freeOut =>
    rw [freeOf_cons, Set.disjoint_left]
    rintro c (rfl | hc) (hH | ⟨hX, hne⟩)
    · exact hbH hH
    · exact hne rfl
    · exact Set.disjoint_left.mp h.freeOut hc (.inl hH)
    · exact Set.disjoint_left.mp h.freeOut hc (.inr hX)
  case outX => exact h.outX.mono_right Set.sdiff_subset
  case minimum =>
    rw [freeOf_cons, hset]
    exact h.minimum
  case ring =>
    intro k hkN
    by_cases hkb : k = b.order
    · subst hkb
      rw [Function.update_self]
      exact (h.ring b.order hk).add (h.not_mem_ring hb b.order)
    · rw [Function.update_of_ne hkb]
      refine (h.ring k hkN).frame fun a ha => (h.ring b.order hk).add_kept ?_ (h.rings_apart hkb ha)
      rintro rfl
      exact h.not_mem_ring hb k ha
  case order =>
    intro c hc
    rw [freeOf_cons] at hc
    rcases hc with rfl | hc
    · exact Function.update_self ..
    · have hne : r.base + c.off ≠ r.base + b.off := by
        have := hother c (.inl hc) (fun he => hfresh (he ▸ hc))
        omega
      exact (Function.update_of_ne hne ..).trans (h.order c hc)
  case freeTag =>
    intro c hc
    rw [freeOf_cons] at hc
    rcases hc with rfl | hc
    · exact Function.update_self ..
    · exact (htag c (.inl hc) (fun he => hfresh (he ▸ hc))).trans (h.freeTag c hc)
  case outTag => exact fun c hc => (htag c (.inr (.inl hc)) (fun he => hbH (he ▸ hc))).trans (h.outTag c hc)

/-- What the allocator has at hand may be cut in another way. -/
theorem recut {X' : Set Dyad} (h : Shape r mp L H X) (hp : Partition r.poolOrder (freeOf L ∪ (H ∪ X')))
    (hnew : ∀ c ∈ X', c ∉ freeOf L ∪ H ∧ r.minOrder ≤ c.order) : Shape r mp L H X' where
  toManages := h.toManages
  part := hp
  freeOut := by
    rw [Set.disjoint_left]
    rintro c hc (hH | hX)
    · exact Set.disjoint_left.mp h.freeOut hc (.inl hH)
    · exact (hnew c hX).1 (.inl hc)
  outX := Set.disjoint_left.mpr fun c hH hX => (hnew c hX).1 (.inr hH)
  minimum := by
    rintro c (hc | hH | hX)
    · exact h.minimum c (.inl hc)
    · exact h.minimum c (.inr (.inl hH))
    · exact (hnew c hX).2
  ring := h.ring
  order := h.order
  freeTag := h.freeTag
  outTag := h.outTag

/-- A block at hand is cut into halves. -/
theorem split {off k : ℕ} (h : Shape r mp L H {⟨off, k + 1⟩}) (hk : r.minOrder ≤ k) :
    Shape r mp L H {⟨off, k⟩, ⟨off + 2 ^ k, k⟩} := by
  have hpos : 0 < 2 ^ k := Nat.two_pow_pos k
  have hmem : (⟨off, k + 1⟩ : Dyad) ∈ freeOf L ∪ (H ∪ {⟨off, k + 1⟩}) := .inr (.inr rfl)
  have hnot := h.not_mem_of_at_hand rfl
  -- a half is not a block already, since the whole is
  have hhalf : ∀ c : Dyad, c.order = k → (⟨off, k + 1⟩ : Dyad).Has c.off → c ∉ freeOf L ∪ H := by
    intro c hc hhas hin
    have heq := h.part.eq_of_has (hin.imp_right .inl) hmem c.has_off hhas
    rw [heq] at hc
    exact absurd hc (Nat.succ_ne_self k)
  refine h.recut ?_ ?_
  · have hp := h.part.split hmem
    convert hp using 1
    ext c
    simp only [Set.mem_union, Set.mem_insert_iff, Set.mem_singleton_iff, Set.mem_ofPred_eq] at hnot ⊢
    by_cases hc : c = ⟨off, k + 1⟩
    · subst hc
      tauto
    · tauto
  · rintro c (rfl | rfl)
    · refine ⟨hhalf _ rfl ⟨le_rfl, ?_⟩, hk⟩
      simp only [Dyad.size, Nat.pow_succ]
      omega
    · refine ⟨hhalf _ rfl ⟨Nat.le_add_right .., ?_⟩, hk⟩
      simp only [Dyad.size, Nat.pow_succ]
      omega

/-- Two buddies at hand are put together. -/
theorem merge (h : Shape r mp L H {b.buddy, b}) (hN : b.order < r.poolOrder) : Shape r mp L H {b.parent} := by
  have hb : b ∈ freeOf L ∪ (H ∪ {b.buddy, b}) := .inr (.inr (.inr rfl))
  have hbuddy : b.buddy ∈ freeOf L ∪ (H ∪ {b.buddy, b}) := .inr (.inr (.inl rfl))
  have hnot := h.not_mem_of_at_hand (b := b) (.inr rfl)
  have hnot' := h.not_mem_of_at_hand (b := b.buddy) (.inl rfl)
  refine h.recut ?_ ?_
  · have hp := h.part.merge hb hbuddy hN
    convert hp using 1
    ext c
    simp only [Set.mem_union, Set.mem_insert_iff, Set.mem_singleton_iff, Set.mem_ofPred_eq] at hnot hnot' ⊢
    by_cases hc : c = b
    · subst hc
      tauto
    · by_cases hc' : c = b.buddy
      · subst hc'
        tauto
      · tauto
  · rintro c rfl
    refine ⟨fun hin => ?_, (h.minimum b hb).trans (Nat.le_succ _)⟩
    -- the parent starts where one of the two starts
    have hin' : b.parent ∈ freeOf L ∪ (H ∪ {b.buddy, b}) := hin.imp_right .inl
    rcases Dyad.parent_cases (h.part.aligned b hb) with ⟨hoff, -⟩ | ⟨hoff, -⟩
    · have heq := h.part.eq_of_off hin' hb hoff
      exact absurd (congrArg Dyad.order heq) (Nat.succ_ne_self b.order)
    · have heq := h.part.eq_of_off hin' hbuddy hoff
      exact absurd (congrArg Dyad.order heq) (Nat.succ_ne_self b.order)

/-- `block->order = order`, where no free block starts. -/
theorem setOrder (h : Shape r mp L H X) (hb : b ∈ X) (k : ℕ) : Shape r (mp.setOrder (r.base + b.off) k) L H X := by
  have hnot := h.not_mem_of_at_hand hb
  refine h.frame ⟨h.baseAddr, h.poolOrder, h.minOrder, h.numBlocks⟩ (fun _ => ⟨rfl, rfl⟩) (fun _ _ => ⟨rfl, rfl⟩)
    (fun c hc => ?_) fun _ _ => rfl
  refine Function.update_of_ne (fun he => ?_) ..
  obtain rfl : c = b := h.part.eq_of_off (.inl hc) (.inr (.inr hb)) (by omega)
  exact hnot (.inl hc)

/-- `mark_allocated(mp, block)`. -/
theorem markAllocated (h : Shape r mp L H X) (hb : b ∈ X) :
    ∃ mp', mp.markAllocated (r.base + b.off) = some mp' ∧ Shape r mp' L H X ∧ mp'.tagBits (r.tag b.off) = false := by
  have hmem : b ∈ freeOf L ∪ (H ∪ X) := .inr (.inr hb)
  have hnot := h.not_mem_of_at_hand hb
  refine ⟨_, markAllocated_eq h.toManages (h.off_lt hmem), ?_, Function.update_self ..⟩
  refine h.frame ⟨h.baseAddr, h.poolOrder, h.minOrder, h.numBlocks⟩ (fun _ => ⟨rfl, rfl⟩) (fun _ _ => ⟨rfl, rfl⟩)
    (fun _ _ => rfl) fun c hc => Function.update_of_ne (fun he => ?_) ..
  obtain rfl : c = b := h.eq_of_tag (hc.imp_right .inl) hmem he
  exact hnot hc

/-- A block at hand is handed out. -/
theorem handOut (h : Shape r mp L H {b}) (ht : mp.tagBits (r.tag b.off) = false) : Shape r mp L (insert b H) ∅ := by
  have hset : insert b H ∪ ∅ = H ∪ {b} := by
    rw [Set.union_empty, Set.union_comm]
    rfl
  refine ⟨h.toManages, hset ▸ h.part, hset ▸ h.freeOut, Set.disjoint_empty _, hset ▸ h.minimum, h.ring, h.order,
    h.freeTag, ?_⟩
  rintro c (rfl | hc)
  · exact ht
  · exact h.outTag c hc

/-- An outstanding block is given back. -/
theorem takeBack (h : Shape r mp L H ∅) (hb : b ∈ H) : Shape r mp L (H \ {b}) {b} := by
  have hset : H \ {b} ∪ {b} = H ∪ ∅ := by
    rw [Set.union_empty, Set.sdiff_union_self, Set.union_singleton, Set.insert_eq_of_mem hb]
  refine ⟨h.toManages, hset ▸ h.part, hset ▸ h.freeOut, ?_, hset ▸ h.minimum, h.ring, h.order, h.freeTag,
    fun c hc => h.outTag c hc.1⟩
  exact Set.disjoint_left.mpr fun c hc hcb => hc.2 hcb

end Shape

/-! ### The loops -/

/-- "Trim if a higher order block than necessary was allocated": the upper halves become free. -/
theorem trim_spec {off order n : ℕ} (h : Shape r mp L H {⟨off, order + n⟩}) (hmin : r.minOrder ≤ order)
    (hc : Coalesced r.poolOrder (freeOf L)) :
    ∃ mp' L', mp.trim (r.base + off) order n = some mp' ∧ Shape r mp' L' H {⟨off, order⟩} ∧
      Coalesced r.poolOrder (freeOf L') ∧ mp'.tagBits (r.tag off) = mp.tagBits (r.tag off) := by
  induction n generalizing mp L with
  | zero => exact ⟨mp, L, rfl, h, hc, rfl⟩
  | succ n ih =>
    have hsplit := h.split (k := order + n) (by omega)
    have hne : (⟨off, order + n⟩ : Dyad) ≠ ⟨off + 2 ^ (order + n), order + n⟩ := by
      have := Nat.two_pow_pos (order + n)
      simp only [ne_eq, Dyad.mk.injEq, and_true]
      omega
    have hmem : (⟨off + 2 ^ (order + n), order + n⟩ : Dyad) ∈
        ({⟨off, order + n⟩, ⟨off + 2 ^ (order + n), order + n⟩} : Set Dyad) := .inr rfl
    have hlt := hsplit.off_lt (.inr (.inr hmem))
    have hk : order + n ≤ r.poolOrder := hsplit.part.order_le (.inr (.inr hmem))
    have haddr : ulAdd (r.base + off) (ulShl (order + n)) = r.base + (off + 2 ^ (order + n)) := by
      have := r.fits
      have := Nat.two_pow_pos (order + n)
      rw [r.ulShl_eq hk, ulAdd]
      simp only at hlt
      omega
    obtain ⟨mp', hmark, hgive, htag⟩ := hsplit.give hmem
    -- the lower half stays at hand, and is the buddy of the one that is free now
    have hrest : ({⟨off, order + n⟩, ⟨off + 2 ^ (order + n), order + n⟩} : Set Dyad) \
        {⟨off + 2 ^ (order + n), order + n⟩} = {⟨off, order + n⟩} := by
      rw [Set.pair_sdiff_right hne]
    have hbuddy : (⟨off + 2 ^ (order + n), order + n⟩ : Dyad).buddy ∉ freeOf L := by
      rw [Dyad.buddy_upper (k := order + n) (h.part.aligned _ (.inr (.inr rfl)))]
      exact fun hf => hsplit.not_mem_of_at_hand (.inl rfl) (.inl hf)
    have hcoal := hc.insert (b := ⟨off + 2 ^ (order + n), order + n⟩) fun _ => hbuddy
    rw [← freeOf_cons] at hcoal
    rw [hrest] at hgive
    obtain ⟨mp'', L', hrun, hshape, hc', htag'⟩ := ih hgive hcoal
    refine ⟨mp'', L', ?_, hshape, hc', htag'.trans (htag ⟨off, order + n⟩ (.inl rfl) hne)⟩
    rw [BuddyMempool.trim]
    simp only [haddr]
    rw [hmark, Option.bind_some]
    exact hrun

/-- **What one look at the buddy finds out**: the tag where the buddy would start is the tag of a block, and so the
buddy is free if and only if the tag is set and the header there says the order of the block. -/
theorem Shape.buddy_free_iff (h : Shape r mp L H {b}) (hN : b.order < r.poolOrder) :
    b.buddy.off < 2 ^ r.poolOrder ∧
      (b.buddy ∈ freeOf L ↔ mp.tagBits (r.tag b.buddy.off) = true ∧ mp.order (r.base + b.buddy.off) = b.order) := by
  have hb : b ∈ freeOf L ∪ (H ∪ {b}) := .inr (.inr rfl)
  obtain ⟨c, hc, hoff, hord⟩ := h.part.at_buddy hb hN
  have hlt := h.off_lt hc
  refine ⟨hoff ▸ hlt, fun hfree => ⟨h.freeTag _ hfree, h.order _ hfree⟩, ?_⟩
  rintro ⟨htag, horder⟩
  rcases hc with hc | hc | rfl
  · obtain rfl : c = b.buddy := by
      refine Dyad.ext hoff ?_
      rw [← h.order c hc, hoff, horder]
      rfl
    exact hc
  · have := h.outTag c hc
    rw [hoff, htag] at this
    exact absurd this (by decide)
  · -- the block is not its own buddy
    have hpos := c.size_pos
    rcases Dyad.buddy_cases (h.part.aligned c hb) with ⟨h₁, -⟩ | ⟨h₁, -⟩
    · omega
    · omega

/-- "Coalesce as much as possible with adjacent free buddy blocks": the buddy of what is left is not free. -/
theorem coalesce_spec {n : ℕ} (h : Shape r mp L H {b}) (hn : b.order + n = r.poolOrder)
    (hc : Coalesced r.poolOrder (freeOf L)) :
    ∃ mp' L' b', coalesce n mp (r.base + b.off) b.order = some (mp', r.base + b'.off, b'.order) ∧
      Shape r mp' L' H {b'} ∧ Coalesced r.poolOrder (freeOf L') ∧ (b'.order < r.poolOrder → b'.buddy ∉ freeOf L') := by
  induction n generalizing mp L b with
  | zero => exact ⟨mp, L, b, rfl, h, hc, fun hlt => absurd hlt (by omega)⟩
  | succ n ih =>
    have hN : b.order < r.poolOrder := by omega
    have hb : b ∈ freeOf L ∪ (H ∪ {b}) := .inr (.inr rfl)
    obtain ⟨hlt, hiff⟩ := h.buddy_free_iff hN
    have hfind := findBuddy_eq h.toManages (h.off_lt hb) hN.le hlt
    have havail := isAvailable_eq h.toManages hlt
    rw [coalesce, hfind, Option.bind_some, havail, Option.bind_some]
    by_cases hfree : b.buddy ∈ freeOf L
    · -- the buddy is taken from its list, and the two are put together
      obtain ⟨htag, horder⟩ := hiff.mp hfree
      have htake := h.take hfree
      have hmerge := (htake.merge hN).setOrder (b := b.parent) rfl (b.order + 1)
      have hc' : Coalesced r.poolOrder
          (freeOf (Function.update L b.buddy.order ((L b.buddy.order).erase b.buddy.off))) := by
        rw [freeOf_erase (h.free_nodup hfree)]
        exact hc.subset Set.sdiff_subset
      obtain ⟨mp', L', b', hrun, hrest⟩ := ih hmerge (by rw [Dyad.parent_order]; omega) hc'
      refine ⟨mp', L', b', ?_, hrest⟩
      have hmerged : (if r.base + b.buddy.off < r.base + b.off then r.base + b.buddy.off else r.base + b.off) =
          r.base + b.parent.off := by
        have hmin : b.parent.off = min b.off b.buddy.off := rfl
        split_ifs with hlt <;> omega
      rw [htag, horder, if_neg (by decide), if_neg (by simp)]
      simp only [hmerged]
      exact hrun
    · refine ⟨mp, L, b, ?_, h, hc, fun _ => hfree⟩
      by_cases htag : mp.tagBits (r.tag b.buddy.off) = true
      · have horder : mp.order (r.base + b.buddy.off) ≠ b.order := fun ho => hfree (hiff.mpr ⟨htag, ho⟩)
        rw [htag, if_neg (by decide), if_pos (by simpa using horder)]
      · rw [if_pos (by simpa using htag)]

/-! ### The calls -/

theorem fixup_eq (hm : Manages r mp) (order : ℕ) : mp.fixup order = max order r.minOrder := by
  rw [fixup, hm.minOrder]
  split_ifs <;> omega

/-- Of the lists from `avail[k]` on, the first that is not empty starts with the block at `a`. -/
def BuddyMempool.Next (mp : BuddyMempool) (k a : ℕ) : Prop :=
  ∃ j, k ≤ j ∧ j ≤ mp.poolOrder ∧ (∀ i, k ≤ i → i < j → mp.links.next (.avail i) = .avail i) ∧
    mp.links.next (.avail j) = .link a

theorem BuddyMempool.Next.unique {k a a' : ℕ} (h : mp.Next k a) (h' : mp.Next k a') : a = a' := by
  obtain ⟨j, hkj, -, hj, ha⟩ := h
  obtain ⟨j', hkj', -, hj', ha'⟩ := h'
  rcases Nat.lt_trichotomy j j' with hlt | rfl | hlt
  · have := (hj' j hkj hlt).symm.trans ha
    exact absurd this (by simp)
  · exact ListHead.link.inj (ha.symm.trans ha')
  · have := (hj j' hkj' hlt).symm.trans ha'
    exact absurd this (by simp)

theorem Shape.free_of_next {k a : ℕ} (h : Shape r mp L H X) (hnext : mp.Next k a) :
    ∃ off j, a = r.base + off ∧ k ≤ j ∧ ⟨off, j⟩ ∈ freeOf L := by
  obtain ⟨j, hkj, hjN, -, ha⟩ := hnext
  rw [h.poolOrder] at hjN
  have hhead := (h.ring j hjN).next_head
  rw [ha] at hhead
  cases hL : L j with
  | nil =>
    rw [hL] at hhead
    exact absurd hhead (by simp)
  | cons off t =>
    rw [hL] at hhead
    refine ⟨off, j, ListHead.link.inj hhead, hkj, ?_⟩
    show off ∈ L j
    rw [hL]
    exact List.mem_cons_self

/-- The loop of `buddy_alloc`: a block comes from the first list that is not empty. -/
theorem allocFrom_spec {order : ℕ} (h : Shape r mp L H ∅) (hmin : r.minOrder ≤ order)
    (hc : Coalesced r.poolOrder (freeOf L)) (n k : ℕ) (hk : order ≤ k) (hkn : k + n = r.poolOrder + 1) :
    ((∀ b ∈ freeOf L, b.order < k) ∧ mp.allocFrom order (List.range' k n) = some (0, mp)) ∨
      (∃ b ∈ freeOf L, k ≤ b.order) ∧ ∃ off mp' L', mp.allocFrom order (List.range' k n) = some (r.base + off, mp') ∧
        mp.Next k (r.base + off) ∧ ⟨off, order⟩ ∉ H ∧ Shape r mp' L' (insert ⟨off, order⟩ H) ∅ ∧
        Coalesced r.poolOrder (freeOf L') := by
  induction n generalizing k with
  | zero =>
    refine .inl ⟨fun b hb => ?_, rfl⟩
    have := h.part.order_le (.inl hb)
    omega
  | succ n ih =>
    have hkN : k ≤ r.poolOrder := by omega
    have hring := h.ring k hkN
    have hhead := hring.next_head
    rw [List.range'_succ, allocFrom]
    cases hL : L k with
    | nil =>
      rw [hL, List.map_nil, List.headD_nil] at hhead
      rw [if_pos hhead]
      rcases ih (k + 1) (by omega) (by omega) with ⟨hnone, hrun⟩ | ⟨⟨b, hb, hle⟩, off, mp', L', hrun, hnext, hrest⟩
      · refine .inl ⟨fun b hb => ?_, hrun⟩
        have hlt := hnone b hb
        have hne : b.order ≠ k := by
          rintro rfl
          rw [freeOf, Set.mem_ofPred_eq, hL] at hb
          exact absurd hb List.not_mem_nil
        omega
      · obtain ⟨j, hkj, hjN, hempty, ha⟩ := hnext
        refine .inr ⟨⟨b, hb, by omega⟩, off, mp', L', hrun, ⟨j, by omega, hjN, fun i hki hij => ?_, ha⟩, hrest⟩
        rcases Nat.eq_or_lt_of_le hki with rfl | hlt
        · exact hhead
        · exact hempty i hlt hij
    | cons off t =>
      obtain ⟨m, rfl⟩ := Nat.exists_eq_add_of_le hk
      have hfree : (⟨off, order + m⟩ : Dyad) ∈ freeOf L := by
        show off ∈ L (order + m)
        rw [hL]
        exact List.mem_cons_self
      rw [hL, List.map_cons, List.headD_cons] at hhead
      -- the block is taken from its list, and what is not needed goes back
      have htake := h.take hfree
      obtain ⟨mp₁, hmark, hshape₁, htag₁⟩ := htake.markAllocated (b := ⟨off, order + m⟩) (.inl rfl)
      have hc₁ : Coalesced r.poolOrder (freeOf L \ {⟨off, order + m⟩}) := hc.subset Set.sdiff_subset
      rw [← freeOf_erase (h.free_nodup hfree)] at hc₁
      rw [insert_empty_eq] at hshape₁
      obtain ⟨mp₂, L₂, hrun, hshape₂, hc₂, htag₂⟩ := trim_spec hshape₁ hmin hc₁
      refine .inr ⟨⟨⟨off, order + m⟩, hfree, le_rfl⟩, off, mp₂, L₂, ?_,
        ⟨order + m, le_rfl, h.poolOrder ▸ hkN, fun i h₁ h₂ => absurd h₂ (by omega), hhead⟩, ?_,
        hshape₂.handOut (htag₂.trans htag₁), hc₂⟩
      · have hne : mp.links.next (.avail (order + m)) ≠ .avail (order + m) := by
          rw [hhead]
          exact ListHead.noConfusion
        rw [if_neg hne, hhead, Nat.add_sub_cancel_left]
        simp only
        rw [hmark, Option.bind_some, hrun, Option.map_some]
      · exact fun hH => hshape₂.not_mem_of_at_hand rfl (.inr hH)

/-- **`buddy_alloc`** finds a block if there is one that is large enough. -/
theorem buddyAlloc_spec {order : ℕ} (h : Shape r mp L H ∅) (hc : Coalesced r.poolOrder (freeOf L))
    (ho : order ≤ r.poolOrder) :
    ((∀ b ∈ freeOf L, b.order < max order r.minOrder) ∧ mp.buddyAlloc order = some (0, mp)) ∨
      (∃ b ∈ freeOf L, max order r.minOrder ≤ b.order) ∧ ∃ off mp' L', mp.buddyAlloc order = some (r.base + off, mp') ∧
        mp.Next (max order r.minOrder) (r.base + off) ∧ ⟨off, max order r.minOrder⟩ ∉ H ∧
        Shape r mp' L' (insert ⟨off, max order r.minOrder⟩ H) ∅ ∧ Coalesced r.poolOrder (freeOf L') := by
  have hmax : max order r.minOrder ≤ r.poolOrder := max_le ho r.minLe
  have hcall : mp.buddyAlloc order =
      mp.allocFrom (max order r.minOrder)
        (List.range' (max order r.minOrder) (r.poolOrder + 1 - max order r.minOrder)) := by
    rw [buddyAlloc, fixup_eq h.toManages, h.poolOrder, if_neg (by omega)]
  rw [hcall]
  exact allocFrom_spec h (le_max_right ..) hc _ _ le_rfl (by omega)

/-- **`buddy_free`** of a block at hand whose tag is not set. -/
theorem buddyFree_spec {order : ℕ} (h : Shape r mp L H {b}) (hc : Coalesced r.poolOrder (freeOf L))
    (ho : order ≤ r.poolOrder) (hb : b.order = max order r.minOrder) (ht : mp.tagBits (r.tag b.off) = false) :
    ∃ mp' L', mp.buddyFree (r.base + b.off) order = some mp' ∧ Shape r mp' L' H ∅ ∧
      Coalesced r.poolOrder (freeOf L') := by
  have hmem : b ∈ freeOf L ∪ (H ∪ {b}) := .inr (.inr rfl)
  have hN := h.part.order_le hmem
  obtain ⟨mp₁, L₁, b₁, hrun, hshape₁, hc₁, hbuddy⟩ :=
    coalesce_spec (n := r.poolOrder - b.order) h (by omega) hc
  obtain ⟨mp₂, hmark, hshape₂, -⟩ := hshape₁.give (b := b₁) rfl
  rw [Set.sdiff_self] at hshape₂
  refine ⟨_, _, ?_, hshape₂, ?_⟩
  · have hle : ¬ order > mp.poolOrder := by
      rw [h.poolOrder]
      omega
    rw [buddyFree, if_neg hle, isAvailable_eq h.toManages (h.off_lt hmem), ht, Option.bind_some,
      if_neg (by decide), fixup_eq h.toManages, h.poolOrder, ← hb, hrun, Option.bind_some, hmark, Option.map_some]
  · rw [freeOf_cons]
    exact hc₁.insert hbuddy

/-- **`buddy_init`** makes a pool in which all memory is at hand. -/
theorem buddyInit_spec (r : PoolRange) (links : Links ListHead) (order : ℕ → ℕ) :
    ∃ mp, buddyInit links order r.base r.poolOrder r.minOrder = some mp ∧
      Shape r mp (fun _ => []) ∅ {⟨0, r.poolOrder⟩} ∧ ∀ i, mp.tagBits i = false := by
  have hmin : ¬ ulShl r.minOrder < sizeofBlock := by
    have h32 : 2 ^ 5 ≤ 2 ^ r.minOrder := Nat.pow_le_pow_right (by decide) r.header
    rw [r.ulShl_eq r.minLe, sizeofBlock]
    omega
  have hle : ¬ r.minOrder > r.poolOrder := not_lt.mpr r.minLe
  have hempty : freeOf (fun _ => []) = ∅ := by
    ext c
    simp [freeOf]
  unfold buddyInit
  simp only [if_neg hmin, if_neg hle]
  refine ⟨_, rfl, ⟨⟨rfl, rfl, rfl, ?_⟩, ?_, ?_, Set.empty_disjoint _, ?_, fun k hk => ?_, ?_, ?_, ?_⟩, fun _ => rfl⟩
  · simp only
    rw [r.ulShl_eq le_rfl, r.ulShl_eq r.minLe, Nat.pow_div r.minLe (by decide)]
  · rw [hempty, Set.empty_union, Set.empty_union]
    exact Partition.whole r.poolOrder
  · rw [hempty]
    exact Set.empty_disjoint _
  · rw [hempty, Set.empty_union, Set.empty_union]
    rintro c rfl
    exact r.minLe
  · exact linkRing_initHeads ListHead.avail _ links (.inl (List.mem_range.mpr (by omega)))
  all_goals simp [hempty]

end PetLab.VMproject
