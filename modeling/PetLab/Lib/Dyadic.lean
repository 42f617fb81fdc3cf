import Mathlib.Algebra.Order.Ring.Nat
import Mathlib.Data.Nat.Bitwise
import Mathlib.Data.Set.Lattice
import Mathlib.Order.CompletePartialOrder
import Mathlib.Order.Nat

/-!
# Blocks of a power of two, aligned to their size

The mathematics of a buddy system. A block has a size `2 ^ order` and starts at a multiple of
it, so that two blocks are nested or do not overlap (`Dyad.nested`). The two halves of a block are
*buddies*: flipping one bit of the start of one gives that of the other.

`Partition N B` says that the blocks `B` cover `[0, 2 ^ N)`, each point once. Halving a block and
putting two buddies together keep this (`Partition.split`, `Partition.merge`). Where the buddy of
a block would start, another block starts, and it is not larger (`Partition.at_buddy`): this
is why it is enough to look at one place to find out whether two blocks can be put together.

If some of the blocks are free and no two free ones are buddies, the free ones are as large as they can be
(`Coalesced.not_inside`), and so they follow from the others (`Coalesced.unique`).
-/

namespace PetLab.Lib

/-- A block: where it starts, and the power of two that is its size. -/
@[ext]
structure Dyad where
  /-- Where it starts. -/
  off : ℕ
  /-- Its size is `2 ^ order`. -/
  order : ℕ
  deriving DecidableEq, Repr

namespace Dyad

/-- How large it is. -/
def size (b : Dyad) : ℕ := 2 ^ b.order

/-- It starts at a multiple of its size. -/
def Aligned (b : Dyad) : Prop := b.size ∣ b.off

/-- The point `x` is in the block. -/
def Has (b : Dyad) (x : ℕ) : Prop := b.off ≤ x ∧ x < b.off + b.size

/-- The blocks do not overlap. -/
def Apart (b c : Dyad) : Prop := b.off + b.size ≤ c.off ∨ c.off + c.size ≤ b.off

/-- The other half. -/
def buddy (b : Dyad) : Dyad := ⟨b.off ^^^ 2 ^ b.order, b.order⟩

/-- The block of which it is a half. -/
def parent (b : Dyad) : Dyad := ⟨min b.off b.buddy.off, b.order + 1⟩

variable {b c d : Dyad} {x : ℕ}

theorem size_pos (b : Dyad) : 0 < b.size := Nat.two_pow_pos b.order

@[simp] theorem buddy_order (b : Dyad) : b.buddy.order = b.order := rfl

@[simp] theorem buddy_size (b : Dyad) : b.buddy.size = b.size := rfl

@[simp] theorem parent_order (b : Dyad) : b.parent.order = b.order + 1 := rfl

theorem parent_size (b : Dyad) : b.parent.size = 2 * b.size := by
  rw [size, parent_order, Nat.pow_succ, Nat.mul_comm]
  rfl

theorem Apart.symm (h : b.Apart c) : c.Apart b := Or.symm h

theorem not_apart_of_has (hb : b.Has x) (hc : c.Has x) : ¬ b.Apart c := by
  unfold Has at hb hc
  unfold Apart
  omega

theorem has_off (b : Dyad) : b.Has b.off := ⟨le_rfl, Nat.lt_add_of_pos_right b.size_pos⟩

theorem size_dvd_size (h : b.order ≤ c.order) : b.size ∣ c.size := Nat.pow_dvd_pow 2 h

theorem size_le_size (h : b.order ≤ c.order) : b.size ≤ c.size := Nat.pow_le_pow_right Nat.two_pos h

/-- Of two blocks that overlap, the smaller one lies in the larger one. -/
theorem nested (hb : b.Aligned) (hc : c.Aligned) (h : b.order ≤ c.order) (ho : ¬ b.Apart c) :
    c.off ≤ b.off ∧ b.off + b.size ≤ c.off + c.size := by
  have hdvd : b.size ∣ c.off := (size_dvd_size h).trans hc
  have hend : b.size ∣ c.off + c.size := Nat.dvd_add hdvd (size_dvd_size h)
  unfold Apart at ho
  constructor
  · exact Nat.le_of_lt_add_of_dvd (by omega) hdvd hb
  · exact Nat.le_of_lt_add_of_dvd (by omega) (Nat.dvd_add hb (Nat.dvd_refl _)) hend

/-- Where the buddy is: behind the lower half, or before the upper one. -/
theorem buddy_cases (hb : b.Aligned) :
    (b.buddy.off = b.off + b.size ∧ 2 * b.size ∣ b.off) ∨
      (b.buddy.off + b.size = b.off ∧ 2 * b.size ∣ b.buddy.off) := by
  obtain ⟨r, hr⟩ := hb
  have hxor : b.buddy.off = b.size * (r ^^^ 1) := by
    show b.off ^^^ 2 ^ b.order = 2 ^ b.order * (r ^^^ 1)
    rw [hr, size, Nat.mul_comm, Nat.mul_comm (2 ^ b.order), ← Nat.shiftLeft_eq, ← Nat.shiftLeft_eq,
      Nat.shiftLeft_xor_distrib, Nat.one_shiftLeft]
  rcases Nat.even_or_odd r with he | ho
  · refine .inl ⟨?_, ?_⟩
    · rw [hxor, Nat.xor_one_of_even he, hr, Nat.mul_add_one]
    · rw [hr, Nat.mul_comm 2]
      exact Nat.mul_dvd_mul_left _ he.two_dvd
  · obtain ⟨q, rfl⟩ := ho
    refine .inr ⟨?_, ?_⟩
    · rw [hxor, Nat.xor_one_of_odd ⟨q, rfl⟩, hr, Nat.add_sub_cancel, Nat.mul_add_one]
    · rw [hxor, Nat.xor_one_of_odd ⟨q, rfl⟩, Nat.add_sub_cancel, Nat.mul_comm 2]
      exact Nat.mul_dvd_mul_left _ (Nat.dvd_mul_right 2 q)

theorem buddy_aligned (hb : b.Aligned) : b.buddy.Aligned := by
  show b.size ∣ b.buddy.off
  rcases buddy_cases hb with ⟨h, -⟩ | ⟨-, h⟩
  · rw [h]
    exact Nat.dvd_add hb (Nat.dvd_refl _)
  · exact (Nat.dvd_mul_left _ 2).trans h

theorem buddy_buddy (b : Dyad) : b.buddy.buddy = b := by
  ext
  · exact Nat.xor_xor_cancel_right ..
  · rfl

/-- The halves of a block are buddies. -/
theorem buddy_upper {off k : ℕ} (h : (⟨off, k + 1⟩ : Dyad).Aligned) : (⟨off + 2 ^ k, k⟩ : Dyad).buddy = ⟨off, k⟩ := by
  have hdvd : 2 * 2 ^ k ∣ off := by
    have : 2 ^ (k + 1) ∣ off := h
    rwa [Nat.pow_succ, Nat.mul_comm] at this
  have hlow : (⟨off, k⟩ : Dyad).Aligned := (Nat.dvd_mul_left ..).trans hdvd
  have hup : (⟨off, k⟩ : Dyad).buddy = ⟨off + 2 ^ k, k⟩ := by
    refine Dyad.ext ?_ rfl
    rcases buddy_cases hlow with ⟨h₁, -⟩ | ⟨h₁, h₂⟩
    · exact h₁
    · -- then both halves would start at a multiple of the size of the whole
      have hsize : (⟨off, k⟩ : Dyad).size = 2 ^ k := rfl
      have hpos : 0 < 2 ^ k := Nat.two_pow_pos k
      have hdiff : 2 * 2 ^ k ∣ 2 ^ k := by
        refine (Nat.dvd_add_right h₂).mp ?_
        rw [← hsize, h₁]
        exact hdvd
      exact absurd (Nat.le_of_dvd hpos hdiff) (by omega)
  rw [← hup, buddy_buddy]

/-- The parent starts with the lower half, and is the two halves together. -/
theorem parent_cases (hb : b.Aligned) :
    (b.parent.off = b.off ∧ b.buddy.off = b.off + b.size) ∨
      (b.parent.off = b.buddy.off ∧ b.buddy.off + b.size = b.off) := by
  have hpos := b.size_pos
  have hmin : b.parent.off = min b.off b.buddy.off := rfl
  rcases buddy_cases hb with ⟨h, -⟩ | ⟨h, -⟩
  · exact .inl ⟨by omega, h⟩
  · exact .inr ⟨by omega, h⟩

/-- The parent has both halves. -/
theorem parent_has (hb : b.Aligned) : b.parent.Has b.off ∧ b.parent.Has b.buddy.off := by
  have hpos := b.size_pos
  have hpsize := b.parent_size
  unfold Has
  rcases parent_cases hb with ⟨h₁, h₂⟩ | ⟨h₁, h₂⟩
  · omega
  · omega

theorem parent_aligned (hb : b.Aligned) : b.parent.Aligned := by
  unfold Aligned
  rw [parent_size]
  have hpos := b.size_pos
  have hmin : b.parent.off = min b.off b.buddy.off := rfl
  rcases buddy_cases hb with ⟨h, hd⟩ | ⟨h, hd⟩
  · rwa [hmin, Nat.min_eq_left (by omega)]
  · rwa [hmin, Nat.min_eq_right (by omega)]

end Dyad

open Dyad

/-! ### Partitions -/

/-- The blocks cover `[0, 2 ^ N)`, each point once. -/
structure Partition (N : ℕ) (B : Set Dyad) : Prop where
  aligned : ∀ b ∈ B, b.Aligned
  inside : ∀ b ∈ B, b.off + b.size ≤ 2 ^ N
  apart : ∀ b ∈ B, ∀ c ∈ B, b ≠ c → b.Apart c
  cover : ∀ x < 2 ^ N, ∃ b ∈ B, b.Has x

namespace Partition

variable {N : ℕ} {B : Set Dyad} {b c : Dyad} {x : ℕ}

theorem whole (N : ℕ) : Partition N {⟨0, N⟩} where
  aligned := by
    rintro _ rfl
    exact Nat.dvd_zero _
  inside := by
    rintro _ rfl
    simp [size]
  apart := by
    rintro _ rfl _ rfl h
    exact absurd rfl h
  cover := fun x hx => ⟨_, rfl, Nat.zero_le x, by simpa [size] using hx⟩

theorem order_le (h : Partition N B) (hb : b ∈ B) : b.order ≤ N := by
  have hle : 2 ^ b.order ≤ 2 ^ N := (Nat.le_add_left ..).trans (h.inside b hb)
  exact (Nat.pow_le_pow_iff_right (by decide)).mp hle

/-- A point names a block. -/
theorem eq_of_has (h : Partition N B) (hb : b ∈ B) (hc : c ∈ B) (hbx : b.Has x) (hcx : c.Has x) : b = c := by
  by_contra hne
  exact not_apart_of_has hbx hcx (h.apart b hb c hc hne)

/-- And so does the start. -/
theorem eq_of_off (h : Partition N B) (hb : b ∈ B) (hc : c ∈ B) (ho : b.off = c.off) : b = c := by
  refine h.eq_of_has hb hc b.has_off ?_
  rw [ho]
  exact c.has_off

/-- A block that is not the whole has room for its buddy. -/
theorem parent_inside (h : Partition N B) (hb : b ∈ B) (hN : b.order < N) :
    b.parent.off + b.parent.size ≤ 2 ^ N := by
  have hal := parent_aligned (h.aligned b hb)
  have hin := h.inside b hb
  have hpos := b.size_pos
  have hdvd : b.parent.size ∣ 2 ^ N := Nat.pow_dvd_pow 2 hN
  have hlt : b.parent.off < 2 ^ N := by
    rcases parent_cases (h.aligned b hb) with ⟨h₁, -⟩ | ⟨h₁, h₂⟩
    · omega
    · omega
  refine Nat.le_of_lt_add_of_dvd ?_ (Nat.dvd_add hal (Nat.dvd_refl _)) hdvd
  omega

/-- **Where the buddy of a block would start, a block starts**, and it is not larger. -/
theorem at_buddy (h : Partition N B) (hb : b ∈ B) (hN : b.order < N) :
    ∃ c ∈ B, c.off = b.buddy.off ∧ c.order ≤ b.order := by
  have hal := h.aligned b hb
  have hin := h.parent_inside hb hN
  obtain ⟨hparent, hbuddy⟩ := parent_has hal
  obtain ⟨c, hc, hcx⟩ := h.cover b.buddy.off (by have := hbuddy.2; omega)
  have hord : c.order ≤ b.order := by
    -- a larger block would have the whole parent, and so the block itself
    by_contra hlt
    have hnest := nested (parent_aligned hal) (h.aligned c hc) (by rw [parent_order]; omega)
      (not_apart_of_has hbuddy hcx)
    have hcb : c.Has b.off := by
      unfold Has at hparent ⊢
      omega
    obtain rfl := h.eq_of_has hc hb hcb b.has_off
    exact hlt le_rfl
  have hnest := nested (h.aligned c hc) (buddy_aligned hal) hord (not_apart_of_has hcx b.buddy.has_off)
  exact ⟨c, hc, le_antisymm hcx.1 hnest.1, hord⟩

/-- A block may be replaced by its halves. -/
theorem split {off k : ℕ} (h : Partition N B) (hb : ⟨off, k + 1⟩ ∈ B) :
    Partition N {c | (c ∈ B ∧ c ≠ ⟨off, k + 1⟩) ∨ c = ⟨off, k⟩ ∨ c = ⟨off + 2 ^ k, k⟩} := by
  have hsize : (⟨off, k + 1⟩ : Dyad).size = 2 * 2 ^ k := by rw [size, Nat.pow_succ, Nat.mul_comm]
  have hpos : 0 < 2 ^ k := Nat.two_pow_pos k
  have hin : off + 2 * 2 ^ k ≤ 2 ^ N := hsize ▸ h.inside _ hb
  have hal : 2 ^ k ∣ off := by
    have := h.aligned _ hb
    rw [Aligned, hsize] at this
    exact (Nat.dvd_mul_left ..).trans this
  -- the other blocks do not overlap with either half
  have hother : ∀ c ∈ B, c ≠ ⟨off, k + 1⟩ → c.off + c.size ≤ off ∨ off + 2 * 2 ^ k ≤ c.off := by
    intro c hc hne
    have := h.apart c hc _ hb hne
    rwa [Apart, hsize] at this
  refine ⟨?_, ?_, ?_, fun x hx => ?_⟩
  · rintro c (⟨hc, -⟩ | rfl | rfl)
    · exact h.aligned c hc
    · exact hal
    · exact Nat.dvd_add hal (Nat.dvd_refl _)
  · rintro c (⟨hc, -⟩ | rfl | rfl)
    · exact h.inside c hc
    · simp only [size]
      omega
    · simp only [size]
      omega
  · rintro c (⟨hc, hcne⟩ | rfl | rfl) d (⟨hd, hdne⟩ | rfl | rfl) hne
    · exact h.apart c hc d hd hne
    · have := hother c hc hcne
      simp only [Apart, size] at this ⊢
      omega
    · have := hother c hc hcne
      simp only [Apart, size] at this ⊢
      omega
    · have := hother d hd hdne
      simp only [Apart, size] at this ⊢
      omega
    · exact absurd rfl hne
    · exact .inl le_rfl
    · have := hother d hd hdne
      simp only [Apart, size] at this ⊢
      omega
    · exact .inr le_rfl
    · exact absurd rfl hne
  · obtain ⟨c, hc, hcx⟩ := h.cover x hx
    by_cases hcb : c = ⟨off, k + 1⟩
    · subst hcb
      obtain ⟨h₁, h₂⟩ := hcx
      rw [hsize] at h₂
      by_cases hlow : x < off + 2 ^ k
      · exact ⟨_, .inr (.inl rfl), h₁, hlow⟩
      · refine ⟨_, .inr (.inr rfl), ?_, ?_⟩
        · simp only
          omega
        · simp only [size] at h₁ h₂ ⊢
          omega
    · exact ⟨c, .inl ⟨hc, hcb⟩, hcx⟩

/-- Two buddies may be replaced by the block they make. -/
theorem merge (h : Partition N B) (hb : b ∈ B) (hbuddy : b.buddy ∈ B) (hN : b.order < N) :
    Partition N {c | (c ∈ B ∧ c ≠ b ∧ c ≠ b.buddy) ∨ c = b.parent} := by
  have hal := h.aligned b hb
  have hpos := b.size_pos
  have hpsize := b.parent_size
  have hin := h.parent_inside hb hN
  have hcases := parent_cases hal
  -- the other blocks do not overlap with the two together
  have hother : ∀ c ∈ B, c ≠ b → c ≠ b.buddy → c.Apart b.parent := by
    intro c hc h₁ h₂
    have hcpos := c.size_pos
    have hb₁ := h.apart c hc b hb h₁
    have hb₂ := h.apart c hc _ hbuddy h₂
    unfold Apart at hb₁ hb₂ ⊢
    rw [buddy_size] at hb₂
    omega
  refine ⟨?_, ?_, ?_, fun x hx => ?_⟩
  · rintro c (⟨hc, -⟩ | rfl)
    · exact h.aligned c hc
    · exact parent_aligned hal
  · rintro c (⟨hc, -⟩ | rfl)
    · exact h.inside c hc
    · exact hin
  · rintro c (⟨hc, h₁, h₂⟩ | rfl) d (⟨hd, h₃, h₄⟩ | rfl) hne
    · exact h.apart c hc d hd hne
    · exact hother c hc h₁ h₂
    · exact (hother d hd h₃ h₄).symm
    · exact absurd rfl hne
  · obtain ⟨c, hc, hcx⟩ := h.cover x hx
    unfold Has at hcx
    by_cases hcb : c = b ∨ c = b.buddy
    · refine ⟨b.parent, .inr rfl, ?_⟩
      unfold Has
      rcases hcb with rfl | rfl
      · omega
      · rw [buddy_size] at hcx
        omega
    · exact ⟨c, .inl ⟨hc, fun he => hcb (.inl he), fun he => hcb (.inr he)⟩, hcx⟩

end Partition

/-! ### Free blocks -/

/-- No two of the blocks `F`, the whole apart, are buddies. -/
def Coalesced (N : ℕ) (F : Set Dyad) : Prop := ∀ b ∈ F, b.order < N → b.buddy ∉ F

namespace Coalesced

variable {N : ℕ} {F F' A : Set Dyad} {b d : Dyad}

theorem subset (h : Coalesced N F) (hsub : F' ⊆ F) : Coalesced N F' :=
  fun b hb hN hbuddy => h b (hsub hb) hN (hsub hbuddy)

/-- A block may become free when its buddy is not. -/
theorem insert (h : Coalesced N F) (hb : b.order < N → b.buddy ∉ F) : Coalesced N (insert b F) := by
  have hself : b.buddy ≠ b := by
    intro he
    have hoff : b.off ^^^ 2 ^ b.order = b.off := congrArg Dyad.off he
    have hzero := congrArg (b.off ^^^ ·) hoff
    simp only [Nat.xor_xor_cancel_left, Nat.xor_self] at hzero
    exact (Nat.two_pow_pos b.order).ne' hzero
  rintro c (rfl | hc) hN (hbuddy | hbuddy)
  · exact hself hbuddy
  · exact hb hN hbuddy
  · refine hb ?_ ?_
    · rwa [← hbuddy, buddy_order]
    · rwa [← hbuddy, buddy_buddy]
  · exact h c hc hN hbuddy

/-- **Free blocks are as large as they can be**: where no other block is, no free block lies in a larger one. -/
theorem not_inside (h : Coalesced N F) (hp : Partition N (F ∪ A)) (hd : d.Aligned) (hdN : d.order ≤ N)
    (hapart : ∀ a ∈ A, a.Apart d) (hb : b ∈ F) (hlt : b.order < d.order) : ¬ d.Has b.off := by
  intro hin
  induction hk : b.order using Nat.strongRecOn generalizing b with
  | ind k ih =>
    have hal := hp.aligned b (.inl hb)
    obtain ⟨c, hc, hoff, hord⟩ := hp.at_buddy (.inl hb) (by omega)
    -- the block at the buddy's place is in `d` too, so it is free
    obtain ⟨hself, hother⟩ := parent_has hal
    have hnest := nested (parent_aligned hal) hd (by rw [parent_order]; omega) (not_apart_of_has hself hin)
    have hcin : d.Has c.off := by
      unfold Has at hother ⊢
      omega
    have hcF : c ∈ F := hc.resolve_right fun hA => not_apart_of_has c.has_off hcin (hapart c hA)
    by_cases heq : c.order = b.order
    · have hcb : c = b.buddy := Dyad.ext hoff heq
      exact h b hb (by omega) (hcb ▸ hcF)
    · exact ih c.order (by omega) hcF (by omega) hcin rfl

/-- **The free blocks follow from the others.** -/
theorem unique (h : Coalesced N F) (h' : Coalesced N F') (hp : Partition N (F ∪ A)) (hp' : Partition N (F' ∪ A))
    (hdis : Disjoint F A) (hdis' : Disjoint F' A) : F = F' := by
  have hsub : ∀ {G G' : Set Dyad}, Coalesced N G → Coalesced N G' → Partition N (G ∪ A) → Partition N (G' ∪ A) →
      Disjoint G A → Disjoint G' A → G ⊆ G' := by
    intro G G' hG hG' hpG hpG' hdG hdG' b hb
    have hbpos := b.size_pos
    have hbin := hpG.inside b (.inl hb)
    have hhas := b.has_off
    have hapart : ∀ a ∈ A, a.Apart b := by
      intro a ha
      refine hpG.apart a (.inr ha) b (.inl hb) ?_
      rintro rfl
      exact Set.disjoint_left.mp hdG hb ha
    obtain ⟨c, hc, hcx⟩ := hpG'.cover b.off (by omega)
    have hcG : c ∈ G' := hc.resolve_right fun hA => not_apart_of_has hcx hhas (hapart c hA)
    have hapart' : ∀ a ∈ A, a.Apart c := by
      intro a ha
      refine hpG'.apart a (.inr ha) c (.inl hcG) ?_
      rintro rfl
      exact Set.disjoint_left.mp hdG' hcG ha
    have hbal := hpG.aligned b (.inl hb)
    have hcal := hpG'.aligned c (.inl hcG)
    rcases Nat.lt_trichotomy b.order c.order with hlt | heq | hgt
    · exact absurd hcx (hG.not_inside hpG hcal (hpG'.order_le (.inl hcG)) hapart' hb hlt)
    · have h₁ := nested hbal hcal heq.le (not_apart_of_has hhas hcx)
      obtain rfl : b = c := Dyad.ext (le_antisymm (by have := size_le_size heq.ge; omega) h₁.1) heq
      exact hcG
    · have h₁ := nested hcal hbal hgt.le (not_apart_of_has hcx hhas)
      have hcpos := c.size_pos
      refine absurd ?_ (hG'.not_inside hpG' hbal (hpG.order_le (.inl hb)) hapart hcG hgt)
      unfold Has
      omega
  exact Set.Subset.antisymm (hsub h h' hp hp' hdis hdis') (hsub h' h hp' hp hdis' hdis)

end Coalesced

end PetLab.Lib
