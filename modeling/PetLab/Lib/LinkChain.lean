import Mathlib.Data.List.Basic
import Mathlib.Data.List.Nodup
import Mathlib.Logic.Function.Basic

/-!
# Chains of links

`Linked next l`: the list `l` is a chain in a memory whose cells point to one another by
`next`. Each cell of `l` points to the one after it, and the last one nowhere. A chain
without repetitions grows at its end by one write (`Linked.concat`), after which every link
that was there is still there (`Linked.next_of_isPrefix`).
-/

namespace PetLab.Lib

variable {α : Type*}

/-- Each cell points to the one after it, the last one nowhere. -/
def Linked (next : α → Option α) (l : List α) : Prop := ∀ i a, l[i]? = some a → next a = l[i + 1]?

section

variable {next next' : α → Option α} {l l' : List α} {a b q : α}

/-- What a list has at a place, every list it grows into has there too. -/
theorem getElem?_of_isPrefix (hpre : l <+: l') {i : ℕ} (hi : l[i]? = some a) : l'[i]? = some a := by
  obtain ⟨l₂, rfl⟩ := hpre
  rw [List.getElem?_append_left (List.getElem?_eq_some_iff.mp hi).1]
  exact hi

/-- Where a link of the chain leads is in the chain. -/
theorem Linked.mem_of_next (h : Linked next l) (ha : a ∈ l) (hb : next a = some b) : b ∈ l := by
  obtain ⟨i, hi⟩ := List.mem_iff_getElem?.mp ha
  exact List.mem_of_getElem? ((h i a hi).symm.trans hb)

/-- Only the last cell points nowhere. -/
theorem Linked.last_of_next (h : Linked next l) {i : ℕ} (hi : l[i]? = some a) (ha : next a = none) :
    l.length = i + 1 := by
  have hlt := (List.getElem?_eq_some_iff.mp hi).1
  have hle := List.getElem?_eq_none_iff.mp ((h i a hi).symm.trans ha)
  omega

/-- Two cells of the chain that point to the same one are the same. -/
theorem Linked.inj (h : Linked next l) (hnd : l.Nodup) (ha : a ∈ l) (hb : b ∈ l) (hne : next a ≠ none)
    (heq : next a = next b) : a = b := by
  obtain ⟨i, hi⟩ := List.mem_iff_getElem?.mp ha
  obtain ⟨j, hj⟩ := List.mem_iff_getElem?.mp hb
  rw [h i a hi] at hne
  have hlt : i + 1 < l.length := by
    apply Nat.lt_of_not_le
    exact fun hle => hne (List.getElem?_eq_none_iff.mpr hle)
  have hij : i + 1 = j + 1 := (List.getElem?_inj hlt hnd).mp ((h i a hi).symm.trans (heq.trans (h j b hj)))
  rw [Nat.succ_inj.mp hij] at hi
  exact Option.some.inj (hi.symm.trans hj)

/-- Writes off the chain do not touch it. -/
theorem Linked.congr (h : Linked next l) (heq : ∀ a ∈ l, next' a = next a) : Linked next' l := by
  intro i a hi
  rw [heq a (List.mem_of_getElem? hi)]
  exact h i a hi

/-- **Growth**: the last cell is made to point to a new one. -/
theorem Linked.concat [DecidableEq α] (h : Linked next l) (hnd : l.Nodup) (ha : a ∈ l) (hnone : next a = none)
    (hq : q ∉ l) (hqnone : next q = none) : Linked (Function.update next a (some q)) (l ++ [q]) := by
  obtain ⟨j, hj⟩ := List.mem_iff_getElem?.mp ha
  have hlen := h.last_of_next hj hnone
  intro i b hi
  have hilt := (List.getElem?_eq_some_iff.mp hi).1
  rw [List.length_append, List.length_singleton] at hilt
  rcases Nat.lt_or_ge i l.length with hlt | hge
  · rw [List.getElem?_append_left hlt] at hi
    by_cases hb : b = a
    · -- the cell that was the last one
      subst hb
      have hij : i = j := (List.getElem?_inj hlt hnd).mp (hi.trans hj.symm)
      rw [Function.update_self, List.getElem?_append_right (by omega)]
      simp [hij, hlen]
    · -- a cell before it
      have hne : i ≠ j := by
        rintro rfl
        exact hb (Option.some.inj (hi.symm.trans hj))
      rw [Function.update_of_ne hb, h i b hi, List.getElem?_append_left (by omega)]
  · -- the new cell
    obtain rfl : i = l.length := by omega
    have hbq : b = q := by simpa using hi.symm
    subst hbq
    have hne : b ≠ a := by
      rintro rfl
      exact hq ha
    rw [Function.update_of_ne hne, hqnone]
    simp

/-- A link that is in a chain is in every chain it grows into. -/
theorem Linked.next_of_isPrefix (h : Linked next l) (h' : Linked next' l') (hpre : l <+: l') (ha : a ∈ l)
    (hb : next a = some b) : next' a = some b := by
  obtain ⟨i, hi⟩ := List.mem_iff_getElem?.mp ha
  rw [h' i a (getElem?_of_isPrefix hpre hi)]
  exact getElem?_of_isPrefix hpre ((h i a hi).symm.trans hb)

end

end PetLab.Lib
