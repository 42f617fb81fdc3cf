import Mathlib.Algebra.Ring.Nat
import Mathlib.Algebra.BigOperators.Group.List.Basic
import Mathlib.Data.List.Basic
import Mathlib.Data.List.Chain
import Mathlib.Data.List.Pairwise

/-!
# Lists of segments that tile an interval

A segment is anything with a `start` and a `size`. `Tiles start size a b xs` says
that the segments `xs`, in list order, cover `[a, b)` without gap or overlap; a
segment may be empty. Two adjacent segments can be merged into one and one split
into two (`tiles_merge`), and a whole block replaced (`Tiles.block`); the segments of a tiling lie in the interval
(`Tiles.mem_bounds`) and end before the later ones start (`Tiles.pairwise`), and each is followed and
preceded by a neighbour or the end of the interval (`Tiles.next`, `Tiles.prev`).

Where some segments are marked and no two neighbours are unmarked, a tiling by segments
that are not empty is determined by its marked ones (`Tiles.unique`): an unmarked
segment is the whole gap between two of them.
-/

namespace PetLab.Lib

variable {α : Type*} (start size : α → ℕ)

/-- The segments `xs`, in order, cover `[a, b)` exactly. -/
def Tiles (a b : ℕ) : List α → Prop
  | [] => a = b
  | x :: xs => start x = a ∧ Tiles (a + size x) b xs

variable {start size} {a b c : ℕ} {x y z : α} {xs ys : List α}

@[simp] theorem tiles_nil : Tiles start size a b ([] : List α) ↔ a = b := Iff.rfl

@[simp] theorem tiles_cons :
    Tiles start size a b (x :: xs) ↔ start x = a ∧ Tiles start size (a + size x) b xs := Iff.rfl

theorem tiles_append :
    Tiles start size a c (xs ++ ys) ↔ ∃ b, Tiles start size a b xs ∧ Tiles start size b c ys := by
  induction xs generalizing a with
  | nil => simp
  | cons x xs ih =>
    simp only [List.cons_append, tiles_cons, ih]
    constructor
    · rintro ⟨hx, b, h₁, h₂⟩
      exact ⟨b, ⟨hx, h₁⟩, h₂⟩
    · rintro ⟨b, ⟨hx, h₁⟩, h₂⟩
      exact ⟨hx, b, h₁, h₂⟩

theorem Tiles.le (h : Tiles start size a b xs) : a ≤ b := by
  induction xs generalizing a with
  | nil => exact Nat.le_of_eq h
  | cons x xs ih =>
    have := ih h.2
    omega

/-- A segment of a tiling lies in the interval. -/
theorem Tiles.mem_bounds (h : Tiles start size a b xs) (hx : x ∈ xs) :
    a ≤ start x ∧ start x + size x ≤ b := by
  induction xs generalizing a with
  | nil => simp at hx
  | cons y ys ih =>
    obtain ⟨hy, hys⟩ := h
    rcases List.mem_cons.mp hx with rfl | hx
    · have := hys.le
      omega
    · have := ih hys hx
      omega

/-- Every segment of a tiling ends before the later ones start. -/
theorem Tiles.pairwise (h : Tiles start size a b xs) :
    xs.Pairwise fun x y => start x + size x ≤ start y := by
  induction xs generalizing a with
  | nil => exact .nil
  | cons x xs ih =>
    obtain ⟨hx, hxs⟩ := h
    refine .cons (fun y hy => ?_) (ih hxs)
    have := (hxs.mem_bounds hy).1
    omega

/-- Different segments of a tiling do not overlap. -/
theorem Tiles.disjoint (h : Tiles start size a b xs) (hx : x ∈ xs) (hy : y ∈ xs) (hne : x ≠ y) :
    start x + size x ≤ start y ∨ start y + size y ≤ start x := by
  have hsymm : Std.Symm fun x y => start x + size x ≤ start y ∨ start y + size y ≤ start x := ⟨fun _ _ => Or.symm⟩
  have hpair : xs.Pairwise fun x y => start x + size x ≤ start y ∨ start y + size y ≤ start x :=
    h.pairwise.imp Or.inl
  exact hpair.forall hx hy hne

/-- In a tiling by multiples of `d` that starts at one, every segment does. -/
theorem Tiles.dvd_start {d : ℕ} (h : Tiles start size a b xs) (ha : d ∣ a) (hsize : ∀ x ∈ xs, d ∣ size x)
    (hx : x ∈ xs) : d ∣ start x := by
  induction xs generalizing a with
  | nil => simp at hx
  | cons y ys ih =>
    obtain ⟨hy, hys⟩ := h
    rcases List.mem_cons.mp hx with rfl | hx
    · rw [hy]
      exact ha
    · exact ih hys (Nat.dvd_add ha (hsize y List.mem_cons_self)) (fun z hz => hsize z (List.mem_cons_of_mem _ hz)) hx

theorem Tiles.sum_eq (h : Tiles start size a b xs) : a + (xs.map size).sum = b := by
  induction xs generalizing a with
  | nil => simpa using h
  | cons x xs ih =>
    rw [List.map_cons, List.sum_cons, ← Nat.add_assoc]
    exact ih h.2

/-- A block of adjacent segments can be replaced by one of the same extent. -/
theorem Tiles.block (h : Tiles start size a b xs) (hne : xs ≠ [])
    (hstart : ∀ x ∈ xs.head?, start z = start x) (hsize : size z = (xs.map size).sum) :
    Tiles start size a b [z] := by
  obtain ⟨x, xs, rfl⟩ := List.exists_cons_of_ne_nil hne
  have hx : start z = start x := hstart x (by simp)
  exact ⟨hx.trans h.1, by rw [hsize]; exact h.sum_eq⟩

/-- Two adjacent segments and the one they make: either may stand for the other. -/
theorem tiles_merge (hstart : start z = start x) (hsize : size z = size x + size y) :
    Tiles start size a b (x :: y :: ys) ↔
      Tiles start size a b (z :: ys) ∧ start y = a + size x := by
  simp only [tiles_cons, hstart, hsize, Nat.add_assoc]
  tauto

/-- Every point of the interval is in a segment. -/
theorem Tiles.exists_mem (h : Tiles start size a b xs) {v : ℕ} (ha : a ≤ v) (hb : v < b) :
    ∃ x ∈ xs, start x ≤ v ∧ v < start x + size x := by
  induction xs generalizing a with
  | nil =>
    rw [tiles_nil] at h
    omega
  | cons x xs ih =>
    obtain ⟨hx, hxs⟩ := h
    by_cases hv : v < a + size x
    · exact ⟨x, List.mem_cons_self, by omega, by omega⟩
    · obtain ⟨y, hy, hyv⟩ := ih hxs (by omega)
      exact ⟨y, List.mem_cons_of_mem _ hy, hyv⟩

section Neighbours

variable {R : α → α → Prop}

/-- A segment ends with the interval, or where a neighbour starts. -/
theorem Tiles.next (h : Tiles start size a b xs) (hR : xs.IsChain R) (hx : x ∈ xs) :
    start x + size x = b ∨ ∃ y ∈ xs, start y = start x + size x ∧ R x y := by
  obtain ⟨ys, zs, rfl⟩ := List.append_of_mem hx
  obtain ⟨c, -, hc, hzs⟩ := tiles_append.mp h
  rw [← hc] at hzs
  cases zs with
  | nil => exact .inl hzs
  | cons z zs =>
    refine .inr ⟨z, by simp, hzs.1, ?_⟩
    exact (List.isChain_split.mp hR).2.rel_head? (by simp)

/-- A segment starts with the interval, or where a neighbour ends. -/
theorem Tiles.prev (h : Tiles start size a b xs) (hR : xs.IsChain R) (hx : x ∈ xs) :
    start x = a ∨ ∃ y ∈ xs, start y + size y = start x ∧ R y x := by
  obtain ⟨ys, zs, rfl⟩ := List.append_of_mem hx
  obtain ⟨c, hys, hc, -⟩ := tiles_append.mp h
  rcases List.eq_nil_or_concat ys with rfl | ⟨ys, y, rfl⟩
  · exact .inl (hc.trans (tiles_nil.mp hys).symm)
  · rw [List.concat_eq_append] at hys hR ⊢
    obtain ⟨d, -, hd, hend⟩ := tiles_append.mp hys
    rw [tiles_nil] at hend
    refine .inr ⟨y, by simp, by omega, ?_⟩
    rw [List.append_assoc] at hR
    exact (List.isChain_split.mp hR).2.rel_head? (by simp)

end Neighbours

/-! ### Dropping empty segments -/

theorem Tiles.filter {p : α → Bool} (h : Tiles start size a b xs) (hp : ∀ x ∈ xs, p x = false → size x = 0) :
    Tiles start size a b (xs.filter p) := by
  induction xs generalizing a with
  | nil => exact h
  | cons x xs ih =>
    obtain ⟨hx, hxs⟩ := h
    have htail := ih hxs fun y hy => hp y (List.mem_cons_of_mem _ hy)
    cases hpx : p x with
    | true =>
      rw [List.filter_cons_of_pos hpx]
      exact ⟨hx, htail⟩
    | false =>
      rw [List.filter_cons_of_neg (by simp [hpx])]
      rwa [hp x List.mem_cons_self hpx, Nat.add_zero] at htail

/-- Dropping elements that have `F` brings no two others that have it together: the
ones around them do not. -/
theorem isChain_filter {F : α → Prop} {p : α → Bool} (h : xs.IsChain fun x y => ¬ (F x ∧ F y))
    (hp : ∀ x ∈ xs, p x = false → F x) :
    ((xs.filter p).IsChain fun x y => ¬ (F x ∧ F y)) ∧ ∀ y ∈ (xs.filter p).head?, F y → y ∈ xs.head? := by
  -- the second part is what the induction needs of the rest of the list
  induction xs with
  | nil => simp
  | cons x xs ih =>
    obtain ⟨hchain, hhead⟩ := ih h.tail fun y hy => hp y (List.mem_cons_of_mem _ hy)
    cases hpx : p x with
    | true =>
      rw [List.filter_cons_of_pos hpx]
      refine ⟨List.isChain_cons.mpr ⟨fun y hy hF => ?_, hchain⟩, by simp⟩
      exact h.rel_head? (hhead y hy hF.2) hF
    | false =>
      rw [List.filter_cons_of_neg (by simp [hpx])]
      refine ⟨hchain, fun y hy hF => ?_⟩
      exact absurd ⟨hp x List.mem_cons_self hpx, hF⟩ (h.rel_head? (hhead y hy hF))

/-! ### A tiling is determined by its marked segments -/

section

variable {mark : α → Prop} {x y : α}

/-- The segments after a first one that is not empty start later than it. -/
theorem Tiles.eq_head (h : Tiles start size a b (x :: xs)) (hx : 0 < size x) {z : α} (hz : z ∈ x :: xs)
    (hstart : start z = a) : z = x := by
  rcases List.mem_cons.mp hz with rfl | hz
  · rfl
  · have := (h.2.mem_bounds hz).1
    omega

/-- How the first segments of two tilings compare, when the marked segments of the second
are segments of the first: if the second's is marked, they are the same, and if
neither is, then the first's is the shorter. -/
theorem Tiles.head_le (hx : Tiles start size a b (x :: xs)) (hy : Tiles start size a b (y :: ys))
    (hposx : 0 < size x) (hposy : ∀ z ∈ y :: ys, 0 < size z)
    (hchain : (y :: ys).IsChain fun u v => ¬ (¬ mark u ∧ ¬ mark v))
    (hmark : ∀ z ∈ y :: ys, mark z → ∃ w ∈ x :: xs, mark w ∧ start w = start z ∧ size w = size z) :
    (mark y → mark x ∧ size x = size y) ∧ (¬ mark x → ¬ mark y → size x ≤ size y) := by
  constructor
  · intro hm
    obtain ⟨w, hw, hmw, hstart, hsize⟩ := hmark y List.mem_cons_self hm
    obtain rfl := hx.eq_head hposx hw (hstart.trans hy.1)
    exact ⟨hmw, hsize⟩
  · intro hnx hny
    by_contra hlt
    -- the second's next segment is marked, and starts inside the first's
    cases ys with
    | nil =>
      have := hx.2.le
      have := tiles_nil.mp hy.2
      omega
    | cons z zs =>
      have hmz : mark z := by
        by_contra hnz
        exact hchain.rel_head? (by simp) ⟨hny, hnz⟩
      obtain ⟨w, hw, hmw, hstart, -⟩ := hmark z (by simp) hmz
      have hz : start z = a + size y := hy.2.1
      rcases List.mem_cons.mp hw with rfl | hw
      · exact hnx hmw
      · have := (hx.2.mem_bounds hw).1
        omega

theorem Tiles.marks_tail (hx : Tiles start size a b (x :: xs)) (hy : Tiles start size a b (y :: ys))
    (hposx : 0 < size x) (hposy : 0 < size y)
    (hmark : ∀ z ∈ y :: ys, mark z → ∃ w ∈ x :: xs, mark w ∧ start w = start z ∧ size w = size z) :
    ∀ z ∈ ys, mark z → ∃ w ∈ xs, mark w ∧ start w = start z ∧ size w = size z := by
  intro z hz hm
  obtain ⟨w, hw, hmw, hstart, hsize⟩ := hmark z (List.mem_cons_of_mem _ hz) hm
  have := (hy.2.mem_bounds hz).1
  rcases List.mem_cons.mp hw with rfl | hw
  · have := hx.1
    omega
  · exact ⟨w, hw, hmw, hstart, hsize⟩

/-- **A tiling is determined by its marked segments**, if none of its segments is empty
and no two neighbours are unmarked. -/
theorem Tiles.unique (hx : Tiles start size a b xs) (hy : Tiles start size a b ys)
    (hposx : ∀ z ∈ xs, 0 < size z) (hposy : ∀ z ∈ ys, 0 < size z)
    (hchainx : xs.IsChain fun u v => ¬ (¬ mark u ∧ ¬ mark v))
    (hchainy : ys.IsChain fun u v => ¬ (¬ mark u ∧ ¬ mark v))
    (hxy : ∀ z ∈ xs, mark z → ∃ w ∈ ys, mark w ∧ start w = start z ∧ size w = size z)
    (hyx : ∀ z ∈ ys, mark z → ∃ w ∈ xs, mark w ∧ start w = start z ∧ size w = size z) :
    List.Forall₂ (fun u v => start u = start v ∧ size u = size v ∧ (mark u ↔ mark v)) xs ys := by
  induction xs generalizing a ys with
  | nil =>
    cases ys with
    | nil => exact .nil
    | cons y ys =>
      have := hposy y List.mem_cons_self
      have := hy.2.le
      have := tiles_nil.mp hx
      omega
  | cons x xs ih =>
    cases ys with
    | nil =>
      have := hposx x List.mem_cons_self
      have := hx.2.le
      have := tiles_nil.mp hy
      omega
    | cons y ys =>
      have hx₀ := hposx x List.mem_cons_self
      have hy₀ := hposy y List.mem_cons_self
      obtain ⟨h₁, h₂⟩ := hx.head_le hy hx₀ hposy hchainy hyx
      obtain ⟨h₃, h₄⟩ := hy.head_le hx hy₀ hposx hchainx hxy
      have hiff : mark x ↔ mark y := ⟨fun h => (h₃ h).1, fun h => (h₁ h).1⟩
      have hsize : size x = size y := by
        by_cases hm : mark y
        · exact (h₁ hm).2
        · exact Nat.le_antisymm (h₂ (hiff.not.mpr hm) hm) (h₄ hm (hiff.not.mpr hm))
      refine .cons ⟨hx.1.trans hy.1.symm, hsize, hiff⟩ (ih hx.2 ?_ ?_ ?_ hchainx.tail hchainy.tail ?_ ?_)
      · rw [hsize]
        exact hy.2
      · exact fun z hz => hposx z (List.mem_cons_of_mem _ hz)
      · exact fun z hz => hposy z (List.mem_cons_of_mem _ hz)
      · exact hy.marks_tail hx hy₀ hx₀ hxy
      · exact hx.marks_tail hy hx₀ hy₀ hyx

end

theorem map_eq_map_of_forall₂ {β : Type*} {R : α → α → Prop} {f : α → β} (h : List.Forall₂ R xs ys)
    (hf : ∀ u ∈ xs, ∀ v ∈ ys, R u v → f u = f v) : xs.map f = ys.map f := by
  induction h with
  | nil => rfl
  | cons hR _ ih =>
    rw [List.map_cons, List.map_cons, hf _ List.mem_cons_self _ List.mem_cons_self hR, ih]
    exact fun u hu v hv => hf u (List.mem_cons_of_mem _ hu) v (List.mem_cons_of_mem _ hv)

end PetLab.Lib
