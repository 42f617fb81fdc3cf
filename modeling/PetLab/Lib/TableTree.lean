import Mathlib.Data.List.Induction
import Mathlib.Data.List.Infix

/-!
# Trees of tables in a store

A store of tables, each with entries that point to other tables or to nothing, is a
function `child : T → I → Option T`. From a root table, a path of indices leads to
a table or gets lost on the way (`descend`). Nothing in the store says that it is a
tree: two paths may meet in one table, and then an entry changed on one path
changes what the other leads to.

`Unshared` is what rules that out for the paths one is responsible for (`own`): no
table such a path leads to is reached by another path to a table. Under it, writing
one entry of such a table changes exactly the paths through that entry
(`Unshared.descend_of_write`), and a new table that no path leads to can be linked
in (`Unshared.link`) and an entry cleared (`Unshared.clear`).

Paths of length at most `depth` lead to tables; what their last entries point to is
a leaf, which is a `T` like the tables but need not be unshared.
-/

namespace PetLab.Lib

variable {T I : Type*}

/-- The table, or leaf, that a path of indices leads to. -/
def descend (child : T → I → Option T) (t : T) : List I → Option T
  | [] => some t
  | i :: is => (child t i).bind fun u => descend child u is

variable {child child' : T → I → Option T} {root t u f : T} {i k : I} {is js ks : List I}

@[simp] theorem descend_nil : descend child t ([] : List I) = some t := rfl

theorem descend_cons : descend child t (i :: is) = (child t i).bind fun u => descend child u is := rfl

theorem descend_append :
    descend child t (is ++ js) = (descend child t is).bind fun u => descend child u js := by
  induction is generalizing t with
  | nil => rfl
  | cons i is ih =>
    simp only [List.cons_append, descend_cons]
    cases child t i with
    | none => rfl
    | some u => exact ih

theorem descend_concat : descend child t (is ++ [i]) = (descend child t is).bind fun u => child u i := by
  rw [descend_append]
  simp only [descend_cons, descend_nil, Option.bind_fun_some]

/-- A path leads to where it did when the entries it reads are the same. -/
theorem descend_congr (h : ∀ is k u, is ++ [k] <+: js → descend child root is = some u → child' u k = child u k) :
    descend child' root js = descend child root js := by
  induction js using List.reverseRecOn with
  | nil => rfl
  | append_singleton is k ih =>
    rw [descend_concat, descend_concat, ih fun is' k' u hp => h is' k' u (hp.trans (List.prefix_append ..))]
    cases hu : descend child root is with
    | none => rfl
    | some u => exact h is k u (List.prefix_refl _) hu

/-- A store with fewer entries has fewer paths. -/
theorem descend_mono (h : ∀ t i u, child' t i = some u → child t i = some u)
    (hu : descend child' t is = some u) : descend child t is = some u := by
  induction is generalizing t with
  | nil => exact hu
  | cons i is ih =>
    rw [descend_cons] at hu ⊢
    obtain ⟨v, hv, hu⟩ := Option.bind_eq_some_iff.mp hu
    rw [h t i v hv]
    exact ih hu

variable {depth : ℕ} {own : List I → Prop}

/-- The paths whose ends must not be met by an owned path: those to tables, and the
owned ones. -/
def Watched (depth : ℕ) (own : List I → Prop) (js : List I) : Prop := js.length ≤ depth ∨ own js

/-- No table that an owned path leads to is reached by another path to a table, or
by another owned path. -/
def Unshared (child : T → I → Option T) (root : T) (depth : ℕ) (own : List I → Prop) : Prop :=
  ∀ is js t, own is → Watched depth own js → descend child root is = some t →
    descend child root js = some t → is = js

/-- `f` is not where a watched path leads. -/
def Fresh (child : T → I → Option T) (root : T) (depth : ℕ) (own : List I → Prop) (f : T) : Prop :=
  ∀ js, Watched depth own js → descend child root js ≠ some f

/-- The two stores differ, among the tables in the tree, only in entry `i` of `t`. -/
def WriteAt (child child' : T → I → Option T) (root : T) (depth : ℕ) (t : T) (i : I) : Prop :=
  ∀ js u k, js.length ≤ depth → descend child root js = some u → (u = t → k ≠ i) → child' u k = child u k

/-- **A write is local**: it changes only the paths through the entry written. -/
theorem Unshared.descend_of_write (hU : Unshared child root depth own) (hown : own is)
    (ht : descend child root is = some t) (hw : WriteAt child child' root depth t i)
    (hjs : js.length ≤ depth + 1) (hnot : ¬ is ++ [i] <+: js) :
    descend child' root js = descend child root js := by
  refine descend_congr fun js' k u hp hu => ?_
  have hlen : js'.length ≤ depth := by
    have := hp.length_le
    rw [List.length_append, List.length_singleton] at this
    omega
  refine hw js' u k hlen hu ?_
  rintro rfl rfl
  -- the entry written is the one this path reads next
  obtain rfl := hU is js' u hown (.inl hlen) ht hu
  exact hnot hp

/-- Where the paths through the entry lead afterwards. -/
theorem Unshared.descend_through (hU : Unshared child root depth own) (hown : own is)
    (ht : descend child root is = some t) (hw : WriteAt child child' root depth t i)
    (hlen : is.length ≤ depth) :
    descend child' root (is ++ i :: ks) = (child' t i).bind fun u => descend child' u ks := by
  have his : descend child' root is = some t := by
    rw [hU.descend_of_write hown ht hw (by omega), ht]
    intro hp
    have := hp.length_le
    rw [List.length_append, List.length_singleton] at this
    omega
  rw [descend_append, his]
  rfl

/-- What a path through the entry looks like. -/
theorem eq_append_cons_of_through (h : is ++ [i] <+: js) : ∃ ks, js = is ++ i :: ks := by
  obtain ⟨ks, rfl⟩ := h
  exact ⟨ks, by simp⟩

/-! ### Clearing an entry -/

section Clear

variable (hU : Unshared child root depth own) (hown : own is) (ht : descend child root is = some t)
  (hw : WriteAt child child' root depth t i) (hlen : is.length ≤ depth) (hclear : child' t i = none)

include hU hown ht hw hlen hclear

/-- Clearing an entry cuts off the paths through it and no other. -/
theorem Unshared.descend_clear (js : List I) (hjs : js.length ≤ depth + 1) :
    (is ++ [i] <+: js ∧ descend child' root js = none) ∨
      (¬ is ++ [i] <+: js ∧ descend child' root js = descend child root js) := by
  by_cases hp : is ++ [i] <+: js
  · obtain ⟨ks, rfl⟩ := eq_append_cons_of_through hp
    exact .inl ⟨hp, by rw [hU.descend_through hown ht hw hlen, hclear]; rfl⟩
  · exact .inr ⟨hp, hU.descend_of_write hown ht hw hjs hp⟩

/-- What is still reached was reached before. -/
theorem Unshared.descend_of_clear (hjs : js.length ≤ depth + 1) (h : descend child' root js = some u) :
    descend child root js = some u := by
  rcases hU.descend_clear hown ht hw hlen hclear js hjs with ⟨-, h'⟩ | ⟨-, h'⟩
  · rw [h'] at h
    cases h
  · rw [← h', h]

theorem Unshared.clear (hdepth : ∀ js, own js → js.length ≤ depth + 1) : Unshared child' root depth own := by
  intro js ks u hjs hks h₁ h₂
  have hlen' : ks.length ≤ depth + 1 := by
    rcases hks with h | h
    · omega
    · exact hdepth ks h
  exact hU js ks u hjs hks (hU.descend_of_clear hown ht hw hlen hclear (hdepth js hjs) h₁)
    (hU.descend_of_clear hown ht hw hlen hclear hlen' h₂)

end Clear

/-! ### Linking a new table -/

section Link

variable (hU : Unshared child root depth own) (hown : own is) (ht : descend child root is = some t)
  (hw : WriteAt child child' root depth t i) (hlen : is.length ≤ depth) (hlink : child' t i = some f)
  (hempty : ∀ k, child' f k = none)

include hU hown ht hw hlen hlink hempty

/-- Linking an empty table makes one new path. -/
theorem Unshared.descend_link (js : List I) (hjs : js.length ≤ depth + 1) :
    (js = is ++ [i] ∧ descend child' root js = some f) ∨
      (js ≠ is ++ [i] ∧ is ++ [i] <+: js ∧ descend child' root js = none) ∨
      (¬ is ++ [i] <+: js ∧ descend child' root js = descend child root js) := by
  by_cases hp : is ++ [i] <+: js
  · obtain ⟨ks, rfl⟩ := eq_append_cons_of_through hp
    rw [hU.descend_through hown ht hw hlen, hlink]
    cases ks with
    | nil => exact .inl ⟨rfl, rfl⟩
    | cons k ks => exact .inr (.inl ⟨by simp, hp, by simp [descend_cons, hempty]⟩)
  · exact .inr (.inr ⟨hp, hU.descend_of_write hown ht hw hjs hp⟩)

/-- What is reached afterwards was reached before, or is the new table. -/
theorem Unshared.descend_of_link (hjs : js.length ≤ depth + 1) (h : descend child' root js = some u) :
    (js = is ++ [i] ∧ u = f) ∨ descend child root js = some u := by
  rcases hU.descend_link hown ht hw hlen hlink hempty js hjs with ⟨rfl, h'⟩ | ⟨-, -, h'⟩ | ⟨-, h'⟩
  · rw [h'] at h
    exact .inl ⟨rfl, (Option.some.inj h).symm⟩
  · rw [h'] at h
    cases h
  · exact .inr (by rw [← h', h])

theorem Unshared.link (hdepth : ∀ js, own js → js.length ≤ depth + 1) (hf : Fresh child root depth own f) :
    Unshared child' root depth own := by
  intro js ks u hjs hks h₁ h₂
  have hlen' : ks.length ≤ depth + 1 := by
    rcases hks with h | h
    · omega
    · exact hdepth ks h
  rcases hU.descend_of_link hown ht hw hlen hlink hempty (hdepth js hjs) h₁ with ⟨rfl, rfl⟩ | h₁'
  · rcases hU.descend_of_link hown ht hw hlen hlink hempty hlen' h₂ with ⟨rfl, -⟩ | h₂'
    · rfl
    · exact absurd h₂' (hf ks hks)
  · rcases hU.descend_of_link hown ht hw hlen hlink hempty hlen' h₂ with ⟨rfl, rfl⟩ | h₂'
    · exact absurd h₁' (hf js (.inr hjs))
    · exact hU js ks u hjs hks h₁' h₂'

end Link

end PetLab.Lib
