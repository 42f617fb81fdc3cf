import Mathlib.Data.List.Induction
import Mathlib.Data.Nat.Notation
import Mathlib.Logic.Function.Basic

/-!
# Runs of a labelled transition system

A system is given by a relation `R s a s'`: in state `s`, label `a` can lead to
`s'`. A run is a list of labels with the state it leads to. The label is whatever
the environment chooses: an operation and its arguments, the thread whose turn it
is. What a single step preserves, a run preserves (`Exec.inv`); runs can be cut
and joined (`exec_append`), and a run of one system can be replayed in another
(`Exec.simulate`).

`Guard C R` keeps the steps of `R` taken in states where `C` allows them, so that
a run of `Guard C R` is a run of `R` all of whose steps meet the condition `C`. For a
step function, `guardedRun` computes such a run.

Where a label can be seen from outside as an event, or not at all, `Exec.refine` replays a run in
a system of events. `Exec.components` does it for a system of many components: the labels of
each one, by themselves, are a run of its own.

A machine with one step from each state, which may stop, is run for a number of steps by
`runFor`. A measure that every step lowers brings it to where it is going (`runFor_of_variant`).
-/

namespace PetLab.Lib

variable {σ α τ β : Type*}

/-- `Exec R s as s'`: the labels `as`, one after the other, lead from `s` to `s'`. -/
inductive Exec (R : σ → α → σ → Prop) (s : σ) : List α → σ → Prop where
  /-- No step. -/
  | nil : Exec R s [] s
  /-- One more step at the end. -/
  | snoc {as : List α} {a : α} {t u : σ} : Exec R s as t → R t a u → Exec R s (as ++ [a]) u

/-- The steps of `R` whose label `C` allows in the state it is taken in. -/
def Guard (C : σ → α → Prop) (R : σ → α → σ → Prop) (s : σ) (a : α) (s' : σ) : Prop := C s a ∧ R s a s'

section

variable {R : σ → α → σ → Prop} {s t u : σ} {as bs : List α}

/-- **The invariant rule**: what holds at the start and is kept by every step holds
at the end of every run. -/
theorem Exec.inv {I : σ → Prop} (h : Exec R s as t) (h₀ : I s)
    (hstep : ∀ s a s', I s → R s a s' → I s') : I t := by
  induction h with
  | nil => exact h₀
  | snoc _ hR ih => exact hstep _ _ _ ih hR

/-- A function whose steps, seen through `g`, are steps for the labels of a list runs over the list. -/
theorem exec_foldl {f : τ → α → τ} {g : τ → σ} (hstep : ∀ x, ∀ a ∈ as, R (g x) a (g (f x a))) (x : τ) :
    Exec R (g x) as (g (as.foldl f x)) := by
  induction as using List.reverseRecOn with
  | nil => exact .nil
  | append_singleton as a ih =>
    rw [List.foldl_append]
    exact .snoc (ih fun x b hb => hstep x b (List.mem_append_left _ hb)) (hstep _ a (by simp))

theorem Exec.single {a : α} (h : R s a t) : Exec R s [a] t := .snoc .nil h

theorem exec_nil_iff : Exec R s [] t ↔ t = s := by
  constructor
  · intro h
    generalize hl : ([] : List α) = l at h
    cases h with
    | nil => rfl
    | snoc _ _ => simp at hl
  · rintro rfl
    exact .nil

theorem exec_concat_iff {a : α} : Exec R s (as ++ [a]) u ↔ ∃ t, Exec R s as t ∧ R t a u := by
  constructor
  · intro h
    generalize hl : as ++ [a] = l at h
    cases h with
    | nil => simp at hl
    | snoc h hR =>
      obtain ⟨rfl, rfl⟩ := List.concat_inj.mp (by simpa using hl)
      exact ⟨_, h, hR⟩
  · rintro ⟨t, h, hR⟩
    exact .snoc h hR

/-- A run can be cut anywhere, and runs can be joined. -/
theorem exec_append : Exec R s (as ++ bs) u ↔ ∃ t, Exec R s as t ∧ Exec R t bs u := by
  induction bs using List.reverseRecOn generalizing u with
  | nil => simp [exec_nil_iff]
  | append_singleton bs b ih =>
    rw [← List.append_assoc]
    simp only [exec_concat_iff, ih]
    constructor
    · rintro ⟨v, ⟨t, h₁, h₂⟩, hR⟩
      exact ⟨t, h₁, v, h₂, hR⟩
    · rintro ⟨t, h₁, v, h₂, hR⟩
      exact ⟨v, ⟨t, h₁, h₂⟩, hR⟩

theorem exec_cons_iff {a : α} : Exec R s (a :: as) u ↔ ∃ t, R s a t ∧ Exec R t as u := by
  rw [← List.singleton_append, exec_append]
  constructor
  · rintro ⟨t, h, h'⟩
    obtain ⟨s', hs, hR⟩ := exec_concat_iff.mp (by simpa using h : Exec R s ([] ++ [a]) t)
    obtain rfl := exec_nil_iff.mp hs
    exact ⟨t, hR, h'⟩
  · rintro ⟨t, hR, h⟩
    exact ⟨t, .single hR, h⟩

/-- A run stays a run when the system allows more steps. -/
theorem Exec.mono {R' : σ → α → σ → Prop} (h : Exec R s as t) (hR : ∀ s a s', R s a s' → R' s a s') :
    Exec R' s as t := by
  induction h with
  | nil => exact .nil
  | snoc _ h ih => exact .snoc ih (hR _ _ _ h)

/-- A run stays a run in a system that allows more steps in the states the run can be in. -/
theorem Exec.mono_of_inv {R' : σ → α → σ → Prop} {I : σ → Prop} (h : Exec R s as t) (h₀ : I s)
    (hR : ∀ s a s', I s → R s a s' → I s' ∧ R' s a s') : I t ∧ Exec R' s as t := by
  induction h with
  | nil => exact ⟨h₀, .nil⟩
  | snoc _ h ih => exact ⟨(hR _ _ _ ih.1 h).1, .snoc ih.2 (hR _ _ _ ih.1 h).2⟩

/-- If `P` holds of exactly the steps that `C` allows, in the states a run can be in, then
a run whose steps all have `P` is one whose steps `C` all allows. -/
theorem exec_and_iff_guard {I : σ → Prop} {P : σ → α → σ → Prop} {C : σ → α → Prop} (h₀ : I s)
    (hstep : ∀ s a s', I s → R s a s' → I s') (hiff : ∀ s a s', I s → R s a s' → (P s a s' ↔ C s a)) :
    Exec (fun s a s' => R s a s' ∧ P s a s') s as t ↔ Exec (Guard C R) s as t := by
  constructor
  · intro h
    exact (h.mono_of_inv h₀ fun s a s' hI hR =>
      ⟨hstep s a s' hI hR.1, (hiff s a s' hI hR.1).mp hR.2, hR.1⟩).2
  · intro h
    exact (h.mono_of_inv h₀ fun s a s' hI hR =>
      ⟨hstep s a s' hI hR.2, hR.2, (hiff s a s' hI hR.2).mpr hR.1⟩).2

/-- If exactly the steps that `C` allows keep `Q`, in the states a run can be in, then a run that
has `Q` all along is one whose steps `C` all allows. -/
theorem exec_keeps_iff_guard {I Q : σ → Prop} {C : σ → α → Prop} (h₀ : I s) (hQ : Q s)
    (hstep : ∀ s a s', I s → R s a s' → I s') (hiff : ∀ s a s', I s → Q s → R s a s' → (Q s' ↔ C s a)) :
    Exec (fun s a s' => R s a s' ∧ Q s') s as t ↔ Exec (Guard C R) s as t := by
  constructor
  · intro h
    exact (h.mono_of_inv (I := fun s => I s ∧ Q s) ⟨h₀, hQ⟩ fun s a s' hI hR =>
      ⟨⟨hstep s a s' hI.1 hR.1, hR.2⟩, (hiff s a s' hI.1 hI.2 hR.1).mp hR.2, hR.1⟩).2
  · intro h
    refine (h.mono_of_inv (I := fun s => I s ∧ Q s) ⟨h₀, hQ⟩ fun s a s' hI hR => ?_).2
    have hQ' := (hiff s a s' hI.1 hI.2 hR.2).mpr hR.1
    exact ⟨⟨hstep s a s' hI.1 hR.2, hQ'⟩, hR.2, hQ'⟩

/-- Run a function over a list of labels, as long as `C` allows them and it succeeds. -/
def guardedRun (C : σ → α → Prop) [∀ s a, Decidable (C s a)] (f : σ → α → Option σ) : σ → List α → Option σ
  | s, [] => some s
  | s, a :: as => if C s a then (f s a).bind fun t => guardedRun C f t as else none

theorem exec_of_guardedRun {C : σ → α → Prop} [∀ s a, Decidable (C s a)] {f : σ → α → Option σ}
    (h : guardedRun C f s as = some t) : Exec (Guard C fun s a s' => f s a = some s') s as t := by
  induction as generalizing s with
  | nil => exact exec_nil_iff.mpr (Option.some.inj h).symm
  | cons a as ih =>
    rw [guardedRun] at h
    split_ifs at h with hC
    obtain ⟨u, hu, h⟩ := Option.bind_eq_some_iff.mp h
    exact exec_cons_iff.mpr ⟨u, ⟨hC, hu⟩, ih h⟩

/-- **Simulation**: if every step is matched by a run of the other system between
the images of its ends, then so is every run. -/
theorem Exec.simulate {R' : τ → β → τ → Prop} {f : σ → τ} (h : Exec R s as t)
    (hstep : ∀ s a s', R s a s' → ∃ bs, Exec R' (f s) bs (f s')) : ∃ bs, Exec R' (f s) bs (f t) := by
  induction h with
  | nil => exact ⟨[], .nil⟩
  | snoc _ hR ih =>
    obtain ⟨bs, hbs⟩ := ih
    obtain ⟨bs', hbs'⟩ := hstep _ _ _ hR
    exact ⟨bs ++ bs', exec_append.mpr ⟨_, hbs, hbs'⟩⟩

end

/-! ### Events -/

section Refine

variable {R' : τ → β → τ → Prop} {e : α → Option β}

theorem filterMap_single (e : α → Option β) (a : α) : [a].filterMap e = (e a).toList := by
  cases h : e a with
  | none => simp [h]
  | some b => simp [h]

/-- **Refinement**: what a run does is seen as a run of events. -/
theorem Exec.refine {R : σ → α → σ → Prop} {Q : σ → τ → Prop} {s s' : σ} {t : τ} {as : List α} (h : Exec R s as s')
    (h₀ : Q s t)
    (hstep : ∀ s t a s', Q s t → R s a s' → ∃ t', Exec R' t (e a).toList t' ∧ Q s' t') :
    ∃ t', Exec R' t (as.filterMap e) t' ∧ Q s' t' := by
  induction h with
  | nil => exact ⟨t, .nil, h₀⟩
  | snoc _ hR ih =>
    obtain ⟨t', ht', hQ⟩ := ih
    obtain ⟨t'', ht'', hQ'⟩ := hstep _ _ _ _ hQ hR
    exact ⟨t'', by rw [List.filterMap_append, filterMap_single]; exact exec_append.mpr ⟨t', ht', ht''⟩, hQ'⟩

variable {ι : Type*} [DecidableEq ι]

/-- The labels of one component. -/
def labelsOf (i : ι) (as : List (ι × α)) : List α := (as.filter (·.1 = i)).map Prod.snd

theorem labelsOf_concat_self (i : ι) (as : List (ι × α)) (a : α) :
    labelsOf i (as ++ [(i, a)]) = labelsOf i as ++ [a] := by
  simp [labelsOf]

theorem labelsOf_concat_of_ne {i j : ι} (h : j ≠ i) (as : List (ι × α)) (a : α) :
    labelsOf i (as ++ [(j, a)]) = labelsOf i as := by
  simp [labelsOf, h]

/-- **Components**: if every label is one of a component, which moves by itself as it is seen to,
then in every run each component is seen to make a run of its own. -/
theorem Exec.components {R : σ → ι × α → σ → Prop} {Q : σ → (ι → τ) → Prop} {s s' : σ} {t : ι → τ}
    {as : List (ι × α)} (h : Exec R s as s') (h₀ : Q s t)
    (hstep : ∀ s t i a s', Q s t → R s (i, a) s' →
      ∃ u, Exec R' (t i) (e a).toList u ∧ Q s' (Function.update t i u)) :
    ∃ t', (∀ i, Exec R' (t i) ((labelsOf i as).filterMap e) (t' i)) ∧ Q s' t' := by
  induction h with
  | nil => exact ⟨t, fun _ => .nil, h₀⟩
  | @snoc as a _ _ _ hR ih =>
    obtain ⟨i, a⟩ := a
    obtain ⟨t', ht', hQ⟩ := ih
    obtain ⟨u, hu, hQ'⟩ := hstep _ _ _ _ _ hQ hR
    refine ⟨Function.update t' i u, fun j => ?_, hQ'⟩
    by_cases hj : i = j
    · subst hj
      rw [Function.update_self, labelsOf_concat_self, List.filterMap_append, filterMap_single]
      exact exec_append.mpr ⟨t' i, ht' i, hu⟩
    · rw [Function.update_of_ne (Ne.symm hj), labelsOf_concat_of_ne hj]
      exact ht' j

end Refine

/-! ### Machines -/

section Machine

variable {f : σ → Option σ} {s t : σ}

/-- `n` steps of a machine, `none` when it stops before. -/
def runFor (f : σ → Option σ) : ℕ → σ → Option σ
  | 0, s => some s
  | n + 1, s => (f s).bind (runFor f n)

theorem runFor_add (m n : ℕ) (s : σ) : runFor f (m + n) s = (runFor f m s).bind (runFor f n) := by
  induction m generalizing s with
  | zero => simp [runFor]
  | succ m ih =>
    rw [Nat.succ_add, runFor, runFor, Option.bind_assoc]
    congr 1
    funext t
    exact ih t

/-- **The variant rule**: a machine that, as long as it is not done, goes on with a smaller measure gets done. -/
theorem runFor_of_variant {I D : σ → Prop} {μ : σ → ℕ}
    (hstep : ∀ s, I s → ∃ s', f s = some s' ∧ (D s' ∨ I s' ∧ μ s' < μ s)) (hs : I s) :
    ∃ n s', runFor f n s = some s' ∧ D s' := by
  induction hm : μ s using Nat.strongRecOn generalizing s with
  | ind m ih =>
    obtain ⟨s', hs', hD | ⟨hI, hlt⟩⟩ := hstep s hs
    · exact ⟨1, s', by simp [runFor, hs'], hD⟩
    · obtain ⟨n, t, ht, hD⟩ := ih (μ s') (hm ▸ hlt) hI rfl
      exact ⟨n + 1, t, by simp [runFor, hs', ht], hD⟩

end Machine

end PetLab.Lib
