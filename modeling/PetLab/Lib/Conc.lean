import Mathlib.Logic.Function.Basic
import PetLab.Lib.Run

/-!
# Threads over a shared state

A thread step is a function `f t a g l`: thread `t`, told to do `a` by its environment,
takes the shared state `g` and its own state `l` to new ones, or cannot move. A system of
threads moves one thread at a time, in any order, so that its runs are all the
interleavings of the threads' steps.

`NonInterfering` is the proof obligation of Owicki and Gries: an invariant `I` of the shared
state and an assertion `A` for each thread, where every step keeps `I`, gives the thread
that moves its next assertion, and does not break those of the other threads. `D` is
what any two threads have apart from each other.
-/

namespace PetLab.Lib

/-- A shared state, and the state of each thread. -/
structure Conc (τ σ ℓ : Type*) where
  /-- The shared state. -/
  shared : σ
  /-- The threads. -/
  thread : τ → ℓ

section

variable {τ σ ℓ α : Type*} [DecidableEq τ] {f : τ → α → σ → ℓ → Option (σ × ℓ)}

/-- Thread `a.1` does `a.2`. -/
def Conc.move (f : τ → α → σ → ℓ → Option (σ × ℓ)) (c : Conc τ σ ℓ) (a : τ × α) : Option (Conc τ σ ℓ) :=
  (f a.1 a.2 c.shared (c.thread a.1)).map fun r => ⟨r.1, Function.update c.thread a.1 r.2⟩

/-- One step of the system. -/
def Conc.Step (f : τ → α → σ → ℓ → Option (σ × ℓ)) (c : Conc τ σ ℓ) (a : τ × α) (c' : Conc τ σ ℓ) : Prop :=
  c.move f a = some c'

theorem Conc.step_iff {c c' : Conc τ σ ℓ} {t : τ} {a : α} :
    c.Step f (t, a) c' ↔ ∃ g l, f t a c.shared (c.thread t) = some (g, l) ∧ c' = ⟨g, Function.update c.thread t l⟩ := by
  constructor
  · intro h
    obtain ⟨⟨g, l⟩, hf, hc⟩ := Option.map_eq_some_iff.mp h
    exact ⟨g, l, hf, hc.symm⟩
  · rintro ⟨g, l, hf, rfl⟩
    exact Option.map_eq_some_iff.mpr ⟨(g, l), hf, rfl⟩

/-- Take the steps of a list, one after the other. -/
def Conc.run (f : τ → α → σ → ℓ → Option (σ × ℓ)) : Conc τ σ ℓ → List (τ × α) → Option (Conc τ σ ℓ) :=
  guardedRun (fun _ _ => True) (Conc.move f)

theorem Conc.exec_of_run {c c' : Conc τ σ ℓ} {as : List (τ × α)} (h : Conc.run f c as = some c') :
    Exec (Conc.Step f) c as c' :=
  (exec_of_guardedRun h).mono fun _ _ _ h => h.2

/-- Steps of one thread alone. -/
theorem Conc.exec_solo {c : Conc τ σ ℓ} {t : τ} {as : List α} {r : σ × ℓ}
    (h : Exec (fun p a p' => f t a p.1 p.2 = some p') (c.shared, c.thread t) as r) :
    Exec (Conc.Step f) c (as.map fun a => (t, a)) ⟨r.1, Function.update c.thread t r.2⟩ := by
  induction h with
  | nil =>
    rw [Function.update_eq_self]
    exact .nil
  | @snoc as a r r' _ hf ih =>
    rw [List.map_append]
    refine .snoc ih (Conc.step_iff.mpr ⟨r'.1, r'.2, ?_, ?_⟩)
    · show f t a r.1 (Function.update c.thread t r.2 t) = some r'
      rw [Function.update_self]
      exact hf
    · rw [Function.update_idem]

/-- What a step of thread `t` changes: the shared state and the thread, and no other thread. -/
theorem Conc.Step.spec {c c' : Conc τ σ ℓ} {t : τ} {a : α} (h : c.Step f (t, a) c') :
    f t a c.shared (c.thread t) = some (c'.shared, c'.thread t) ∧ ∀ u, u ≠ t → c'.thread u = c.thread u := by
  obtain ⟨g, l, hf, rfl⟩ := Conc.step_iff.mp h
  refine ⟨?_, fun u hu => Function.update_of_ne hu _ _⟩
  show _ = some (g, Function.update c.thread t l t)
  rw [hf, Function.update_self]

/-- The shared state, every thread and every two threads are as they should be. -/
structure Conc.Inv (I : σ → Prop) (A : τ → σ → ℓ → Prop) (D : ℓ → ℓ → Prop) (c : Conc τ σ ℓ) : Prop where
  /-- The shared state. -/
  shared : I c.shared
  /-- Each thread. -/
  each : ∀ t, A t c.shared (c.thread t)
  /-- Any two threads. -/
  apart : ∀ t u, t ≠ u → D (c.thread t) (c.thread u)

/-- The steps of each thread keep the invariant and do not interfere with the others. -/
structure NonInterfering (f : τ → α → σ → ℓ → Option (σ × ℓ)) (I : σ → Prop) (A : τ → σ → ℓ → Prop)
    (D : ℓ → ℓ → Prop) : Prop where
  /-- What a step does for the thread that takes it. -/
  own : ∀ {t a g l g' l'}, I g → A t g l → f t a g l = some (g', l') → I g' ∧ A t g' l'
  /-- What it does to another thread. -/
  other : ∀ {t u a g l k g' l'}, t ≠ u → I g → A t g l → A u g k → D l k → f t a g l = some (g', l') →
    A u g' k ∧ D l' k
  /-- Being apart is symmetric. -/
  symm : ∀ {l k}, D l k → D k l

variable {I : σ → Prop} {A : τ → σ → ℓ → Prop} {D : ℓ → ℓ → Prop}

theorem NonInterfering.step (hf : NonInterfering f I A D) {c c' : Conc τ σ ℓ} {a : τ × α} (h : c.Inv I A D)
    (hstep : c.Step f a c') : c'.Inv I A D := by
  obtain ⟨t, a⟩ := a
  obtain ⟨g, l, hfl, rfl⟩ := Conc.step_iff.mp hstep
  obtain ⟨hI, hA⟩ := hf.own h.shared (h.each t) hfl
  have hother : ∀ u, u ≠ t → A u g (c.thread u) ∧ D l (c.thread u) := fun u hu =>
    hf.other hu.symm h.shared (h.each t) (h.each u) (h.apart t u hu.symm) hfl
  refine ⟨hI, fun u => ?_, fun u v huv => ?_⟩
  · by_cases hu : u = t
    · subst hu
      simpa using hA
    · simpa [hu] using (hother u hu).1
  · by_cases hu : u = t
    · subst hu
      simpa [huv.symm] using (hother v huv.symm).2
    · by_cases hv : v = t
      · subst hv
        simpa [hu] using hf.symm (hother u hu).2
      · simpa [hu, hv] using h.apart u v huv

/-- **The rule of Owicki and Gries**: the invariant and the assertions hold after every
interleaving. -/
theorem NonInterfering.run (hf : NonInterfering f I A D) {c c' : Conc τ σ ℓ} {as : List (τ × α)}
    (h : c.Inv I A D) (hrun : Exec (Conc.Step f) c as c') : c'.Inv I A D :=
  hrun.inv h fun _ _ _ hI hstep => hf.step hI hstep

end

end PetLab.Lib
