import Mathlib.Algebra.BigOperators.Group.Finset.Basic
import Mathlib.Data.Fintype.Basic

/-!
# Sections that one thread at a time is in

Threads with local states `thread t`, some of which are in a section (`In`). `Locked` ties
the section to what the threads can read: at most one thread is in it, and the lock is
free exactly when none is. A thread that moves stays where it is, enters when the lock is
free and takes it, or leaves and frees it (`Locked.stay`, `Locked.enter`, `Locked.leave`).

What the threads have counted, each for itself, is a sum over all of them, in which a step
changes one term (`sum_update`).
-/

namespace PetLab.Lib

variable {τ ℓ : Type*} {In : ℓ → Prop} {free free' : Prop} {thread : τ → ℓ} {t : τ} {l : ℓ}

/-- At most one thread is in the section, and the lock is free when none is. -/
structure Locked (In : ℓ → Prop) (free : Prop) (thread : τ → ℓ) : Prop where
  /-- Two threads in the section are one. -/
  unique : ∀ t u, In (thread t) → In (thread u) → t = u
  /-- When the lock is free. -/
  free_iff : free ↔ ∀ t, ¬ In (thread t)

/-- A thread in the section has the lock. -/
theorem Locked.not_free (h : Locked In free thread) (ht : In (thread t)) : ¬ free :=
  fun hfree => h.free_iff.mp hfree t ht

/-- When a thread is in the section, no other one is. -/
theorem Locked.others (h : Locked In free thread) (ht : In (thread t)) {u : τ} (hu : u ≠ t) : ¬ In (thread u) :=
  fun hin => hu (h.unique u t hin ht)

variable [DecidableEq τ]

/-- A thread moves inside the section, or outside. -/
theorem Locked.stay (h : Locked In free thread) (hl : In l ↔ In (thread t)) (hfree : free' ↔ free) :
    Locked In free' (Function.update thread t l) := by
  have hin : ∀ u, In (Function.update thread t l u) ↔ In (thread u) := by
    intro u
    by_cases hu : u = t
    · subst hu
      rw [Function.update_self, hl]
    · rw [Function.update_of_ne hu]
  constructor
  · intro u v hu hv
    exact h.unique u v ((hin u).mp hu) ((hin v).mp hv)
  · rw [hfree, h.free_iff]
    exact forall_congr' fun u => not_congr (hin u).symm

/-- A thread enters when the lock is free, and takes it. -/
theorem Locked.enter (h : Locked In free thread) (hfree : free) (hl : In l) (hfree' : ¬ free') :
    Locked In free' (Function.update thread t l) := by
  have hout := h.free_iff.mp hfree
  have honly : ∀ u, In (Function.update thread t l u) → u = t := by
    intro u hu
    by_contra hne
    rw [Function.update_of_ne hne] at hu
    exact hout u hu
  constructor
  · intro u v hu hv
    rw [honly u hu, honly v hv]
  · refine ⟨fun hf => absurd hf hfree', fun hno => absurd ?_ (hno t)⟩
    rw [Function.update_self]
    exact hl

/-- A thread leaves, and frees the lock. -/
theorem Locked.leave (h : Locked In free thread) (ht : In (thread t)) (hl : ¬ In l) (hfree' : free') :
    Locked In free' (Function.update thread t l) := by
  have hout : ∀ u, ¬ In (Function.update thread t l u) := by
    intro u
    by_cases hu : u = t
    · subst hu
      rw [Function.update_self]
      exact hl
    · rw [Function.update_of_ne hu]
      exact h.others ht hu
  exact ⟨fun u _ hu => absurd hu (hout u), fun _ => hout, fun _ => hfree'⟩

/-- A step of one thread changes one term of the sum. -/
theorem sum_update [Fintype τ] (f : ℓ → ℕ) (thread : τ → ℓ) (t : τ) (l : ℓ) :
    ∑ u, f (Function.update thread t l u) + f (thread t) = ∑ u, f (thread u) + f l := by
  have hrest : ∑ u ∈ Finset.univ.erase t, f (Function.update thread t l u) =
      ∑ u ∈ Finset.univ.erase t, f (thread u) :=
    Finset.sum_congr rfl fun u hu => by rw [Function.update_of_ne (Finset.ne_of_mem_erase hu)]
  have hsum := Finset.add_sum_erase Finset.univ (fun u => f (thread u)) (Finset.mem_univ t)
  have hsum' := Finset.add_sum_erase Finset.univ (fun u => f (Function.update thread t l u)) (Finset.mem_univ t)
  rw [Function.update_self] at hsum'
  omega

end PetLab.Lib
