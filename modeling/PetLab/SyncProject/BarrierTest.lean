import Mathlib.Algebra.BigOperators.Fin
import PetLab.SyncProject.BarrierInv

/-!
# The barrier separates the rounds

The claim of the barrier is that no thread returns from a round before all have arrived in
it. `ex2_fn` tests it: between two rounds every thread adds one to `global_value`, so that
at the top of iteration `i` it is `num_threads * i`.

A run of the test is a run of the barrier with other things in between
(`ex2Run_barrier`), and what the barrier guarantees fixes how many threads have added at
the top of an iteration (`adds_eq`).
-/

namespace PetLab.SyncProject

open PetLab.Lib

/-- The test, as far as the barrier is concerned. -/
def Ex2Sys.barrier {N : ℕ} (c : Ex2Sys N) : BarrierSys N := ⟨c.shared.bar, fun t => (c.thread t).waiter⟩

/-- How often a thread has added to `global_value`. -/
def Ex2Thread.adds (l : Ex2Thread) : ℕ :=
  match l.pc with
  | .wait₂ | .next => l.i + 1
  | _ => l.i

/-- How many calls of `barrier_wait` a thread has returned from. -/
def Ex2Thread.At (l : Ex2Thread) : Prop :=
  match l.pc with
  | .head | .check | .done => l.waiter.pc = none ∧ l.waiter.returns = 2 * l.i
  | .wait₁ => l.waiter.returns = 2 * l.i
  | .add => l.waiter.pc = none ∧ l.waiter.returns = 2 * l.i + 1
  | .wait₂ => l.waiter.returns = 2 * l.i + 1
  | .next => l.waiter.pc = none ∧ l.waiter.returns = 2 * l.i + 2

/-- What holds of the test. -/
structure Ex2Inv {N : ℕ} (c : Ex2Sys N) : Prop where
  /-- The threads. -/
  each : ∀ t, (c.thread t).At
  /-- `global_value` counts what was added. -/
  globalValue : c.shared.globalValue = BitVec.ofNat 32 (∑ t, (c.thread t).adds)

section

variable {N : ℕ} {c c' : Ex2Sys N} {t : Fin N} {l l' : Ex2Thread} {g g' : Ex2Shared} {bar : Barrier} {w w' : Waiter}

/-- A step of the barrier returns from `barrier_wait`, or it does not. -/
theorem barrierStep_returns {a : BarrierAct} {bar' : Barrier} (h : bar.step a w = some (bar', w')) :
    (w'.pc = none ∧ w'.returns = w.returns + 1) ∨ (w'.pc ≠ none ∧ w'.returns = w.returns) := by
  unfold Barrier.step at h
  split at h
  · obtain ⟨-, rfl⟩ := Prod.mk.inj (Option.some.inj h)
    exact .inr ⟨nofun, rfl⟩
  · obtain ⟨-, rfl⟩ := Prod.mk.inj (Option.some.inj h)
    exact .inl ⟨rfl, rfl⟩
  · obtain ⟨r, -, hr⟩ := Option.map_eq_some_iff.mp h
    obtain ⟨-, rfl⟩ := Prod.mk.inj hr
    exact .inr ⟨nofun, rfl⟩
  · cases h

/-- A step of a thread: in `barrier_wait`, or elsewhere. -/
theorem ex2Fn_cases (h : g.ex2Fn N l = some (g', l')) :
    (∃ pc, g.barrierWait l pc = some (g', l') ∧ ((l.pc = .wait₁ ∧ pc = .add) ∨ (l.pc = .wait₂ ∧ pc = .next))) ∨
      (g'.bar = g.bar ∧ l'.waiter = l.waiter) := by
  unfold Ex2Shared.ex2Fn at h
  split at h
  case h_3 hpc => exact .inl ⟨_, h, .inl ⟨hpc, rfl⟩⟩
  case h_5 hpc => exact .inl ⟨_, h, .inr ⟨hpc, rfl⟩⟩
  case h_7 => cases h
  all_goals
    obtain ⟨rfl, rfl⟩ := Prod.mk.inj (Option.some.inj h)
    exact .inr ⟨rfl, rfl⟩

/-- Only the thread that moves changes for the barrier. -/
theorem barrier_eq_update (hother : ∀ u, u ≠ t → c'.thread u = c.thread u) :
    Ex2Sys.barrier c' = ⟨c'.shared.bar, Function.update (Ex2Sys.barrier c).thread t (c'.thread t).waiter⟩ := by
  unfold Ex2Sys.barrier
  congr 1
  funext u
  by_cases hu : u = t
  · subst hu
    rw [Function.update_self]
  · rw [Function.update_of_ne hu, hother u hu]

/-- A step of the test is a step of the barrier, or none. -/
theorem ex2Step_barrier {a : Fin N × Unit} (h : Ex2Step N c a c') :
    ∃ acts, Exec (BarrierStep N) (Ex2Sys.barrier c) acts (Ex2Sys.barrier c') := by
  obtain ⟨t, _⟩ := a
  obtain ⟨hf, hother⟩ := h.spec
  have heq := barrier_eq_update hother
  rcases ex2Fn_cases hf with ⟨pc, hwait, -⟩ | ⟨hbar, hw⟩
  · obtain ⟨⟨bar, w⟩, hstep, he⟩ := Option.map_eq_some_iff.mp hwait
    obtain ⟨hg, hl⟩ := Prod.mk.inj he
    refine ⟨[(t, if (c.thread t).waiter.pc = none then .call else .run)], .single ?_⟩
    refine Conc.step_iff.mpr ⟨bar, w, hstep, ?_⟩
    rw [heq, ← hg, ← hl]
  · refine ⟨[], ?_⟩
    rw [heq, hbar, hw]
    exact exec_nil_iff.mpr (by simp [Ex2Sys.barrier])

/-- **A run of the test is a run of the barrier.** -/
theorem ex2Run_barrier {acts : List (Fin N × Unit)} (hrun : Exec (Ex2Step N) (ex2Start N) acts c) :
    ∃ acts', Exec (BarrierStep N) (barrierStart N) acts' (Ex2Sys.barrier c) :=
  hrun.simulate fun _ _ _ h => ex2Step_barrier h

/-- A step in `barrier_wait`. -/
theorem barrierWait_spec {pc : Ex2Pc} (h : g.barrierWait l pc = some (g', l')) :
    g'.globalValue = g.globalValue ∧ l'.i = l.i ∧
      ((l'.pc = pc ∧ l'.waiter.pc = none ∧ l'.waiter.returns = l.waiter.returns + 1) ∨
        (l'.pc = l.pc ∧ l'.waiter.returns = l.waiter.returns)) := by
  obtain ⟨⟨bar, w⟩, hstep, he⟩ := Option.map_eq_some_iff.mp h
  obtain ⟨rfl, rfl⟩ := Prod.mk.inj he
  refine ⟨rfl, rfl, ?_⟩
  rcases barrierStep_returns hstep with ⟨hnone, hret⟩ | ⟨hsome, hret⟩
  · exact .inl ⟨if_pos hnone, hnone, hret⟩
  · exact .inr ⟨if_neg hsome, hret⟩

/-- **One step of `ex2_fn`**: what is added to `global_value` is counted. -/
theorem Ex2Thread.At.step (hat : l.At) (h : g.ex2Fn N l = some (g', l')) :
    l'.At ∧ ((g'.globalValue = g.globalValue ∧ l'.adds = l.adds) ∨
      (g'.globalValue = g.globalValue + 1 ∧ l'.adds = l.adds + 1)) := by
  unfold Ex2Shared.ex2Fn at h
  split at h
  case h_1 hpc =>
    obtain ⟨rfl, rfl⟩ := Prod.mk.inj (Option.some.inj h)
    simp only [Ex2Thread.At, hpc] at hat
    by_cases hi : l.i < testIterations
    · simp [Ex2Thread.At, Ex2Thread.adds, hpc, hi, hat]
    · simp [Ex2Thread.At, Ex2Thread.adds, hpc, hi, hat]
  case h_2 hpc =>
    obtain ⟨rfl, rfl⟩ := Prod.mk.inj (Option.some.inj h)
    simp only [Ex2Thread.At, hpc] at hat
    simp [Ex2Thread.At, Ex2Thread.adds, hpc, hat]
  case h_3 hpc =>
    obtain ⟨hg, hi, ⟨hpc', hnone, hret⟩ | ⟨hpc', hret⟩⟩ := barrierWait_spec h
    all_goals
      simp only [Ex2Thread.At, hpc] at hat
      simp_all [Ex2Thread.At, Ex2Thread.adds]
  case h_4 hpc =>
    obtain ⟨rfl, rfl⟩ := Prod.mk.inj (Option.some.inj h)
    simp only [Ex2Thread.At, hpc] at hat
    simp [Ex2Thread.At, Ex2Thread.adds, hpc, hat]
  case h_5 hpc =>
    obtain ⟨hg, hi, ⟨hpc', hnone, hret⟩ | ⟨hpc', hret⟩⟩ := barrierWait_spec h
    all_goals
      simp only [Ex2Thread.At, hpc] at hat
      simp_all [Ex2Thread.At, Ex2Thread.adds]
  case h_6 hpc =>
    obtain ⟨rfl, rfl⟩ := Prod.mk.inj (Option.some.inj h)
    simp only [Ex2Thread.At, hpc] at hat
    simp [Ex2Thread.At, Ex2Thread.adds, hpc, hat, Nat.mul_add]
  case h_7 => cases h

theorem Ex2Inv.step (h : Ex2Inv c) {a : Fin N × Unit} (hstep : Ex2Step N c a c') : Ex2Inv c' := by
  obtain ⟨t, _⟩ := a
  obtain ⟨hf, hother⟩ := hstep.spec
  obtain ⟨hat, hadds⟩ := (h.each t).step hf
  constructor
  · intro u
    by_cases hu : u = t
    · exact hu ▸ hat
    · rw [hother u hu]
      exact h.each u
  · have hrest : ∑ u ∈ Finset.univ.erase t, (c'.thread u).adds = ∑ u ∈ Finset.univ.erase t, (c.thread u).adds :=
      Finset.sum_congr rfl fun u hu => by rw [hother u (Finset.ne_of_mem_erase hu)]
    have hsum := Finset.add_sum_erase Finset.univ (fun u => (c.thread u).adds) (Finset.mem_univ t)
    have hsum' := Finset.add_sum_erase Finset.univ (fun u => (c'.thread u).adds) (Finset.mem_univ t)
    rcases hadds with ⟨hg, hl⟩ | ⟨hg, hl⟩
    · rw [hg, h.globalValue, ← hsum, ← hsum', hrest, hl]
    · have hone : ∑ u, (c'.thread u).adds = (∑ u, (c.thread u).adds) + 1 := by
        omega
      rw [hg, h.globalValue, hone, BitVec.ofNat_add]
      rfl

theorem ex2Inv_run {acts : List (Fin N × Unit)} (hrun : Exec (Ex2Step N) (ex2Start N) acts c) : Ex2Inv c := by
  refine hrun.inv ⟨fun t => ⟨rfl, rfl⟩, ?_⟩ fun s a s' hs hstep => hs.step hstep
  have hzero : ∑ t, ((ex2Start N).thread t).adds = 0 := Finset.sum_eq_zero fun t _ => rfl
  rw [hzero]
  rfl

/-- When a thread is at the top of iteration `i`, every thread has added `i` times. -/
theorem adds_eq {R : ℕ} (h : Ex2Inv c) (hbar : BarrierInv N R (Ex2Sys.barrier c)) (ht : (c.thread t).pc = .check)
    (u : Fin N) : (c.thread u).adds = (c.thread t).i := by
  have hle : (c.thread t).waiter.returns ≤ (c.thread u).waiter.arrivals := hbar.returns_le t u
  have hge : (c.thread u).waiter.returns ≤ (c.thread t).waiter.arrivals := hbar.returns_le u t
  obtain ⟨hnone, hret⟩ : (c.thread t).waiter.pc = none ∧ (c.thread t).waiter.returns = 2 * (c.thread t).i := by
    simpa only [Ex2Thread.At, ht] using h.each t
  have harr : (c.thread t).waiter.arrivals = (c.thread t).waiter.returns := (hbar.each t).arrivals_eq hnone
  have hin : (c.thread u).waiter.arrivals ≤ (c.thread u).waiter.returns + 1 := (hbar.each u).bounds.2.2.2.2
  have hout : (c.thread u).waiter.pc = none → (c.thread u).waiter.arrivals = (c.thread u).waiter.returns :=
    (hbar.each u).arrivals_eq
  have hu := h.each u
  cases hpc : (c.thread u).pc with
  | wait₁ =>
    simp only [Ex2Thread.At, Ex2Thread.adds, hpc] at hu ⊢
    omega
  | wait₂ =>
    simp only [Ex2Thread.At, Ex2Thread.adds, hpc] at hu ⊢
    omega
  | _ =>
    simp only [Ex2Thread.At, Ex2Thread.adds, hpc] at hu ⊢
    have := hout hu.1
    omega

/-- `global_value` at the top of an iteration. -/
theorem globalValue_eq (hN₀ : 0 < N) (hN : N < 2 ^ 31) {acts : List (Fin N × Unit)}
    (hrun : Exec (Ex2Step N) (ex2Start N) acts c) (ht : (c.thread t).pc = .check) :
    c.shared.globalValue = BitVec.ofNat 32 (N * (c.thread t).i) := by
  obtain ⟨acts', hrun'⟩ := ex2Run_barrier hrun
  obtain ⟨R, hbar⟩ := barrierInv_run hN₀ hN hrun'
  have hinv := ex2Inv_run hrun
  have hsum : ∑ u, (c.thread u).adds = N * (c.thread t).i := by
    rw [Finset.sum_congr rfl fun u _ => adds_eq hinv hbar ht u, Finset.sum_const]
    simp
  rw [hinv.globalValue, hsum]

end

/-- **Barrier separation**: no thread returns from its `r`-th call before all threads have
performed the `xadd` of theirs. Hence every thread in `ex2_fn` finds `num_threads * i` in
`global_value` at the top of iteration `i`. (The number of threads is a positive `int`.) -/
theorem barrier_separates {N : ℕ} (hN₀ : 0 < N) (hN : N < 2 ^ 31) :
    (∀ acts c, Exec (BarrierStep N) (barrierStart N) acts c →
      ∀ t u, (c.thread t).returns ≤ (c.thread u).arrivals) ∧
    ∀ acts c, Exec (Ex2Step N) (ex2Start N) acts c →
      ∀ t, (c.thread t).pc = .check → c.shared.globalValue = BitVec.ofNat 32 (N * (c.thread t).i) := by
  constructor
  · intro acts c hrun t u
    obtain ⟨R, hR⟩ := barrierInv_run hN₀ hN hrun
    exact hR.returns_le t u
  · intro acts c hrun t ht
    exact globalValue_eq hN₀ hN hrun ht

/-- Two threads: one is in its second round when the other still spins in the first one, and
one is at the top of its second iteration when the other has not returned from the first
one. -/
theorem barrier_separates_two :
    (∃ acts c, Exec (BarrierStep 2) (barrierStart 2) acts c ∧ c.thread 0 = ⟨some (.spin 0), 1, 0⟩ ∧
      c.thread 1 = ⟨some (.test 1 0), 2, 1⟩ ∧ ∀ t u, (c.thread t).returns ≤ (c.thread u).arrivals) ∧
    ∃ acts c, Exec (Ex2Step 2) (ex2Start 2) acts c ∧ (c.thread 0).pc = .check ∧ (c.thread 1).pc = .wait₂ ∧
      (c.thread 0).i = 1 ∧ c.shared.globalValue = BitVec.ofNat 32 (2 * (c.thread 0).i) := by
  obtain ⟨hsep, hread⟩ := barrier_separates (N := 2) (by decide) (by decide)
  constructor
  · let acts : List (Fin 2 × BarrierAct) :=
      (0, BarrierAct.call) :: List.replicate 3 (0, BarrierAct.run) ++
      (1, BarrierAct.call) :: List.replicate 7 (1, BarrierAct.run) ++
      (1, BarrierAct.call) :: List.replicate 2 (1, BarrierAct.run)
    have hrun : (Conc.run (fun _ => Barrier.step) (barrierStart 2) acts).map
        (fun c => (c.thread 0, c.thread 1)) = some (⟨some (.spin 0), 1, 0⟩, ⟨some (.test 1 0), 2, 1⟩) := by
      decide +kernel
    obtain ⟨c, hc, he⟩ := Option.map_eq_some_iff.mp hrun
    obtain ⟨h₀, h₁⟩ := Prod.mk.inj he
    have hexec := Conc.exec_of_run hc
    exact ⟨acts, c, hexec, h₀, h₁, hsep acts c hexec⟩
  · let acts : List (Fin 2 × Unit) :=
      List.replicate 8 (0, ()) ++ List.replicate 11 (1, ()) ++ List.replicate 7 (0, ()) ++ List.replicate 7 (1, ()) ++
      List.replicate 4 (0, ())
    have hrun : (Conc.run (fun _ _ => Ex2Shared.ex2Fn 2) (ex2Start 2) acts).map
        (fun c => ((c.thread 0).pc, (c.thread 1).pc, (c.thread 0).i)) = some (.check, .wait₂, 1) := by decide +kernel
    obtain ⟨c, hc, he⟩ := Option.map_eq_some_iff.mp hrun
    simp only [Prod.mk.injEq] at he
    have hexec := Conc.exec_of_run hc
    exact ⟨acts, c, hexec, he.1, he.2.1, he.2.2, hread acts c hexec 0 he.1⟩

end PetLab.SyncProject
