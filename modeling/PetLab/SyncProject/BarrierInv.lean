import Mathlib.Algebra.Ring.Nat
import Mathlib.Data.Finset.Card
import Mathlib.Data.Fintype.Card
import PetLab.SyncProject.Barrier

/-!
# Rounds of the barrier

The state of the barrier is told by the number `R` of rounds completed, of which
`bar->iterations` is the remainder: `BarrierInv`. Every thread has arrived in all of these
rounds and in at most one more, `R + 1`. `bar->cur_count` counts the threads that have
arrived in it, until the last one of them, which leads the round to its end, resets it.
While a thread leads, all threads have arrived and none can leave, so that no `xadd` comes
between the reset and the store to `bar->iterations` that completes the round.

A thread returns from a round only when it is complete, and then all threads have arrived
in it: `BarrierInv.returns_le`.
-/

namespace PetLab.SyncProject

open PetLab.Lib

/-- The thread leads its round to its end: it was the last one to arrive. -/
def Waiter.Leads (N : ℕ) (l : Waiter) : Prop :=
  match l.pc with
  | some (.test _ prev) => prev = BitVec.ofNat 32 N - 1
  | some .reset | some .loadBump | some (.storeBump _) => True
  | _ => False

/-- The thread has reset `bar->cur_count`. -/
def Waiter.HasReset (l : Waiter) : Prop :=
  match l.pc with
  | some .loadBump | some (.storeBump _) => True
  | _ => False

/-- Where a thread can be when `R` rounds are complete. -/
def Waiter.At (N R : ℕ) (l : Waiter) : Prop :=
  match l.pc with
  | none | some .loadIter => l.arrivals = R ∧ l.returns = R
  | some (.xadd myIter) => l.arrivals = R ∧ l.returns = R ∧ myIter = BitVec.ofNat 32 R
  | some (.test myIter prev) => l.arrivals = l.returns + 1 ∧ myIter = BitVec.ofNat 32 l.returns ∧
    (l.returns = R ∨ (l.returns + 1 = R ∧ prev ≠ BitVec.ofNat 32 N - 1))
  | some .reset | some .loadBump => l.arrivals = R + 1 ∧ l.returns = R
  | some (.storeBump iterations) => l.arrivals = R + 1 ∧ l.returns = R ∧ iterations = BitVec.ofNat 32 R
  | some (.spin myIter) => l.arrivals = l.returns + 1 ∧ myIter = BitVec.ofNat 32 l.returns ∧
    (l.returns = R ∨ l.returns + 1 = R)
  | some .ret => l.arrivals = R ∧ l.returns + 1 = R

/-- The threads that have arrived in round `R + 1`. -/
def arrived {N : ℕ} (R : ℕ) (c : BarrierSys N) : Finset (Fin N) :=
  Finset.univ.filter fun t => (c.thread t).arrivals = R + 1

/-- The state of the barrier when `R` rounds are complete. -/
structure BarrierInv (N R : ℕ) (c : BarrierSys N) : Prop where
  /-- `init_count` is the number of threads. -/
  initCount : c.shared.initCount = BitVec.ofNat 32 N
  /-- `iterations` counts the rounds. -/
  iterations : c.shared.iterations = BitVec.ofNat 32 R
  /-- The threads. -/
  each : ∀ t, (c.thread t).At N R
  /-- `cur_count` counts the threads that have arrived. -/
  curCount : (∀ t, ¬ (c.thread t).HasReset) → c.shared.curCount = BitVec.ofNat 32 (arrived R c).card
  /-- It is reset at the end of the round. -/
  reset : ∀ t, (c.thread t).HasReset → c.shared.curCount = 0
  /-- When a thread leads, all have arrived. -/
  all : ∀ t, (c.thread t).Leads N → ∀ u, (c.thread u).arrivals = R + 1
  /-- Only one thread leads. -/
  unique : ∀ t u, (c.thread t).Leads N → (c.thread u).Leads N → t = u
  /-- When all have arrived, a thread leads. -/
  leader : (∀ t, (c.thread t).arrivals = R + 1) → ∃ t, (c.thread t).Leads N

section

variable {N R : ℕ} {c c' : BarrierSys N} {t u : Fin N} {bar : Barrier} {l : Waiter}

theorem Waiter.HasReset.leads (h : l.HasReset) : l.Leads N := by
  unfold Waiter.HasReset at h
  unfold Waiter.Leads
  split at h
  · simp_all
  · simp_all
  · cases h

/-- A thread has arrived in the rounds that are complete, and in at most one more. It has
returned from no round that is not complete. -/
theorem Waiter.At.bounds (h : l.At N R) :
    R ≤ l.arrivals ∧ l.arrivals ≤ R + 1 ∧ l.returns ≤ R ∧ l.returns ≤ l.arrivals ∧ l.arrivals ≤ l.returns + 1 := by
  unfold Waiter.At at h
  split at h <;> omega

/-- A thread that is not in `barrier_wait` has returned from all rounds it arrived in. -/
theorem Waiter.At.arrivals_eq (h : l.At N R) (hpc : l.pc = none) : l.arrivals = l.returns := by
  unfold Waiter.At at h
  rw [hpc] at h
  omega

/-- What becomes of a thread that has arrived when another one ends the round. -/
theorem Waiter.At.next (h : l.At N R) (harr : l.arrivals = R + 1) (hno : ¬ l.Leads N) : l.At N (R + 1) := by
  obtain ⟨pc, arrivals, returns⟩ := l
  match pc with
  | none | some .loadIter | some (.xadd _) | some .ret =>
    simp only [Waiter.At] at h harr
    omega
  | some .reset | some .loadBump | some (.storeBump _) => exact absurd trivial hno
  | some (.test myIter prev) =>
    simp only [Waiter.At] at h harr ⊢
    exact ⟨h.1, h.2.1, .inr ⟨by omega, hno⟩⟩
  | some (.spin myIter) =>
    simp only [Waiter.At] at h harr ⊢
    exact ⟨h.1, h.2.1, .inr (by omega)⟩

/-- **Separation**: a thread that has returned from a round has seen all threads arrive in it. -/
theorem BarrierInv.returns_le (h : BarrierInv N R c) (t u : Fin N) : (c.thread t).returns ≤ (c.thread u).arrivals :=
  Nat.le_trans (h.each t).bounds.2.2.1 (h.each u).bounds.1

theorem arrived_congr (h : ∀ t, (c'.thread t).arrivals = (c.thread t).arrivals) : arrived R c' = arrived R c := by
  unfold arrived
  congr 1
  funext t
  rw [h]

/-- Not all threads have arrived, so that none leads. -/
theorem BarrierInv.not_leads (h : BarrierInv N R c) (ht : (c.thread t).arrivals = R) : ¬ (c.thread u).Leads N := by
  intro hu
  have := h.all u hu t
  omega

/-- A step of a thread that neither arrives, resets `cur_count` nor ends the round. -/
theorem BarrierInv.quiet (h : BarrierInv N R c) (hshared : c'.shared = c.shared)
    (hother : ∀ u, u ≠ t → c'.thread u = c.thread u) (ht : (c'.thread t).At N R)
    (harr : (c'.thread t).arrivals = (c.thread t).arrivals) (hleads : (c'.thread t).Leads N ↔ (c.thread t).Leads N)
    (hreset : (c'.thread t).HasReset ↔ (c.thread t).HasReset) : BarrierInv N R c' := by
  have hthread : ∀ u, (c'.thread u).At N R ∧ (c'.thread u).arrivals = (c.thread u).arrivals ∧
      ((c'.thread u).Leads N ↔ (c.thread u).Leads N) ∧ ((c'.thread u).HasReset ↔ (c.thread u).HasReset) := by
    intro u
    by_cases hu : u = t
    · subst hu
      exact ⟨ht, harr, hleads, hreset⟩
    · rw [hother u hu]
      exact ⟨h.each u, rfl, .rfl, .rfl⟩
  choose hat harr hleads hreset using hthread
  refine ⟨hshared ▸ h.initCount, hshared ▸ h.iterations, hat, fun hno => ?_, fun u hu => ?_, fun u hu v => ?_,
    fun u v hu hv => ?_, fun hall => ?_⟩
  · rw [arrived_congr harr, hshared]
    exact h.curCount fun u hu => hno u ((hreset u).mpr hu)
  · rw [hshared]
    exact h.reset u ((hreset u).mp hu)
  · rw [harr]
    exact h.all u ((hleads u).mp hu) v
  · exact h.unique u v ((hleads u).mp hu) ((hleads v).mp hv)
  · obtain ⟨u, hu⟩ := h.leader fun u => (harr u).symm.trans (hall u)
    exact ⟨u, (hleads u).mpr hu⟩

/-- The count before the last arrival. -/
theorem ofNat_eq_sub_one_iff {n : ℕ} (hn : n < N) (hN : N < 2 ^ 31) :
    BitVec.ofNat 32 n = BitVec.ofNat 32 N - 1 ↔ n + 1 = N := by
  bv_omega

/-- The next round is not this one. -/
theorem ofNat_ne_add_one (n : ℕ) : BitVec.ofNat 32 n ≠ BitVec.ofNat 32 n + 1 := by
  bv_omega

/-- Round `R + 1` is complete when all threads have arrived. -/
theorem card_arrived_eq_iff : (arrived R c).card = N ↔ ∀ t, (c.thread t).arrivals = R + 1 := by
  have huniv : (Finset.univ : Finset (Fin N)).card = N := by simp
  constructor
  · intro h t
    have : arrived R c = Finset.univ := Finset.eq_univ_of_card _ (h.trans huniv.symm)
    have ht : t ∈ arrived R c := this ▸ Finset.mem_univ t
    exact (Finset.mem_filter.mp ht).2
  · intro h
    have : arrived R c = Finset.univ := Finset.filter_true_of_mem fun t _ => h t
    rw [this, huniv]

/-- A thread arrives. -/
theorem BarrierInv.arrive (h : BarrierInv N R c) (hN : N < 2 ^ 31) {myIter : BitVec 32}
    (hpc : (c.thread t).pc = some (.xadd myIter))
    (hshared : c'.shared = { c.shared with curCount := c.shared.curCount + 1 })
    (hself : c'.thread t =
      ⟨some (.test myIter c.shared.curCount), (c.thread t).arrivals + 1, (c.thread t).returns⟩)
    (hother : ∀ u, u ≠ t → c'.thread u = c.thread u) : BarrierInv N R c' := by
  obtain ⟨harr, hret, hmy⟩ : (c.thread t).arrivals = R ∧ (c.thread t).returns = R ∧ myIter = BitVec.ofNat 32 R := by
    simpa only [Waiter.At, hpc] using h.each t
  have hcount := h.curCount fun u hu => h.not_leads harr hu.leads
  have hinsert : arrived R c' = insert t (arrived R c) := by
    ext u
    by_cases hu : u = t
    · subst hu
      simp [arrived, hself, harr]
    · simp [arrived, hother u hu, hu]
  have hcard : (arrived R c').card = (arrived R c).card + 1 := by
    rw [hinsert, Finset.card_insert_of_notMem]
    simp [arrived, harr]
  have hle : (arrived R c').card ≤ N := by
    simpa using Finset.card_le_univ (arrived R c')
  -- the thread leads exactly if it is the last one
  have hleads : (c'.thread t).Leads N ↔ ∀ u, (c'.thread u).arrivals = R + 1 := by
    rw [← card_arrived_eq_iff, hcard, ← ofNat_eq_sub_one_iff (by omega) hN, ← hcount, hself]
    rfl
  have honly : ∀ u, (c'.thread u).Leads N → u = t := by
    intro u hu
    by_contra hne
    rw [hother u hne] at hu
    exact h.not_leads harr hu
  refine ⟨hshared ▸ h.initCount, hshared ▸ h.iterations, fun u => ?_, fun _ => ?_, fun u hu => ?_, fun u hu => ?_,
    fun u v hu hv => ?_, fun hall => ⟨t, hleads.mpr hall⟩⟩
  · by_cases hu : u = t
    · rw [hu, hself]
      exact ⟨by rw [harr, hret], by rw [hret, hmy], .inl hret⟩
    · rw [hother u hu]
      exact h.each u
  · rw [hshared, hcard, BitVec.ofNat_add, ← hcount]
    rfl
  · rw [honly u hu.leads, hself] at hu
    cases hu
  · rw [honly u hu] at hu
    exact hleads.mp hu
  · rw [honly u hu, honly v hv]

/-- The leader resets `cur_count`. -/
theorem BarrierInv.resetCount (h : BarrierInv N R c) (hpc : (c.thread t).pc = some .reset)
    (hshared : c'.shared = { c.shared with curCount := 0 })
    (hself : c'.thread t = ⟨some .loadBump, (c.thread t).arrivals, (c.thread t).returns⟩)
    (hother : ∀ u, u ≠ t → c'.thread u = c.thread u) : BarrierInv N R c' := by
  have hat : (c.thread t).arrivals = R + 1 ∧ (c.thread t).returns = R := by
    simpa only [Waiter.At, hpc] using h.each t
  have hleads : (c.thread t).Leads N := by
    simp only [Waiter.Leads, hpc]
  have hleads' : (c'.thread t).Leads N := by
    rw [hself]
    trivial
  have honly : ∀ u, (c'.thread u).Leads N → u = t := by
    intro u hu
    by_contra hne
    rw [hother u hne] at hu
    exact hne (h.unique u t hu hleads)
  have hall : ∀ u, (c'.thread u).arrivals = R + 1 := by
    intro u
    by_cases hu : u = t
    · rw [hu, hself]
      exact hat.1
    · rw [hother u hu]
      exact h.all t hleads u
  refine ⟨hshared ▸ h.initCount, hshared ▸ h.iterations, fun u => ?_, fun hno => ?_, fun _ _ => ?_, fun _ _ => hall,
    fun u v hu hv => ?_, fun _ => ⟨t, hleads'⟩⟩
  · by_cases hu : u = t
    · rw [hu, hself]
      exact hat
    · rw [hother u hu]
      exact h.each u
  · refine absurd ?_ (hno t)
    rw [hself]
    trivial
  · rw [hshared]
  · rw [honly u hu, honly v hv]

/-- The leader ends the round. -/
theorem BarrierInv.endRound (h : BarrierInv N R c) {iterations : BitVec 32}
    (hpc : (c.thread t).pc = some (.storeBump iterations))
    (hshared : c'.shared = { c.shared with iterations := iterations + 1 })
    (hself : c'.thread t = ⟨some .ret, (c.thread t).arrivals, (c.thread t).returns⟩)
    (hother : ∀ u, u ≠ t → c'.thread u = c.thread u) : BarrierInv N (R + 1) c' := by
  obtain ⟨harr, hret, hiter⟩ : (c.thread t).arrivals = R + 1 ∧ (c.thread t).returns = R ∧
      iterations = BitVec.ofNat 32 R := by
    simpa only [Waiter.At, hpc] using h.each t
  have hleads : (c.thread t).Leads N := by
    simp only [Waiter.Leads, hpc]
  have hreset : (c.thread t).HasReset := by
    simp only [Waiter.HasReset, hpc]
  have hno : ∀ u, ¬ (c'.thread u).Leads N := by
    intro u hu
    by_cases hut : u = t
    · rw [hut, hself] at hu
      cases hu
    · rw [hother u hut] at hu
      exact hut (h.unique u t hu hleads)
  have hall : ∀ u, (c'.thread u).arrivals = R + 1 := by
    intro u
    by_cases hu : u = t
    · rw [hu, hself]
      exact harr
    · rw [hother u hu]
      exact h.all t hleads u
  refine ⟨hshared ▸ h.initCount, ?_, fun u => ?_, fun _ => ?_, fun u hu => absurd hu.leads (hno u),
    fun u hu => absurd hu (hno u), fun u v hu => absurd hu (hno u), fun h' => ?_⟩
  · rw [hshared, hiter, BitVec.ofNat_add]
    rfl
  · by_cases hu : u = t
    · rw [hu, hself]
      exact ⟨harr, by rw [hret]⟩
    · have hu' := hno u
      rw [hother u hu] at hu' ⊢
      exact (h.each u).next (h.all t hleads u) hu'
  · have hempty : arrived (R + 1) c' = ∅ := by
      apply Finset.filter_false_of_mem
      intro u _
      rw [hall u]
      omega
    rw [hshared, hempty]
    exact h.reset t hreset
  · have := h' t
    rw [hall t] at this
    omega

/-- An access of `barrier_wait`. -/
theorem BarrierInv.access (h : BarrierInv N R c) (hN : N < 2 ^ 31) {pc pc' : BarrierPc}
    (hpc : (c.thread t).pc = some pc) (hwait : c.shared.barrierWait pc = some (c'.shared, pc'))
    (hself : c'.thread t = ⟨some pc', (c.thread t).arrivals + pc.arrives, (c.thread t).returns⟩)
    (hother : ∀ u, u ≠ t → c'.thread u = c.thread u) : BarrierInv N R c' ∨ BarrierInv N (R + 1) c' := by
  have hat := h.each t
  simp only [Waiter.At, hpc] at hat
  cases pc with
  | xadd myIter =>
    obtain ⟨hshared, rfl⟩ := Prod.mk.inj (Option.some.inj hwait)
    exact .inl (h.arrive hN hpc hshared.symm hself hother)
  | reset =>
    obtain ⟨hshared, rfl⟩ := Prod.mk.inj (Option.some.inj hwait)
    exact .inl (h.resetCount hpc hshared.symm hself hother)
  | storeBump iterations =>
    obtain ⟨hshared, rfl⟩ := Prod.mk.inj (Option.some.inj hwait)
    exact .inr (h.endRound hpc hshared.symm hself hother)
  | loadIter =>
    obtain ⟨hshared, rfl⟩ := Prod.mk.inj (Option.some.inj hwait)
    refine .inl (h.quiet hshared.symm hother ?_ ?_ ?_ ?_)
    · rw [hself]
      exact ⟨hat.1, hat.2, h.iterations⟩
    all_goals simp [hself, hpc, BarrierPc.arrives, Waiter.Leads, Waiter.HasReset]
  | loadBump =>
    obtain ⟨hshared, rfl⟩ := Prod.mk.inj (Option.some.inj hwait)
    refine .inl (h.quiet hshared.symm hother ?_ ?_ ?_ ?_)
    · rw [hself]
      exact ⟨hat.1, hat.2, h.iterations⟩
    all_goals simp [hself, hpc, BarrierPc.arrives, Waiter.Leads, Waiter.HasReset]
  | test myIter prev =>
    obtain ⟨hshared, rfl⟩ := Prod.mk.inj (Option.some.inj hwait)
    rw [h.initCount] at hself
    by_cases hprev : prev = BitVec.ofNat 32 N - 1
    · -- the last thread to arrive
      rw [if_pos hprev] at hself
      refine .inl (h.quiet hshared.symm hother ?_ ?_ ?_ ?_)
      · rw [hself]
        have hret := hat.2.2.resolve_right fun h => h.2 hprev
        exact ⟨by rw [← hret]; exact hat.1, hret⟩
      all_goals simp [hself, hpc, hprev, BarrierPc.arrives, Waiter.Leads, Waiter.HasReset]
    · rw [if_neg hprev] at hself
      refine .inl (h.quiet hshared.symm hother ?_ ?_ ?_ ?_)
      · rw [hself]
        exact ⟨hat.1, hat.2.1, hat.2.2.imp_right And.left⟩
      · rw [hself]
        rfl
      · rw [hself]
        refine iff_of_false id ?_
        simpa only [Waiter.Leads, hpc] using hprev
      · simp [hself, hpc, Waiter.HasReset]
  | spin myIter =>
    obtain ⟨hshared, rfl⟩ := Prod.mk.inj (Option.some.inj hwait)
    by_cases hiter : c.shared.iterations ≠ myIter + 1
    · rw [if_pos hiter] at hself
      refine .inl (h.quiet hshared.symm hother ?_ ?_ ?_ ?_)
      · rw [hself]
        exact hat
      all_goals simp [hself, hpc, BarrierPc.arrives, Waiter.Leads, Waiter.HasReset]
    · -- the round it waits for is complete
      rw [if_neg hiter] at hself
      rw [ne_eq, not_not, h.iterations, hat.2.1] at hiter
      refine .inl (h.quiet hshared.symm hother ?_ ?_ ?_ ?_)
      · rw [hself]
        rcases hat.2.2 with hret | hret
        · rw [hret] at hiter
          exact absurd hiter (ofNat_ne_add_one R)
        · exact ⟨by rw [← hret]; exact hat.1, hret⟩
      all_goals simp [hself, hpc, BarrierPc.arrives, Waiter.Leads, Waiter.HasReset]
  | ret => cases hwait

/-- **One step** of one thread, in any state. -/
theorem BarrierInv.step (h : BarrierInv N R c) (hN : N < 2 ^ 31) {a : Fin N × BarrierAct}
    (hstep : BarrierStep N c a c') : BarrierInv N R c' ∨ BarrierInv N (R + 1) c' := by
  obtain ⟨t, a⟩ := a
  obtain ⟨hf, hother⟩ := hstep.spec
  have hat := h.each t
  unfold Barrier.step at hf
  split at hf
  · rename_i hpc
    obtain ⟨hshared, hself⟩ := Prod.mk.inj (Option.some.inj hf)
    simp only [Waiter.At, hpc] at hat
    refine .inl (h.quiet hshared.symm hother ?_ ?_ ?_ ?_)
    · rw [← hself]
      exact hat
    all_goals simp [← hself, hpc, Waiter.Leads, Waiter.HasReset]
  · rename_i hpc
    obtain ⟨hshared, hself⟩ := Prod.mk.inj (Option.some.inj hf)
    simp only [Waiter.At, hpc] at hat
    refine .inl (h.quiet hshared.symm hother ?_ ?_ ?_ ?_)
    · rw [← hself]
      exact hat
    all_goals simp [← hself, hpc, Waiter.Leads, Waiter.HasReset]
  · rename_i pc _ hpc
    obtain ⟨⟨bar, pc'⟩, hwait, he⟩ := Option.map_eq_some_iff.mp hf
    obtain ⟨rfl, hself⟩ := Prod.mk.inj he
    exact h.access hN hpc hwait hself.symm hother
  · cases hf

end

theorem barrierInv_start {N : ℕ} (hN : 0 < N) : BarrierInv N 0 (barrierStart N) := by
  refine ⟨rfl, rfl, fun t => ⟨rfl, rfl⟩, fun _ => ?_, nofun, nofun, nofun, fun h => ?_⟩
  · have hempty : arrived 0 (barrierStart N) = ∅ := Finset.filter_false_of_mem fun t _ => by simp [barrierStart]
    rw [hempty]
    rfl
  · cases h ⟨0, hN⟩

/-- The invariant holds after every interleaving. -/
theorem barrierInv_run {N : ℕ} (hN₀ : 0 < N) (hN : N < 2 ^ 31) {acts : List (Fin N × BarrierAct)} {c : BarrierSys N}
    (hrun : Exec (BarrierStep N) (barrierStart N) acts c) : ∃ R, BarrierInv N R c := by
  refine hrun.inv (I := fun c => ∃ R, BarrierInv N R c) ⟨0, barrierInv_start hN₀⟩ fun s a s' hs hstep => ?_
  obtain ⟨R, hR⟩ := hs
  rcases hR.step hN hstep with h | h
  · exact ⟨R, h⟩
  · exact ⟨R + 1, h⟩

/-! ### No thread spins for ever -/

/-- The thread spins, and its exit test fails. -/
def Waiter.Stuck (bar : Barrier) (l : Waiter) : Prop :=
  ∃ myIter, l.pc = some (.spin myIter) ∧ bar.iterations ≠ myIter + 1

/-- A thread spins in the round to be completed next, or in the one completed last. -/
theorem BarrierInv.iterations_of_spin {N R : ℕ} {c : BarrierSys N} (h : BarrierInv N R c) {t : Fin N}
    {myIter : BitVec 32} (hpc : (c.thread t).pc = some (.spin myIter)) :
    (c.shared.iterations = myIter ∧ (c.thread t).arrivals = R + 1) ∨ c.shared.iterations = myIter + 1 := by
  obtain ⟨harr, hmy, hret⟩ : (c.thread t).arrivals = (c.thread t).returns + 1 ∧
      myIter = BitVec.ofNat 32 (c.thread t).returns ∧ ((c.thread t).returns = R ∨ (c.thread t).returns + 1 = R) := by
    simpa only [Waiter.At, hpc] using h.each t
  rcases hret with hret | hret
  · exact .inl ⟨by rw [h.iterations, hmy, hret], by omega⟩
  · refine .inr ?_
    rw [h.iterations, hmy, ← hret, BitVec.ofNat_add]
    rfl

/-- A thread that leads does not spin. -/
theorem Waiter.Stuck.not_leads {N : ℕ} {bar : Barrier} {l : Waiter} (h : l.Stuck bar) : ¬ l.Leads N := by
  obtain ⟨myIter, hpc, -⟩ := h
  simp [Waiter.Leads, hpc]

/-- If all threads were stuck, all would have arrived, and the last one of them leads. -/
theorem BarrierInv.not_all_stuck {N R : ℕ} {c : BarrierSys N} (h : BarrierInv N R c) :
    ¬ ∀ t, (c.thread t).Stuck c.shared := by
  intro hstuck
  have hall : ∀ t, (c.thread t).arrivals = R + 1 := by
    intro t
    obtain ⟨myIter, hpc, hne⟩ := hstuck t
    rcases h.iterations_of_spin hpc with ⟨-, harr⟩ | heq
    · exact harr
    · exact absurd heq hne
  obtain ⟨t, ht⟩ := h.leader hall
  exact (hstuck t).not_leads ht

/-- **The barrier never sticks**: after no interleaving are all threads inside
`barrier_wait` and all of them spinning on an exit test that fails, and no round is
skipped while a thread spins. -/
theorem barrier_never_sticks {N : ℕ} (hN₀ : 0 < N) (hN : N < 2 ^ 31) {acts : List (Fin N × BarrierAct)}
    {c : BarrierSys N} (hrun : Exec (BarrierStep N) (barrierStart N) acts c) :
    (¬ ((∀ t, (c.thread t).pc ≠ none) ∧ ∀ t, (c.thread t).pc ≠ none → (c.thread t).Stuck c.shared)) ∧
    ∀ t myIter, (c.thread t).pc = some (.spin myIter) →
      c.shared.iterations = myIter ∨ c.shared.iterations = myIter + 1 := by
  obtain ⟨R, hR⟩ := barrierInv_run hN₀ hN hrun
  constructor
  · rintro ⟨hin, hstuck⟩
    exact hR.not_all_stuck fun t => hstuck t (hin t)
  · intro t myIter hpc
    exact (hR.iterations_of_spin hpc).imp_left And.left

/-- Two threads, the first of which spins while the second is on its way to end the round. -/
theorem barrier_never_sticks_two : ∃ acts c, Exec (BarrierStep 2) (barrierStart 2) acts c ∧
    c.thread 0 = ⟨some (.spin 0), 1, 0⟩ ∧ (c.thread 1).pc = some .loadBump ∧
    (c.shared.iterations = 0 ∨ c.shared.iterations = 0 + 1) := by
  let acts : List (Fin 2 × BarrierAct) :=
    (0, BarrierAct.call) :: List.replicate 3 (0, BarrierAct.run) ++
    (1, BarrierAct.call) :: List.replicate 4 (1, BarrierAct.run)
  have hrun : (Conc.run (fun _ => Barrier.step) (barrierStart 2) acts).map
      (fun c => (c.thread 0, (c.thread 1).pc)) = some (⟨some (.spin 0), 1, 0⟩, some .loadBump) := by
    decide +kernel
  obtain ⟨c, hc, he⟩ := Option.map_eq_some_iff.mp hrun
  obtain ⟨h₀, h₁⟩ := Prod.mk.inj he
  have hexec := Conc.exec_of_run hc
  refine ⟨acts, c, hexec, h₀, h₁, ?_⟩
  exact (barrier_never_sticks (by decide) (by decide) hexec).2 0 0 (by rw [h₀])

end PetLab.SyncProject
