import PetLab.Threads.Reclaim
import Mathlib.Algebra.BigOperators.Group.Finset.Basic
import Mathlib.Algebra.Order.BigOperators.Group.Finset

/-!
# Nested joins complete

`tests/test_many.c` creates twenty threads of which each joins the next. Here any number of
threads is created, and each joins one that was created later, or none; then it exits. The
threads are programs, lists of the calls they make (`Driven`), so that the run is determined.

The argument follows the ready list (`Nested.queue`). It begins with the threads that have
never run, in the order of their ids, and goes on with those that were woken. So the thread
that is dispatched first is the one with the least id, and the threads it may join have not
run yet: a target is always alive when it is joined. A thread that is blocked waits for one
with a larger id that has not exited, so not all can be blocked, and when nobody is left in the ready
list everybody has exited (`Nested.step`). Every call is made once, which bounds the run.
-/

namespace PetLab.Threads

open PetLab.Lib

/-! ### Threads with a program -/

/-- The library, and the calls that the threads have still to make. -/
structure Driven where
  /-- The library. -/
  sched : Sched
  /-- The calls to come, for each thread. -/
  prog : ℕ → List Call

/-- The running thread makes its next call. -/
def Driven.next (d : Driven) : Option Driven :=
  match d.prog d.sched.running with
  | [] => none
  | c :: cs => (d.sched.call c).map fun s => ⟨s, Function.update d.prog d.sched.running cs⟩

/-- What the threads of the test do: `main` creates `n` threads and runs them; a thread
joins its target, if it has one, and exits. -/
def nestedJoin (n : ℕ) (target : ℕ → Option ℕ) (retVal : ℕ → ℕ) : ℕ → List Call
  | 0 => List.replicate n .create ++ [.run]
  | i + 1 => ((target (i + 1)).map Call.join).toList ++ [.exit (retVal (i + 1))]

/-- `pet_thread_run` has returned, and the work is done. -/
structure Completed (n : ℕ) (target : ℕ → Option ℕ) (d : Driven) : Prop where
  /-- `main` has made its last call, and it returned with this list. -/
  returned : d.sched.running = 0 ∧ d.prog 0 = [] ∧ ∃ events, d.sched.trace = events ++ [.runReturned []]
  /-- All threads have exited. -/
  exited : ∀ i, 1 ≤ i → i ≤ n → Exited d.sched i
  /-- They have been freed. -/
  freed : ∀ i, 1 ≤ i → i ≤ n → i ∈ d.sched.freed
  /-- Nobody is left. -/
  empty : d.sched.readyList = [] ∧ d.sched.blockedList = []
  /-- Every thread exited after its target. -/
  order : ∀ i j before v after, target i = some j → d.sched.trace = before ++ .exited i v :: after →
    ∃ w, .exited j w ∈ before

/-! ### Handing over -/

/-- The running thread is left, and the head of the ready list goes on, or `main` if there is none. -/
structure Handed (s₁ s' : Sched) : Prop where
  running : s'.running = s₁.readyList.headD 0
  readyList : s'.readyList = s₁.readyList.tail
  cont : s'.cont = Function.update s₁.cont s'.running .user
  count : s'.threadIdCount = s₁.threadIdCount
  /-- What is observed is where it goes on. -/
  trace : ∃ event : Option Event, s'.trace = s₁.trace ++ event.toList ∧ (∀ u v, event ≠ some (.exited u v)) ∧
    (s₁.cont s'.running = .run → event = some (.runReturned s'.readyList)) ∧
    ∀ u, s₁.cont s'.running = .join u → ∃ r, event = some (.joined s'.running u r)

section Calls

variable {s s₁ s₂ s' : Sched} {c : Call} {st : RunState}

/-- The scheduler hands over, unless the thread left can still run. -/
theorem Scheduled.handed (hs : Scheduled st s₁ s₂) (hst : st = .running → s₁.running = 0)
    (hr : s₂.resume = some s') : Handed s₁ s' := by
  obtain ⟨hrunning, hready, hcont, hcount, htrace⟩ : s₂.running = s₁.readyList.headD 0 ∧
      s₂.readyList = s₁.readyList.tail ∧ s₂.cont = s₁.cont ∧ s₂.threadIdCount = s₁.threadIdCount ∧
      s₂.trace = s₁.trace := by
    have hqueue : (if st = .running ∧ s₁.running ≠ 0 then [s₁.running] else []) = [] :=
      if_neg fun h => h.2 (hst h.1)
    cases hs with
    | stay h₀ hl => exact ⟨by simp [hl, h₀], by simp [hl], rfl, rfl, rfl⟩
    | toMaster _ hl hsw =>
      refine ⟨by simp [hl, hsw.running], ?_, hsw.cont, hsw.count, hsw.trace⟩
      rw [hsw.readyList, hqueue, hl]
      rfl
    | toHead hl hsw =>
      refine ⟨by simp [hl, hsw.running], ?_, hsw.cont, hsw.count, hsw.trace⟩
      rw [hsw.readyList, hqueue, hl]
      simp
  obtain ⟨-, rfl⟩ := resume_eq_some_iff.mp hr
  refine ⟨hrunning, hready, ?_, hcount, s₂.resumeEvent, by rw [htrace], fun u v => ?_, fun hrun => ?_, fun u hu => ?_⟩
  · rw [← hcont]
    rfl
  · unfold Sched.resumeEvent
    split <;> simp
  · rw [← hcont] at hrun
    unfold Sched.resumeEvent
    rw [show s₂.cont s₂.running = .run from hrun]
    rfl
  · rw [← hcont] at hu
    unfold Sched.resumeEvent
    rw [show s₂.cont s₂.running = .join u from hu]
    exact ⟨_, rfl⟩

/-- A call that leaves the running thread where it cannot go on at once hands over. -/
theorem First.handed (hf : First s c st s₁) (h : Core .running s) (hk : ContOk s)
    (hst : st = .running → s₁.running = 0) :
    ∃ s', s₁.petThreadSchedule.bind Sched.resume = some s' ∧ Handed s₁ s' := by
  obtain ⟨hc, -, hne, hmaster⟩ := hf.core h
  obtain ⟨s₂, hs₂, hsch⟩ := hc.petThreadSchedule hne
  have hm : Moved c st s₁ s₂ := hsch.moved hc
  obtain ⟨s', hs'⟩ := (hm.core hc hne hmaster).resume (hm.contOk (hf.contOk h hk))
  exact ⟨s', by rw [hs₂]; exact hs', hsch.handed hst hs'⟩

theorem call_run_handed (h : Core .running s) (hk : ContOk s) (h₀ : s.running = 0) :
    ∃ s', s.call .run = some s' ∧ Handed (s.suspend .run) s' := First.run.handed h hk fun _ => h₀

/-- A join on a live thread: the caller is left in it. -/
theorem call_join_handed {j : ℕ} (h : Core .running s) (hk : ContOk s) (h₀ : s.running ≠ 0) (hj : Live s j)
    (hne : j ≠ s.running) :
    ∃ s₁ s', s.call (.join j) = some s' ∧ Handed s₁ s' ∧ s₁.readyList = s.readyList ∧
      s₁.cont = Function.update s.cont s.running (.join j) ∧ s₁.threadIdCount = s.threadIdCount ∧
      s₁.trace = s.trace := by
  have hj₀ : j ≠ 0 := Nat.pos_iff_ne_zero.mp hj.pos
  have hget : s.getThread j = some j := by
    rw [getThread_eq, if_pos]
    exact .inr (.inr (.inr (h.listed j hj hne)))
  obtain ⟨s₁, hs₁, hw⟩ := waitFor_waits (s := s.suspend (.join j)) h.runState hj₀
  have hf : First s (.join j) .blocked s₁ := .join h₀ hj₀ hw
  obtain ⟨s', hs', hh⟩ := hf.handed h hk (by simp)
  refine ⟨s₁, s', ?_, hh, hw.lists.1, hw.cont, hw.count, hw.trace⟩
  simp only [Sched.call, hget, hs₁, Option.bind_some]
  exact hs'

/-- An exit: those that waited are ready. -/
theorem call_exit_handed (retVal : ℕ) (h : Core .running s) (hk : ContOk s) (h₀ : s.running ≠ 0) :
    ∃ s₁ s', s.call (.exit retVal) = some s' ∧ Handed s₁ s' ∧ s₁.readyList = s.readyList ++ s.waiting s.running ∧
      s₁.cont = Function.update s.cont s.running .exited ∧ s₁.threadIdCount = s.threadIdCount ∧
      s₁.trace = s.trace ++ [.exited s.running retVal] := by
  obtain ⟨s₀, hs₀, hc, hr, hcont, htrace, hcount, hempty, hready⟩ := wakeAll_spec
    (P := fun v => v.readyList ++ v.waiting v.running = s.readyList ++ s.waiting s.running)
    (fun v x xs v' _ _ hwait (hwoken : Woken retVal v x v') hP => by
      rw [hwoken.readyList, hwoken.waiting, hwoken.running, if_pos rfl, hwait, ← hP, hwait]
      simp)
    (h.suspend .exited) h₀ rfl rfl
  have hf : First s (.exit retVal) .stopped ((s₀.setState s₀.running .stopped).note (.exited s₀.running retVal)) :=
    .exit h₀ hs₀
  obtain ⟨s', hs', hh⟩ := hf.handed h hk (by simp)
  rw [hempty, List.append_nil] at hready
  refine ⟨_, s', ?_, hh, hready, hcont, hcount, ?_⟩
  · simp only [Sched.call, quarantine_eq h₀ hs₀ hc hempty, Option.bind_some]
    exact hs'
  · rw [← show s₀.running = s.running from hr]
    show s₀.trace ++ _ = _
    rw [htrace]
    rfl

end Calls

/-! ### The invariant -/

/-- Every exit comes after that of the target. -/
def ExitOrder (target : ℕ → Option ℕ) (trace : List Event) : Prop :=
  ∀ i j before v after, target i = some j → trace = before ++ .exited i v :: after → ∃ w, .exited j w ∈ before

theorem ExitOrder.concat {target : ℕ → Option ℕ} {trace : List Event} {e : Event} (h : ExitOrder target trace)
    (he : ∀ i j v, e = .exited i v → target i = some j → ∃ w, .exited j w ∈ trace) :
    ExitOrder target (trace ++ [e]) := by
  intro i j before v after hij hsplit
  rcases List.eq_nil_or_concat after with rfl | ⟨after, e', rfl⟩
  · obtain ⟨rfl, hlast⟩ := List.append_inj' hsplit rfl
    exact he i j v (by simpa using hlast) hij
  · rw [List.concat_eq_append, ← List.cons_append, ← List.append_assoc] at hsplit
    exact h i j before v after hij (List.append_inj' hsplit rfl).1

/-- Events that are no exits. -/
theorem ExitOrder.append_toList {target : ℕ → Option ℕ} {trace : List Event} {event : Option Event}
    (h : ExitOrder target trace) (hevent : ∀ u v, event ≠ some (.exited u v)) :
    ExitOrder target (trace ++ event.toList) := by
  cases event with
  | none => simpa using h
  | some e => exact h.concat fun i j v he => absurd (congrArg some he) (hevent i v)

section

variable (n : ℕ) (target : ℕ → Option ℕ) (retVal : ℕ → ℕ)

/-- Where the threads are: those from `k` on have not run yet. -/
structure Queue (d : Driven) (k : ℕ) (woken : List ℕ) : Prop where
  /-- They are the first that are ready. -/
  ready : d.sched.readyList = List.range' k (n + 1 - k) ++ woken
  le : k ≤ n + 1
  lt : d.sched.running < k
  /-- They have everything before them. -/
  fresh : ∀ i, k ≤ i → i ≤ n → d.prog i = nestedJoin n target retVal i
  /-- The others are in their join, and will exit after it. -/
  left : ∀ i, Live d.sched i → i < k → i ≠ d.sched.running →
    ∃ j, target i = some j ∧ d.sched.cont i = .join j ∧ d.prog i = [.exit (retVal i)]
  /-- The running thread has just been dispatched for the first time, or is back from its join. -/
  running : (d.prog d.sched.running = nestedJoin n target retVal d.sched.running ∧ k = d.sched.running + 1) ∨
    (d.prog d.sched.running = [.exit (retVal d.sched.running)] ∧
      ∀ j, target d.sched.running = some j → Exited d.sched j)

/-- What holds while the threads run. -/
structure Nested (d : Driven) : Prop where
  inv : ReclaimInv d.sched
  count : d.sched.threadIdCount = n + 1
  /-- `main` is in `pet_thread_run`. -/
  main : d.sched.cont 0 = .run ∧ d.prog 0 = []
  thread : d.sched.running ≠ 0
  order : ExitOrder target d.sched.trace
  queue : ∃ k woken, Queue n target retVal d k woken

/-- The calls that are still to be made. -/
def Driven.todo (n : ℕ) (d : Driven) : ℕ := ∑ i ∈ Finset.range (n + 1), (d.prog i).length

end

section Steps

variable {n : ℕ} {target : ℕ → Option ℕ} {retVal : ℕ → ℕ} {s s₁ s' : Sched} {prog : ℕ → List Call} {k : ℕ}
  {woken : List ℕ}

/-- When nobody is ready, everybody has exited: a blocked thread waits for a live one with a larger id. -/
theorem not_live_of_blocked (hI : JoinInv s) (hcount : s.threadIdCount = n + 1) (hready : s.readyList = [])
    (hrun : s.running = 0) (htarget : ∀ i j, 1 ≤ i → i ≤ n → target i = some j → i < j ∧ j ≤ n)
    (hjoins : ∀ i, Live s i → ∃ j, target i = some j ∧ s.cont i = .join j) : ∀ i, ¬ Live s i := by
  have hnext : ∀ i, Live s i → ∃ j, i < j ∧ Live s j := by
    intro i hi
    obtain ⟨j, hij, hcont⟩ := hjoins i hi
    have hlt := hi.created
    refine ⟨j, (htarget i j hi.pos (by omega) hij).1, ?_⟩
    have hne : i ≠ s.running := by
      rw [hrun]
      exact Nat.pos_iff_ne_zero.mp hi.pos
    have hblocked := (hI.core.listed i hi hne).resolve_left (by simp [hready])
    rcases hI.joining.joining i j hi hcont with ⟨-, -, hj⟩ | ⟨hst, -⟩
    · exact hj
    · rw [(hI.core.blocked i hblocked).2.2] at hst
      cases hst
  intro i hi
  induction hm : n + 1 - i using Nat.strongRecOn generalizing i with
  | ind m ih =>
    obtain ⟨j, hij, hj⟩ := hnext i hi
    have hlt := hj.created
    exact ih (n + 1 - j) (by omega) j hj rfl

/-- The scheduler hands over to the next thread that has not run, else to one that was woken, else to `main`. -/
theorem Handed.nested (hh : Handed s₁ s') (hI : ReclaimInv s') (hcount : s'.threadIdCount = n + 1)
    (htarget : ∀ i j, 1 ≤ i → i ≤ n → target i = some j → i < j ∧ j ≤ n)
    (hready : s₁.readyList = List.range' k (n + 1 - k) ++ woken) (hk : 0 < k) (hle : k ≤ n + 1) (hpos : 0 ∉ woken)
    (hfresh : ∀ i, k ≤ i → i ≤ n → prog i = nestedJoin n target retVal i)
    (hleft : ∀ i, Live s' i → i < k → ∃ j, target i = some j ∧ s₁.cont i = .join j ∧ prog i = [.exit (retVal i)])
    (hmain : s₁.cont 0 = .run ∧ prog 0 = []) (horder : ExitOrder target s'.trace) :
    Nested n target retVal ⟨s', prog⟩ ∨ Completed n target ⟨s', prog⟩ := by
  have hrunning := hh.running
  have hlist := hh.readyList
  obtain ⟨event, htrace, -, hrun, hjoin⟩ := hh.trace
  have hcont : ∀ i, i ≠ s'.running → s'.cont i = s₁.cont i := by
    intro i hi
    rw [hh.cont, Function.update_of_ne hi]
  by_cases hkn : k ≤ n
  · -- the next one in line
    rw [hready, show n + 1 - k = n - k + 1 by omega, List.range'_succ] at hrunning hlist
    replace hrunning : s'.running = k := hrunning
    replace hlist : s'.readyList = List.range' (k + 1) (n - k) ++ woken := hlist
    refine .inl ⟨hI, hcount, ⟨?_, hmain.2⟩, ?_, horder, k + 1, woken, ?_⟩
    · rw [hcont 0 (by rw [hrunning]; omega)]
      exact hmain.1
    · show s'.running ≠ 0
      rw [hrunning]
      omega
    · refine ⟨by rw [show n + 1 - (k + 1) = n - k by omega]; exact hlist, by omega, by simp only [hrunning]; omega,
        fun i hi => hfresh i (by omega), fun i hi hlt hne => ?_, .inl ⟨?_, by simp only [hrunning]⟩⟩
      · simp only [hrunning] at hne ⊢
        rw [hcont i (by rw [hrunning]; exact hne)]
        exact hleft i hi (by omega)
      · simp only [hrunning]
        exact hfresh k le_rfl hkn
  · obtain rfl : k = n + 1 := by omega
    rw [Nat.sub_self, List.range'_zero, List.nil_append] at hready
    have hlt : ∀ i, Live s' i → i < n + 1 := fun i hi => hcount ▸ hi.created
    cases woken with
    | nil =>
      -- nobody is ready
      rw [hready] at hrunning hlist
      replace hrunning : s'.running = 0 := hrunning
      replace hlist : s'.readyList = [] := hlist
      have hnone : ∀ i, ¬ Live s' i := by
        refine not_live_of_blocked hI.joins hcount hlist hrunning htarget fun i hi => ?_
        obtain ⟨j, hij, hj, -⟩ := hleft i hi (hlt i hi)
        rw [hcont i (by rw [hrunning]; exact Nat.pos_iff_ne_zero.mp hi.pos)]
        exact ⟨j, hij, hj⟩
      have hexited : ∀ i, 1 ≤ i → i ≤ n → Exited s' i := by
        intro i h₁ h₂
        by_contra hex
        exact hnone i ⟨h₁, by omega, hex⟩
      refine .inr ⟨⟨hrunning, hmain.2, s₁.trace, ?_⟩, hexited, fun i h₁ h₂ => ?_, ⟨hlist, ?_⟩, horder⟩
      · show s'.trace = _
        rw [htrace, hrun (by rw [hrunning]; exact hmain.1), hlist]
        rfl
      · exact (hI.records.exited i).mp (hexited i h₁ h₂)
      · exact List.eq_nil_iff_forall_not_mem.mpr fun i hi => hnone i (hI.joins.core.blocked i hi).1
    | cons x xs =>
      -- a thread whose target has exited
      rw [hready] at hrunning hlist
      replace hrunning : s'.running = x := hrunning
      replace hlist : s'.readyList = xs := hlist
      have hx₀ : x ≠ 0 := by
        rintro rfl
        exact hpos List.mem_cons_self
      have hx : Live s' x := hrunning ▸ hI.joins.core.runLive (by decide) (by rw [hrunning]; exact hx₀)
      obtain ⟨j, hxj, hxcont, hxprog⟩ := hleft x hx (hlt x hx)
      refine .inl ⟨hI, hcount, ⟨?_, hmain.2⟩, ?_, horder, n + 1, xs, ?_⟩
      · rw [hcont 0 (by rw [hrunning]; exact Ne.symm hx₀)]
        exact hmain.1
      · show s'.running ≠ 0
        rw [hrunning]
        exact hx₀
      · refine ⟨by simpa using hlist, le_rfl, by simp only [hrunning]; exact hlt x hx, hfresh, fun i hi hlt' hne => ?_,
          .inr ⟨by simp only [hrunning]; exact hxprog, fun j' hj' => ?_⟩⟩
        · simp only [hrunning] at hne
          simp only [hcont i (by rw [hrunning]; exact hne)]
          exact hleft i hi hlt'
        · simp only [hrunning] at hj'
          obtain rfl : j = j' := Option.some.inj (hxj.symm.trans hj')
          obtain ⟨r, hr⟩ := hjoin j (by rw [hrunning]; exact hxcont)
          rw [hr] at htrace
          have hmem := hI.joins.trace.returned s₁.trace s'.running j r [] htrace
          refine ⟨r, ?_⟩
          show _ ∈ s'.trace
          rw [htrace]
          exact List.mem_append.mpr (.inl hmem)

/-- A call is done. -/
theorem todo_update {r : ℕ} {c : Call} {cs : List Call} (hr : r ≤ n) (hprog : prog r = c :: cs) :
    Driven.todo n ⟨s', Function.update prog r cs⟩ < Driven.todo n ⟨s, prog⟩ := by
  refine Finset.sum_lt_sum (fun i _ => ?_) ⟨r, Finset.mem_range.mpr (by omega), ?_⟩
  · by_cases hi : i = r
    · simp [hi, hprog]
    · simp [Function.update_of_ne hi]
  · simp [hprog]

/-- Who has exited is never live again. -/
theorem live_of_trace {events : List Event} (hcount : s'.threadIdCount = s.threadIdCount)
    (htrace : s'.trace = s.trace ++ events) {i : ℕ} (hi : Live s' i) : Live s i := by
  refine ⟨hi.pos, hcount ▸ hi.created, ?_⟩
  rintro ⟨v, hv⟩
  exact hi.unexited ⟨v, htrace ▸ List.mem_append.mpr (.inl hv)⟩

/-- The running thread exits. -/
theorem Nested.exit (h : Nested n target retVal ⟨s, prog⟩)
    (htarget : ∀ i j, 1 ≤ i → i ≤ n → target i = some j → i < j ∧ j ≤ n)
    (hq : Queue n target retVal ⟨s, prog⟩ k woken) (hexited : ∀ j, target s.running = some j → Exited s j) :
    ∃ s', s.call (.exit (retVal s.running)) = some s' ∧
      (Nested n target retVal ⟨s', Function.update prog s.running []⟩ ∨
        Completed n target ⟨s', Function.update prog s.running []⟩) := by
  have hcore := h.inv.joins.core
  have hrun : Live s s.running := hcore.runLive (by decide) h.thread
  obtain ⟨s₁, s', hs', hh, hready, hcont, hcount, htrace⟩ :=
    call_exit_handed (retVal s.running) hcore h.inv.joins.cont h.thread
  obtain ⟨event, htrace', hevent, -⟩ := hh.trace
  rw [htrace, List.append_assoc] at htrace'
  have hcount' : s'.threadIdCount = s.threadIdCount := hh.count.trans hcount
  have hlive : ∀ i, Live s' i → Live s i ∧ i ≠ s.running := by
    intro i hi
    refine ⟨live_of_trace hcount' htrace' hi, ?_⟩
    rintro rfl
    exact hi.unexited ⟨retVal s.running, by rw [htrace']; simp⟩
  have hqready : s.readyList = List.range' k (n + 1 - k) ++ woken := hq.ready
  have hready₁ : s₁.readyList = List.range' k (n + 1 - k) ++ (woken ++ s.waiting s.running) := by
    rw [hready, hqready, List.append_assoc]
  refine ⟨s', hs', hh.nested (h.inv.step (c := .exit _) ⟨h.thread, by simp⟩ hs') (hcount'.trans h.count) htarget hready₁
    ?_ hq.le ?_ ?_ ?_ ?_ ?_⟩
  · have := hq.lt
    omega
  · intro h₀
    rcases List.mem_append.mp h₀ with hw | hw
    · exact hcore.master_notMem (by rw [hqready]; exact List.mem_append.mpr (.inr hw))
    · exact absurd (hcore.waiters _ 0 hrun hw).1.pos (lt_irrefl 0)
  · intro i hi hin
    have hlt : s.running < k := hq.lt
    rw [Function.update_of_ne (by omega)]
    exact hq.fresh i hi hin
  · intro i hi hik
    obtain ⟨hi, hne⟩ := hlive i hi
    rw [hcont, Function.update_of_ne hne, Function.update_of_ne hne]
    exact hq.left i hi hik hne
  · rw [hcont, Function.update_of_ne (Ne.symm h.thread), Function.update_of_ne (Ne.symm h.thread)]
    exact h.main
  · rw [htrace', ← List.append_assoc]
    refine ExitOrder.append_toList (h.order.concat fun i j v he hij => ?_) hevent
    obtain rfl := (Event.exited.inj he).1
    exact hexited j hij

/-- The running thread joins a thread that has not run yet. -/
theorem Nested.join {j : ℕ} (h : Nested n target retVal ⟨s, prog⟩)
    (htarget : ∀ i j, 1 ≤ i → i ≤ n → target i = some j → i < j ∧ j ≤ n)
    (hq : Queue n target retVal ⟨s, prog⟩ k woken) (hk : k = s.running + 1) (hj : target s.running = some j) :
    ∃ s', s.call (.join j) = some s' ∧
      (Nested n target retVal ⟨s', Function.update prog s.running [.exit (retVal s.running)]⟩ ∨
        Completed n target ⟨s', Function.update prog s.running [.exit (retVal s.running)]⟩) := by
  have hcore := h.inv.joins.core
  have hrun : Live s s.running := hcore.runLive (by decide) h.thread
  have hrunLt : s.running < n + 1 := h.count ▸ hrun.created
  obtain ⟨hlt, hjn⟩ := htarget s.running j hrun.pos (by omega) hj
  have hqready : s.readyList = List.range' k (n + 1 - k) ++ woken := hq.ready
  -- the target has not run, so it is ready
  have hjmem : j ∈ s.readyList := by
    rw [hqready, List.mem_append, List.mem_range'_1]
    exact .inl (by omega)
  have hjlive := (hcore.ready j hjmem).1
  obtain ⟨s₁, s', hs', hh, hready, hcont, hcount, htrace⟩ :=
    call_join_handed hcore h.inv.joins.cont h.thread hjlive hlt.ne'
  obtain ⟨event, htrace', hevent, -⟩ := hh.trace
  rw [htrace] at htrace'
  have hcount' : s'.threadIdCount = s.threadIdCount := hh.count.trans hcount
  have hallowed : Allowed s (.join j) := by
    refine ⟨h.thread, fun u hu => ?_⟩
    obtain rfl := Call.join.inj hu
    exact hjlive
  refine ⟨s', hs', hh.nested (h.inv.step hallowed hs') (hcount'.trans h.count) htarget
    (hready.trans hqready) (by omega) hq.le ?_ ?_ ?_ ?_ ?_⟩
  · exact fun hw => hcore.master_notMem (by rw [hqready]; exact List.mem_append.mpr (.inr hw))
  · intro i hi hin
    rw [Function.update_of_ne (by omega)]
    exact hq.fresh i hi hin
  · intro i hi hik
    by_cases hir : i = s.running
    · subst hir
      exact ⟨j, hj, by rw [hcont, Function.update_self], Function.update_self ..⟩
    · rw [hcont, Function.update_of_ne hir, Function.update_of_ne hir]
      exact hq.left i (live_of_trace hcount' htrace' hi) hik hir
  · rw [hcont, Function.update_of_ne (Ne.symm h.thread), Function.update_of_ne (Ne.symm h.thread)]
    exact h.main
  · rw [htrace']
    exact ExitOrder.append_toList h.order hevent

/-- **One call**: the run goes on, with one call less to make, or is over. -/
theorem Nested.step (htarget : ∀ i j, 1 ≤ i → i ≤ n → target i = some j → i < j ∧ j ≤ n) (d : Driven)
    (h : Nested n target retVal d) :
    ∃ d', d.next = some d' ∧ (Completed n target d' ∨ Nested n target retVal d' ∧ d'.todo n < d.todo n) := by
  obtain ⟨s, prog⟩ := d
  obtain ⟨k, woken, hq⟩ := h.queue
  have hrun : Live s s.running := h.inv.joins.core.runLive (by decide) h.thread
  have hrunLt : s.running < n + 1 := h.count ▸ hrun.created
  -- the first call of the running thread is its join or its exit
  have hgo : ∀ c cs, prog s.running = c :: cs →
      (∃ s', s.call c = some s' ∧ (Nested n target retVal ⟨s', Function.update prog s.running cs⟩ ∨
        Completed n target ⟨s', Function.update prog s.running cs⟩)) →
      ∃ d', Driven.next ⟨s, prog⟩ = some d' ∧
        (Completed n target d' ∨ Nested n target retVal d' ∧ d'.todo n < Driven.todo n ⟨s, prog⟩) := by
    rintro c cs hprog ⟨s', hs', hcases⟩
    refine ⟨_, by simp [Driven.next, hprog, hs'], hcases.symm.imp_right fun hn => ⟨hn, ?_⟩⟩
    exact todo_update (by omega) hprog
  rcases hq.running with ⟨hprog, hk⟩ | ⟨hprog, hexited⟩
  · have hscript : nestedJoin n target retVal s.running =
        ((target s.running).map Call.join).toList ++ [.exit (retVal s.running)] := by
      obtain ⟨i, hi⟩ := Nat.exists_eq_succ_of_ne_zero h.thread
      rw [hi, nestedJoin]
    replace hprog : prog s.running = _ := hprog.trans hscript
    cases hj : target s.running with
    | none =>
      rw [hj] at hprog
      exact hgo _ _ hprog (h.exit htarget hq fun j hj' => by simp [hj] at hj')
    | some j =>
      rw [hj] at hprog
      exact hgo _ _ hprog (h.join htarget hq hk hj)
  · exact hgo _ _ hprog (h.exit htarget hq hexited)

/-! ### The whole run -/

/-- The first calls of `main`. -/
theorem runFor_create (target : ℕ → Option ℕ) (retVal : ℕ → ℕ) {k : ℕ} (hk : k ≤ n) :
    ∃ s, runFor Driven.next k ⟨petThreadInit, nestedJoin n target retVal⟩ =
        some ⟨s, Function.update (nestedJoin n target retVal) 0 (List.replicate (n - k) .create ++ [.run])⟩ ∧
      ReclaimInv s ∧ s.running = 0 ∧ s.threadIdCount = k + 1 ∧ s.readyList = List.range' 1 k ∧ s.trace = [] := by
  induction k with
  | zero =>
    refine ⟨petThreadInit, ?_, reclaimInv_petThreadInit, rfl, rfl, rfl, rfl⟩
    rw [runFor, Nat.sub_zero, show List.replicate n Call.create ++ [.run] = nestedJoin n target retVal 0 from rfl,
      Function.update_eq_self]
  | succ k ih =>
    obtain ⟨s, hs, hI, hrun, hcount, hready, htrace⟩ := ih (by omega)
    refine ⟨s.petThreadCreate, ?_, hI.step (c := .create) ⟨trivial, by simp⟩ rfl, hrun, by rw [← hcount]; rfl, ?_,
      htrace⟩
    · rw [runFor_add, hs, show n - k = n - (k + 1) + 1 by omega]
      simp [runFor, Driven.next, hrun, List.replicate_succ, Sched.call]
    · show s.readyList ++ [s.threadIdCount] = _
      rw [hready, hcount, List.range'_1_concat, Nat.add_comm]

end Steps

/-- **Nested joins complete.** Whatever thread each of `n` threads joins, as long as it was created later:
`pet_thread_run` returns, when all of them have exited, each after its target, and have been freed. -/
theorem nestedJoin_completes (n : ℕ) (target : ℕ → Option ℕ) (retVal : ℕ → ℕ)
    (htarget : ∀ i j, 1 ≤ i → i ≤ n → target i = some j → i < j ∧ j ≤ n) :
    ∃ steps d, runFor Driven.next steps ⟨petThreadInit, nestedJoin n target retVal⟩ = some d ∧
      Completed n target d := by
  obtain ⟨s, hs, hI, hrun, hcount, hready, htrace⟩ := runFor_create target retVal (le_refl n)
  obtain ⟨s', hs', hh⟩ := call_run_handed hI.joins.core hI.joins.cont hrun
  obtain ⟨event, htrace', hevent, -⟩ := hh.trace
  -- `main` calls `pet_thread_run`
  obtain ⟨prog, hprog⟩ : ∃ prog, prog = Function.update (nestedJoin n target retVal) 0 [] := ⟨_, rfl⟩
  have hnext : Driven.next ⟨s, Function.update (nestedJoin n target retVal) 0 [.run]⟩ = some ⟨s', prog⟩ := by
    simp [Driven.next, hrun, hs', hprog]
  have hfirst : runFor Driven.next (n + 1) ⟨petThreadInit, nestedJoin n target retVal⟩ = some ⟨s', prog⟩ := by
    rw [runFor_add, hs, Nat.sub_self, List.replicate_zero, List.nil_append, Option.bind_some, runFor, hnext]
    rfl
  have hstart : Nested n target retVal ⟨s', prog⟩ ∨ Completed n target ⟨s', prog⟩ := by
    have hready₁ : (s.suspend .run).readyList = List.range' 1 (n + 1 - 1) ++ [] := by
      show s.readyList = _
      simpa using hready
    refine hh.nested (hI.step (c := .run) ⟨trivial, by simp⟩ hs') (hh.count.trans hcount) htarget hready₁
      Nat.one_pos (by omega) (by simp) ?_ ?_ ⟨?_, ?_⟩ ?_
    · intro i hi _
      rw [hprog, Function.update_of_ne (by omega)]
    · intro i hi hlt
      have := hi.pos
      omega
    · simp [Sched.suspend, hrun]
    · rw [hprog, Function.update_self]
    · rw [htrace', show (s.suspend .run).trace = [] from htrace]
      exact ExitOrder.append_toList (fun i j before v after _ hsplit => by simp at hsplit) hevent
  rcases hstart with hnested | hdone
  · obtain ⟨m, d, hd, hdone⟩ := runFor_of_variant (μ := Driven.todo n) (Nested.step htarget) hnested
    refine ⟨n + 1 + m, d, ?_, hdone⟩
    rw [runFor_add, hfirst, Option.bind_some, hd]
  · exact ⟨n + 1, _, hfirst, hdone⟩

/-- The chain of twenty threads of the test, in which each joins the next. -/
theorem nestedJoin_completes_chain :
    ∃ steps d, runFor Driven.next steps
        ⟨petThreadInit, nestedJoin 20 (fun i => if i < 20 then some (i + 1) else none) fun _ => 0⟩ = some d ∧
      Completed 20 (fun i => if i < 20 then some (i + 1) else none) d := by
  refine nestedJoin_completes 20 _ _ fun i j _ _ hij => ?_
  split_ifs at hij with hlt
  obtain rfl := Option.some.inj hij
  omega

end PetLab.Threads
