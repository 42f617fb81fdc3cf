import PetLab.Threads.SchedCalls

/-!
# Lookups and freed records

`get_thread` looks at `stopped`, the last thread that exited, before it looks at the queues.
`pet_thread_cleanup` frees the record of that thread in the very switch that leaves it, and
`stopped` goes on pointing there. This module says which records a lookup reads
(`Sched.getThreadReads`), which lookups a call makes (`Sched.lookups`), and when one of them
reads a record that has been freed.

Nothing is assumed about who calls what: `main` may join too. The invariant is therefore weaker than
`Core`, which such runs break: all that is used is that a freed thread is in state
`STOPPED`, that only threads in other states are switched to, and that `stopped` is the last
record freed (`FreedInv`).
-/

namespace PetLab.Threads

open PetLab.Lib

/-- The records that a loop over a list reads until it finds `threadId`. -/
def readsUpTo (threadId : ℕ) : List ℕ → List ℕ
  | [] => []
  | pos :: rest => pos :: if pos = threadId then [] else readsUpTo threadId rest

/-- The records whose `id` is read in `get_thread(threadId)`. -/
def Sched.getThreadReads (s : Sched) (threadId : ℕ) : List ℕ :=
  if threadId = masterId then []
  else s.running ::
    if s.running = threadId then []
    else s.stopped.toList ++
      if s.stopped = some threadId then []
      else readsUpTo threadId s.readyList ++
        if threadId ∈ s.readyList then [] else readsUpTo threadId s.blockedList

/-- `get_thread(threadId)` reads a record that has been freed. -/
def Sched.ReadsFreed (s : Sched) (threadId : ℕ) : Prop := ∃ t ∈ s.getThreadReads threadId, t ∈ s.freed

/-- `__thread_invoker` up to `pet_thread_cleanup`. -/
def Sched.switchTo (s : Sched) (t : ℕ) : Option Sched :=
  if (s.thread t).state ≠ .ready ∨ (s.thread s.running).state = .ready then none
  else
    (if t ≠ masterId then s.listDel t else some s).map fun s₁ =>
      (({ s₁ with running := t }).putOld s.running).setState t .running

/-- The lookup of `pet_thread_cleanup` in a switch to `t`: the state it is made in, and the id looked for. -/
def Sched.invokerLookups (s : Sched) (t : ℕ) : List (Sched × ℕ) :=
  (s.switchTo t).toList.map fun s₁ => (s₁, s.running)

/-- The lookups of `pet_thread_schedule`. -/
def Sched.scheduleLookups (s : Sched) : List (Sched × ℕ) :=
  match s.readyList with
  | [] => if s.running ≠ masterId then s.invokerLookups masterId else []
  | pos :: _ => if (s.thread pos).state ≠ .ready then [] else s.invokerLookups pos

/-- The lookups of `__yield_to`. -/
def Sched.yieldLookups (s : Sched) (tgt : Option ℕ) : List (Sched × ℕ) :=
  match tgt with
  | none => s.scheduleLookups
  | some t => if (s.thread t).state ≠ .ready then s.scheduleLookups else s.invokerLookups t

/-- The calls of `get_thread` that a call of the library makes. -/
def Sched.lookups (s : Sched) : Call → List (Sched × ℕ)
  | .create => []
  | .run => (s.suspend .run).scheduleLookups
  | .schedule => (s.suspend .sched).scheduleLookups
  | .yieldTo threadId => (s, threadId) :: (s.suspend .sched).yieldLookups (s.getThread threadId)
  | .join threadId => (s, threadId) ::
    match s.getThread threadId with
    | none => []
    | some t => ((s.suspend (.join threadId)).waitFor t).toList.flatMap Sched.scheduleLookups
  | .exit retVal => ((s.suspend .exited).quarantine retVal).toList.flatMap Sched.scheduleLookups

/-- `running`, both queues, all states and all waiting lists are as they were. -/
structure Unchanged (s s' : Sched) : Prop where
  running : s'.running = s.running
  readyList : s'.readyList = s.readyList
  blockedList : s'.blockedList = s.blockedList
  state : ∀ t, s'.state t = s.state t
  waiting : ∀ t, s'.waiting t = s.waiting t

/-- Threads that have exited are invisible to a call: none of its lookups reads a freed record, and a join
on a thread that has been cleaned up finds nobody, returns `-1` and changes nothing. -/
def Invisible (s : Sched) (c : Call) (s' : Sched) : Prop :=
  (∀ l ∈ s.lookups c, ¬ l.1.ReadsFreed l.2) ∧
    ∀ threadId, c = .join threadId → threadId ∈ s.freed → s.getThread threadId = none ∧ Unchanged s s'

/-- A call that leaves `stopped` alone, if it points at a freed record: `pet_thread_create`, an exit, and
the calls of `main` that name no other thread. -/
def Harmless (s : Sched) (c : Call) : Prop :=
  s.freed = [] ∨ match c with
    | .create | .exit _ => True
    | .run | .schedule => s.running = 0
    | .yieldTo threadId => s.running = 0 ∧ threadId = 0
    | .join _ => False

/-! ### What a switch does -/

section

variable {s s₁ s' u : Sched} {t : ℕ}

theorem threadInvoker_eq (s : Sched) (t : ℕ) :
    s.threadInvoker t = (s.switchTo t).bind fun s₁ => s₁.petThreadCleanup s.running := by
  unfold Sched.threadInvoker Sched.switchTo
  split_ifs with h
  · rfl
  · rw [Option.bind_map]
    rfl
  · rfl

/-- A switch to `t`, up to the cleaning up. -/
structure SwitchedTo (s : Sched) (t : ℕ) (u : Sched) : Prop where
  /-- `t` was ready, -/
  ready : s.state t = .ready
  /-- the thread that ran was not. -/
  old : s.state s.running ≠ .ready
  running : u.running = t
  count : u.threadIdCount = s.threadIdCount
  freed : u.freed = s.freed
  trace : u.trace = s.trace
  cont : u.cont = s.cont
  stopped : u.stopped = if s.state s.running = .stopped then some s.running else s.stopped
  state : ∀ x, u.state x =
    if x = t then .running else if x = s.running ∧ s.state s.running = .running then .ready else s.state x
  waiting : ∀ x, u.waiting x = s.waiting x
  /-- Every thread but the master thread is taken out of the list it is in. -/
  listed : t ≠ 0 → t ∈ s.readyList ∨ t ∈ s.blockedList
  readyList : u.readyList = (if t = 0 then s.readyList else s.readyList.erase t) ++
    if s.state s.running = .running ∧ s.running ≠ 0 then [s.running] else []

/-- What `list_del` leaves alone. -/
structure SameButLists (s s₁ : Sched) : Prop where
  running : s₁.running = s.running
  count : s₁.threadIdCount = s.threadIdCount
  freed : s₁.freed = s.freed
  trace : s₁.trace = s.trace
  stopped : s₁.stopped = s.stopped
  thread : s₁.thread = s.thread
  cont : s₁.cont = s.cont

theorem listDel_spec (h : s.listDel t = some s₁) : SameButLists s s₁ ∧ s₁.readyList = s.readyList.erase t ∧
    (t ∈ s.readyList ∨ t ∈ s.blockedList) := by
  unfold Sched.listDel at h
  split_ifs at h with hr hb
  · obtain rfl := Option.some.inj h
    exact ⟨⟨rfl, rfl, rfl, rfl, rfl, rfl, rfl⟩, rfl, .inl hr⟩
  · obtain rfl := Option.some.inj h
    exact ⟨⟨rfl, rfl, rfl, rfl, rfl, rfl, rfl⟩, (List.erase_of_not_mem hr).symm, .inr hb⟩

/-- What becomes of the thread left. -/
structure PutOld (s : Sched) (old : ℕ) (s' : Sched) : Prop where
  running : s'.running = s.running
  count : s'.threadIdCount = s.threadIdCount
  freed : s'.freed = s.freed
  trace : s'.trace = s.trace
  cont : s'.cont = s.cont
  /-- It is remembered if it exited. -/
  stopped : s'.stopped = if s.state old = .stopped then some old else s.stopped
  /-- It gets ready if it can still run, -/
  state : ∀ x, s'.state x = if x = old ∧ s.state old = .running then .ready else s.state x
  waiting : ∀ x, s'.waiting x = s.waiting x
  /-- and is put into the ready list, unless it is the master thread. -/
  readyList : s'.readyList = s.readyList ++ if s.state old = .running ∧ old ≠ 0 then [old] else []

theorem putOld_spec (s : Sched) (old : ℕ) : PutOld s old (s.putOld old) := by
  unfold Sched.putOld
  have hstate : (s.thread old).state = s.state old := rfl
  cases hst : (s.thread old).state with
  | running =>
    rw [hst] at hstate
    refine ⟨rfl, rfl, rfl, rfl, rfl, by simp [← hstate, Sched.setState, Sched.modify], fun x => ?_, fun x => ?_, ?_⟩
    · refine (state_setState _ old x .ready).trans ?_
      rw [← hstate]
      simp only [and_true]
      rfl
    · exact waiting_setState _ old x .ready
    · by_cases h₀ : old = 0
      · simp [h₀, masterId, Sched.setState, Sched.modify]
      · simp [h₀, ← hstate, masterId, Sched.setState, Sched.modify]
  | blocked => constructor <;> simp [← hstate, hst] <;> intros <;> rfl
  | stopped => constructor <;> simp [← hstate, hst] <;> intros <;> rfl
  | ready => constructor <;> simp [← hstate, hst]

theorem switchTo_spec (h : s.switchTo t = some u) : SwitchedTo s t u := by
  unfold Sched.switchTo at h
  by_cases hassert : (s.thread t).state ≠ .ready ∨ (s.thread s.running).state = .ready
  · rw [if_pos hassert] at h
    cases h
  · rw [if_neg hassert] at h
    obtain ⟨hready, hold⟩ := not_or.mp hassert
    obtain ⟨s₁, hs₁, rfl⟩ := Option.map_eq_some_iff.mp h
    obtain ⟨hsame, hlist, hlisted⟩ : SameButLists s s₁ ∧
        (s₁.readyList = if t = 0 then s.readyList else s.readyList.erase t) ∧
        (t ≠ 0 → t ∈ s.readyList ∨ t ∈ s.blockedList) := by
      split_ifs at hs₁ with ht
      · obtain ⟨hsame, hlist, hlisted⟩ := listDel_spec hs₁
        exact ⟨hsame, by rw [if_neg (by exact ht), hlist], fun _ => hlisted⟩
      · obtain rfl := Option.some.inj hs₁
        have ht₀ : t = 0 := not_not.mp ht
        exact ⟨⟨rfl, rfl, rfl, rfl, rfl, rfl, rfl⟩, (if_pos ht₀).symm, fun h => absurd ht₀ h⟩
    have hstate : ∀ x, ({ s₁ with running := t } : Sched).state x = s.state x := by
      intro x
      simp only [Sched.state, hsame.thread]
    have hput := putOld_spec { s₁ with running := t } s.running
    refine ⟨not_not.mp hready, hold, hput.running, hput.count.trans hsame.count, hput.freed.trans hsame.freed,
      hput.trace.trans hsame.trace, hput.cont.trans hsame.cont, ?_, fun x => ?_, fun x => ?_, hlisted, ?_⟩
    · have hstopped := hput.stopped
      rw [hstate] at hstopped
      rw [← hsame.stopped]
      exact hstopped
    · rw [state_setState, hput.state, hstate, hstate]
    · rw [waiting_setState, hput.waiting]
      simp only [Sched.waiting, hsame.thread]
    · have hready := hput.readyList
      rw [hstate] at hready
      rw [← hlist]
      exact hready

/-- The record of a thread is freed when its state says so. -/
theorem petThreadCleanup_spec {prevId : ℕ} (h : s.petThreadCleanup prevId = some s') :
    s' = { s with freed := if s.state prevId = .stopped then s.freed ++ [prevId] else s.freed } := by
  unfold Sched.petThreadCleanup at h
  obtain ⟨prev, hprev, rfl⟩ := Option.map_eq_some_iff.mp h
  rw [getThread_eq] at hprev
  split_ifs at hprev
  obtain rfl := Option.some.inj hprev
  unfold Sched.state
  split_ifs
  · rfl
  · rfl

/-! ### The invariant -/

/-- What holds of the freed records whenever user code runs. -/
structure FreedInv (s : Sched) : Prop where
  /-- The running thread was created, or is the master thread. -/
  runLt : s.running < s.threadIdCount
  /-- Nothing was done to the records to come. -/
  fresh : ∀ t, s.threadIdCount ≤ t → s.state t = .running
  /-- A thread whose record was freed is stopped, -/
  freed : ∀ t ∈ s.freed, s.state t = .stopped
  /-- and the running thread is not. -/
  runState : s.state s.running ≠ .stopped
  /-- `stopped` is the last record freed. -/
  last : s.stopped = s.freed.getLast?
  /-- The records freed are those of the threads that have exited. -/
  exited : ∀ t, Exited s t ↔ t ∈ s.freed

theorem freedInv_petThreadInit : FreedInv petThreadInit where
  runLt := Nat.one_pos
  fresh := fun _ _ => rfl
  freed := fun t ht => by simp [petThreadInit] at ht
  runState := by decide
  last := rfl
  exited := fun t => by simp [Exited, petThreadInit]

theorem FreedInv.running_notMem (h : FreedInv s) : s.running ∉ s.freed := fun hr => h.runState (h.freed _ hr)

/-- The first half of a call: of the other threads, only blocked ones change their state. -/
structure Quiet (s s₁ : Sched) : Prop where
  running : s₁.running = s.running
  count : s₁.threadIdCount = s.threadIdCount
  freed : s₁.freed = s.freed
  stopped : s₁.stopped = s.stopped
  state : ∀ x, x ≠ s.running → s.state x ≠ .blocked → s₁.state x = s.state x
  /-- The running thread may have exited, if it is not the master thread. -/
  exited : ∀ t, Exited s₁ t ↔ Exited s t ∨ (s₁.state s.running = .stopped ∧ t = s.running)
  thread : s₁.state s.running = .stopped → s.running ≠ 0

theorem Quiet.freed_state (hq : Quiet s s₁) (h : FreedInv s) : ∀ x ∈ s.freed, s₁.state x = .stopped := by
  intro x hx
  have hst := h.freed x hx
  rw [hq.state x (fun hr => h.running_notMem (hr ▸ hx)) (by rw [hst]; decide), hst]

theorem Quiet.fresh_state (hq : Quiet s s₁) (h : FreedInv s) :
    ∀ x, s.threadIdCount ≤ x → s₁.state x = .running := by
  intro x hx
  have hst := h.fresh x hx
  have hlt := h.runLt
  rw [hq.state x (by omega) (by rw [hst]; decide), hst]

/-- The first half of a call that is no exit. -/
theorem Quiet.of_trace (hrunning : s₁.running = s.running) (hcount : s₁.threadIdCount = s.threadIdCount)
    (hfreed : s₁.freed = s.freed) (hstopped : s₁.stopped = s.stopped)
    (hstate : ∀ x, x ≠ s.running → s.state x ≠ .blocked → s₁.state x = s.state x) (htrace : s₁.trace = s.trace)
    (hrun : s₁.state s.running ≠ .stopped) : Quiet s s₁ := by
  refine ⟨hrunning, hcount, hfreed, hstopped, hstate, fun x => ?_, fun h => absurd h hrun⟩
  rw [exited_congr htrace]
  exact ⟨.inl, fun h => h.resolve_right fun h => hrun h.1⟩

theorem Quiet.suspend (h : FreedInv s) (k : Cont) : Quiet s (s.suspend k) :=
  .of_trace rfl rfl rfl rfl (fun _ _ _ => rfl) rfl h.runState

/-- What the first half of a join does, and what it asserts. -/
theorem waits_of_waitFor {k : Cont} (hw : (s.suspend k).waitFor t = some s₁) :
    s.state s.running = .running ∧ t ≠ 0 ∧ Waits (s.suspend k) t s₁ := by
  obtain ⟨hrun, ht⟩ : s.state s.running = .running ∧ t ≠ 0 := by
    unfold Sched.waitFor at hw
    split_ifs at hw with hassert
    obtain ⟨hrun, ht⟩ := not_or.mp hassert
    exact ⟨not_not.mp hrun, ht⟩
  obtain ⟨s₂, hs₂, hwaits⟩ := waitFor_waits (s := s.suspend k) hrun ht
  obtain rfl := Option.some.inj (hw.symm.trans hs₂)
  exact ⟨hrun, ht, hwaits⟩

/-- `pet_thread_join` up to the switch. -/
theorem quiet_waitFor {k : Cont} (hw : (s.suspend k).waitFor t = some s₁) :
    Quiet s s₁ ∧ t ≠ 0 ∧ s₁.state s.running ≠ .stopped := by
  obtain ⟨-, ht, hwaits⟩ := waits_of_waitFor hw
  have hfreed : s₁.freed = s.freed := by
    unfold Sched.waitFor at hw
    split_ifs at hw
    obtain rfl := Option.some.inj hw
    rfl
  have hstate : ∀ x, s₁.state x = if x = s.running then .blocked else s.state x := hwaits.state
  have hblocked : s₁.state s.running ≠ .stopped := by
    rw [hstate, if_pos rfl]
    decide
  exact ⟨.of_trace hwaits.running hwaits.count hfreed hwaits.lists.2.2 (fun x hx _ => by rw [hstate, if_neg hx])
    hwaits.trace hblocked, ht, hblocked⟩

/-- Waking a thread changes its state only, and it was blocked. -/
theorem wake_quiet {retVal waiter : ℕ} (hw : s.wake retVal waiter = some s₁) :
    (s₁.running = s.running ∧ s₁.threadIdCount = s.threadIdCount ∧ s₁.freed = s.freed ∧ s₁.stopped = s.stopped ∧
      s₁.trace = s.trace ∧ s₁.cont = s.cont) ∧ ∀ x, s.state x ≠ .blocked → s₁.state x = s.state x := by
  unfold Sched.wake at hw
  split_ifs at hw with hblocked
  obtain ⟨s₂, hdel, rfl⟩ := Option.map_eq_some_iff.mp hw
  have hsame := (listDel_spec hdel).1
  refine ⟨⟨hsame.running, hsame.count, hsame.freed, hsame.stopped, hsame.trace, hsame.cont⟩, fun x hx => ?_⟩
  have hxw : x ≠ waiter := by
    rintro rfl
    exact hx (not_not.mp hblocked)
  have hstate : s₂.state x = s.state x := by
    unfold Sched.state
    rw [hsame.thread]
    exact (state_modify s waiter x _).trans (if_neg hxw)
  rw [state_modify]
  split_ifs with hr
  · rw [hr] at hstate ⊢
    exact hstate
  · exact hstate

/-- And so does waking all the waiters. -/
theorem wakeAll_quiet {retVal : ℕ} {waiters : List ℕ} (hw : Sched.wakeAll retVal waiters s = some s₁) :
    (s₁.running = s.running ∧ s₁.threadIdCount = s.threadIdCount ∧ s₁.freed = s.freed ∧ s₁.stopped = s.stopped ∧
      s₁.trace = s.trace ∧ s₁.cont = s.cont) ∧
      ∀ x, s.state x ≠ .blocked → s₁.state x = s.state x := by
  induction waiters generalizing s with
  | nil =>
    obtain rfl := Option.some.inj hw
    exact ⟨⟨rfl, rfl, rfl, rfl, rfl, rfl⟩, fun _ _ => rfl⟩
  | cons waiter waiters ih =>
    obtain ⟨s₂, hs₂, hw⟩ := Option.bind_eq_some_iff.mp hw
    obtain ⟨⟨h₁, h₂, h₃, h₄, h₅, h₆⟩, hstate⟩ := wake_quiet hs₂
    obtain ⟨⟨h₁', h₂', h₃', h₄', h₅', h₆'⟩, hstate'⟩ := ih hw
    refine ⟨⟨h₁'.trans h₁, h₂'.trans h₂, h₃'.trans h₃, h₄'.trans h₄, h₅'.trans h₅, h₆'.trans h₆⟩, fun x hb => ?_⟩
    rw [hstate' x (by rw [hstate x hb]; exact hb), hstate x hb]

/-- `__quarantine` up to the switch. -/
theorem quiet_quarantine {k : Cont} {retVal : ℕ} (hq : (s.suspend k).quarantine retVal = some s₁) :
    Quiet s s₁ ∧ s₁.state s.running = .stopped := by
  unfold Sched.quarantine at hq
  split_ifs at hq with h₀
  obtain ⟨s₂, hw, hq⟩ := Option.bind_eq_some_iff.mp hq
  split_ifs at hq
  obtain rfl := Option.some.inj hq
  obtain ⟨⟨hrunning, hcount, hfreed, hstopped, htrace, -⟩, hstate⟩ := wakeAll_quiet hw
  have hrun : s₂.running = s.running := hrunning
  have hst : ((s₂.setState s₂.running .stopped).note (.exited s₂.running retVal)).state s.running = .stopped := by
    rw [state_note, state_setState, if_pos hrun.symm]
  refine ⟨⟨hrunning, hcount, hfreed, hstopped, fun x hx hb => ?_, fun x => ?_, fun _ => h₀⟩, hst⟩
  · rw [state_note, state_setState, if_neg (by rw [hrun]; exact hx)]
    exact hstate x hb
  · rw [exited_exit, exited_congr htrace]
    exact or_congr Iff.rfl ⟨fun hx => ⟨hst, hx.trans hrun⟩, fun hx => hx.2.trans hrun.symm⟩

/-! ### The second half -/

/-- The second half of a call, with the lookups it makes: `main` goes on, or the thread that ran is left and
cleaned up. -/
inductive Turn (s₁ : Sched) : List (Sched × ℕ) → Sched → Prop where
  /-- No switch. -/
  | stay (master : s₁.running = 0) : Turn s₁ [] s₁
  /-- A switch. -/
  | switch {t : ℕ} {u s₂ : Sched} (switched : SwitchedTo s₁ t u)
      (cleaned : s₂ = { u with freed := if u.state s₁.running = .stopped then u.freed ++ [s₁.running] else u.freed }) :
      Turn s₁ [(u, s₁.running)] s₂

theorem threadInvoker_turn (h : s.threadInvoker t = some s') : Turn s (s.invokerLookups t) s' := by
  rw [threadInvoker_eq] at h
  obtain ⟨u, hu, h⟩ := Option.bind_eq_some_iff.mp h
  unfold Sched.invokerLookups
  rw [hu]
  exact .switch (switchTo_spec hu) (petThreadCleanup_spec h)

theorem petThreadSchedule_turn (h : s.petThreadSchedule = some s') : Turn s s.scheduleLookups s' := by
  unfold Sched.petThreadSchedule at h
  unfold Sched.scheduleLookups
  cases hl : s.readyList with
  | nil =>
    simp only [hl] at h
    split_ifs at h ⊢ with h₀
    · exact threadInvoker_turn h
    · obtain rfl := Option.some.inj h
      exact .stay (not_not.mp h₀)
  | cons pos rest =>
    simp only [hl] at h
    split_ifs at h with hready
    simp only [if_neg hready]
    exact threadInvoker_turn h

theorem yieldTo_turn {tgt : Option ℕ} (h : s.yieldTo tgt = some s') : Turn s (s.yieldLookups tgt) s' := by
  cases tgt with
  | none => exact petThreadSchedule_turn h
  | some t =>
    unfold Sched.yieldTo at h
    unfold Sched.yieldLookups
    simp only at h ⊢
    split_ifs at h ⊢
    · exact petThreadSchedule_turn h
    · exact threadInvoker_turn h

/-- The lookups that a call makes itself. -/
def Sched.ownLookups (s : Sched) : Call → List (Sched × ℕ)
  | .yieldTo threadId | .join threadId => [(s, threadId)]
  | _ => []

/-- What a call does, and what it looks up. -/
inductive Trip (s : Sched) (c : Call) (s' : Sched) : Prop where
  /-- A thread is created. -/
  | create (call : c = .create) (result : s' = s.petThreadCreate)
  /-- `pet_thread_join` does not find the thread. -/
  | joinFails (threadId : ℕ) (call : c = .join threadId) (notFound : s.getThread threadId = none) (result : s' = s)
  /-- The running thread goes through the scheduler. -/
  | switch {s₁ s₂ : Sched} {later : List (Sched × ℕ)} (first : Quiet s s₁)
      (exits : s₁.state s.running = .stopped ↔ ∃ retVal, c = .exit retVal) (turn : Turn s₁ later s₂)
      (lookups : s.lookups c = s.ownLookups c ++ later) (call : c ≠ .create) (join : c ≠ .join 0)
      (resumed : s₂.resume = some s')

theorem FreedInv.trip {c : Call} (h : FreedInv s) (hstep : Step s c s') : Trip s c s' := by
  cases c with
  | create => exact .create rfl (Option.some.inj hstep).symm
  | run =>
    obtain ⟨s₂, hs₂, hr⟩ := Option.bind_eq_some_iff.mp hstep
    exact .switch (.suspend h _) (by simpa using h.runState) (petThreadSchedule_turn hs₂) rfl (by simp) (by simp) hr
  | schedule =>
    obtain ⟨s₂, hs₂, hr⟩ := Option.bind_eq_some_iff.mp hstep
    exact .switch (.suspend h _) (by simpa using h.runState) (petThreadSchedule_turn hs₂) rfl (by simp) (by simp) hr
  | yieldTo threadId =>
    obtain ⟨s₂, hs₂, hr⟩ := Option.bind_eq_some_iff.mp hstep
    exact .switch (.suspend h _) (by simpa using h.runState) (yieldTo_turn hs₂) rfl (by simp) (by simp) hr
  | join threadId =>
    unfold Step Sched.call at hstep
    simp only at hstep
    cases hget : s.getThread threadId with
    | none =>
      rw [hget] at hstep
      exact .joinFails threadId rfl hget (Option.some.inj hstep).symm
    | some t =>
      rw [hget] at hstep
      obtain ⟨s₁, hs₁, hstep⟩ := Option.bind_eq_some_iff.mp hstep
      obtain ⟨s₂, hs₂, hr⟩ := Option.bind_eq_some_iff.mp hstep
      obtain ⟨hq, ht, hst⟩ := quiet_waitFor hs₁
      have htid : t = threadId := by
        rw [getThread_eq] at hget
        split_ifs at hget
        exact (Option.some.inj hget).symm
      refine .switch hq (by simpa using hst) (petThreadSchedule_turn hs₂) ?_ (by simp) (by simpa [← htid] using ht) hr
      simp [Sched.lookups, Sched.ownLookups, hget, hs₁]
  | exit retVal =>
    obtain ⟨s₁, hs₁, hstep⟩ := Option.bind_eq_some_iff.mp hstep
    obtain ⟨s₂, hs₂, hr⟩ := Option.bind_eq_some_iff.mp hstep
    obtain ⟨hq, hst⟩ := quiet_quarantine hs₁
    refine .switch hq (by simpa using hst) (petThreadSchedule_turn hs₂) ?_ (by simp) (by simp) hr
    simp [Sched.lookups, Sched.ownLookups, hs₁]

/-! ### Every step keeps the invariant -/

/-- A switch stops nobody. -/
theorem SwitchedTo.state_old (hsw : SwitchedTo s t u) :
    u.state s.running = .stopped ↔ s.state s.running = .stopped := by
  have hne : s.running ≠ t := by
    rintro rfl
    exact hsw.old hsw.ready
  rw [hsw.state, if_neg hne]
  by_cases hr : s.state s.running = .running
  · rw [if_pos ⟨rfl, hr⟩, hr]
    decide
  · rw [if_neg fun h => hr h.2]

theorem SwitchedTo.state_stopped {x : ℕ} (hsw : SwitchedTo s t u) (hx : s.state x = .stopped) :
    u.state x = .stopped := by
  have hxt : x ≠ t := by
    rintro rfl
    rw [hsw.ready] at hx
    cases hx
  have hxr : ¬ (x = s.running ∧ s.state s.running = .running) := by
    rintro ⟨rfl, hr⟩
    rw [hr] at hx
    cases hx
  rw [hsw.state, if_neg hxt, if_neg hxr, hx]

theorem FreedInv.turn {later : List (Sched × ℕ)} {s₂ : Sched} (h : FreedInv s) (hq : Quiet s s₁)
    (ht : Turn s₁ later s₂) : FreedInv s₂ := by
  have hfresh := hq.fresh_state h
  have hfreed := hq.freed_state h
  rw [← hq.count] at hfresh
  rw [← hq.freed] at hfreed
  have hlt := h.runLt
  rw [← hq.running, ← hq.count] at hlt
  have hlast : s₁.stopped = s₁.freed.getLast? := by rw [hq.stopped, hq.freed, h.last]
  have hexited : ∀ x, Exited s₁ x ↔ x ∈ s₁.freed ∨ (s₁.state s₁.running = .stopped ∧ x = s₁.running) := by
    intro x
    rw [hq.exited, h.exited, hq.freed, hq.running]
  cases ht with
  | stay h₀ =>
    have hrun : s₁.state s₁.running ≠ .stopped := by
      rw [hq.running] at h₀ ⊢
      exact fun hr => hq.thread hr h₀
    refine ⟨hlt, hfresh, hfreed, hrun, hlast, fun x => ?_⟩
    rw [hexited]
    exact ⟨fun hx => hx.resolve_right fun hr => hrun hr.1, .inl⟩
  | @switch t u _ hsw hclean =>
    obtain ⟨hrunning, hcount, hstopped, htrace, hstate, hfreed'⟩ : s₂.running = t ∧
        s₂.threadIdCount = s₁.threadIdCount ∧ s₂.stopped = u.stopped ∧ s₂.trace = s₁.trace ∧ (∀ x, s₂.state x = u.state x) ∧
        s₂.freed = if s₁.state s₁.running = .stopped then s₁.freed ++ [s₁.running] else s₁.freed := by
      subst hclean
      refine ⟨hsw.running, hsw.count, rfl, hsw.trace, fun _ => rfl, ?_⟩
      simp only [hsw.state_old, hsw.freed]
    have htlt : t < s₁.threadIdCount := by
      by_contra hge
      have := hfresh t (by omega)
      rw [hsw.ready] at this
      cases this
    refine ⟨by omega, fun x hx => ?_, fun x hx => ?_, ?_, ?_, fun x => ?_⟩
    · rw [hcount] at hx
      rw [hstate, hsw.state, if_neg (by omega), if_neg (by omega), hfresh x hx]
    · rw [hstate]
      rw [hfreed'] at hx
      split_ifs at hx with hst
      · rcases List.mem_append.mp hx with hx | hx
        · exact hsw.state_stopped (hfreed x hx)
        · obtain rfl := List.mem_singleton.mp hx
          exact hsw.state_stopped hst
      · exact hsw.state_stopped (hfreed x hx)
    · rw [hstate, hrunning, hsw.state, if_pos rfl]
      decide
    · rw [hstopped, hsw.stopped, hfreed']
      split_ifs
      · rw [List.getLast?_concat]
      · exact hlast
    · rw [exited_congr htrace, hexited, hfreed']
      split_ifs with hst
      · simp [hst]
      · simp [hst]

theorem FreedInv.resume (h : FreedInv s) (hr : s.resume = some s') : FreedInv s' := by
  have hexited := exited_resume hr
  obtain ⟨-, rfl⟩ := resume_eq_some_iff.mp hr
  exact ⟨h.runLt, h.fresh, h.freed, h.runState, h.last, fun x => (hexited x).trans (h.exited x)⟩

theorem FreedInv.create (h : FreedInv s) : FreedInv s.petThreadCreate := by
  have hstate : ∀ x, x ≠ s.threadIdCount → s.petThreadCreate.state x = s.state x := by
    intro x hx
    rw [state_petThreadCreate, if_neg hx]
  have hne : ∀ x, s.state x = .stopped → x ≠ s.threadIdCount := by
    rintro x hx rfl
    rw [h.fresh _ le_rfl] at hx
    cases hx
  refine ⟨Nat.lt_succ_of_lt h.runLt, fun x hx => ?_, fun x hx => ?_, ?_, h.last, h.exited⟩
  · have hx' : s.threadIdCount + 1 ≤ x := hx
    rw [hstate x (by omega)]
    exact h.fresh x (by omega)
  · rw [hstate x (hne x (h.freed x hx))]
    exact h.freed x hx
  · rw [show s.petThreadCreate.running = s.running from rfl, hstate _ h.runLt.ne]
    exact h.runState

theorem FreedInv.step {c : Call} (h : FreedInv s) (hstep : Step s c s') : FreedInv s' := by
  cases h.trip hstep with
  | create _ hs' => exact hs' ▸ h.create
  | joinFails _ _ _ hs' => exact hs' ▸ h
  | switch hq _ hturn _ _ _ hr => exact (h.turn hq hturn).resume hr

/-! ### Which lookups read freed records -/

/-- **A lookup** reads a freed record exactly when some thread has exited and the id is neither that of the master
thread nor that of the running one: then it goes by `stopped`. -/
theorem readsFreed_iff (hrun : s.running ∉ s.freed) (hlast : s.stopped = s.freed.getLast?) (threadId : ℕ) :
    s.ReadsFreed threadId ↔ threadId ≠ 0 ∧ s.running ≠ threadId ∧ s.freed ≠ [] := by
  unfold Sched.ReadsFreed Sched.getThreadReads masterId
  constructor
  · rintro ⟨t, ht, hfreed⟩
    have hne : s.freed ≠ [] := List.ne_nil_of_mem hfreed
    split_ifs at ht with h₀ hr
    · cases ht
    · obtain rfl := List.mem_singleton.mp ht
      exact absurd hfreed hrun
    · exact ⟨h₀, hr, hne⟩
    · exact ⟨h₀, hr, hne⟩
    · exact ⟨h₀, hr, hne⟩
  · rintro ⟨h₀, hr, hne⟩
    rw [if_neg h₀, if_neg hr]
    refine ⟨s.freed.getLast hne, ?_, List.getLast_mem hne⟩
    rw [hlast, List.getLast?_eq_some_getLast hne]
    simp

/-- The lookup of `pet_thread_cleanup` goes by `stopped`, unless the thread left is the master thread or is the one
`stopped` has just been set to. -/
theorem FreedInv.turn_lookups {later : List (Sched × ℕ)} {s₂ : Sched} (h : FreedInv s) (hq : Quiet s s₁)
    (ht : Turn s₁ later s₂) :
    (∀ l ∈ later, ¬ l.1.ReadsFreed l.2) ↔ s.running = 0 ∨ s₁.state s.running = .stopped ∨ s.freed = [] := by
  have hfreed := hq.freed_state h
  cases ht with
  | stay h₀ =>
    rw [hq.running] at h₀
    simp [h₀]
  | @switch t u _ hsw _ =>
    have hut : u.running ∉ u.freed := by
      rw [hsw.running, hsw.freed, hq.freed]
      intro ht
      have := hfreed t ht
      rw [hsw.ready] at this
      cases this
    have hne : u.running ≠ s.running := by
      rw [hsw.running, ← hq.running]
      rintro rfl
      exact hsw.old hsw.ready
    rw [List.forall_mem_singleton, hq.running]
    by_cases hst : s₁.state s.running = .stopped
    · -- `stopped` is the thread left, which is not freed yet
      refine iff_of_true ?_ (.inr (.inl hst))
      rintro ⟨x, hx, hxf⟩
      have hstopped : u.stopped = some s.running := by rw [hsw.stopped, hq.running, if_pos hst]
      have hx' : x = u.running ∨ x = s.running := by
        unfold Sched.getThreadReads at hx
        split_ifs at hx with h₀
        · cases hx
        · simpa [hstopped] using hx
      rcases hx' with rfl | rfl
      · exact hut hxf
      · rw [hsw.freed, hq.freed] at hxf
        exact h.running_notMem hxf
    · have hlast : u.stopped = u.freed.getLast? := by
        rw [hsw.stopped, hq.running, if_neg hst, hq.stopped, hsw.freed, hq.freed, h.last]
      rw [readsFreed_iff hut hlast, hsw.freed, hq.freed]
      tauto

/-- The lookups of a call that goes through the scheduler. -/
theorem FreedInv.lookups_iff {c : Call} {later : List (Sched × ℕ)} {s₂ : Sched} (h : FreedInv s) (hq : Quiet s s₁)
    (hexits : s₁.state s.running = .stopped ↔ ∃ retVal, c = .exit retVal) (hturn : Turn s₁ later s₂)
    (hlookups : s.lookups c = s.ownLookups c ++ later) (hcreate : c ≠ .create) (hjoin : c ≠ .join 0) :
    (∀ l ∈ s.lookups c, ¬ l.1.ReadsFreed l.2) ↔ Harmless s c := by
  have hreads := readsFreed_iff h.running_notMem h.last
  rw [hlookups, List.forall_mem_append, h.turn_lookups hq hturn, hexits]
  unfold Harmless
  cases c with
  | create => exact absurd rfl hcreate
  | run => simp [Sched.ownLookups, or_comm]
  | schedule => simp [Sched.ownLookups, or_comm]
  | yieldTo threadId =>
    simp only [Sched.ownLookups, List.forall_mem_singleton, hreads, reduceCtorEq, exists_false, false_or]
    by_cases hfreed : s.freed = []
    · simp [hfreed]
    · constructor
      · rintro ⟨hown, hr⟩
        have hr₀ := hr.resolve_right hfreed
        refine .inr ⟨hr₀, not_not.mp fun h₀ => hown ⟨h₀, ?_, hfreed⟩⟩
        rw [hr₀]
        exact Ne.symm h₀
      · intro hc
        obtain ⟨hr₀, h₀⟩ := hc.resolve_left hfreed
        exact ⟨fun hown => hown.1 h₀, .inl hr₀⟩
  | join threadId =>
    have h₀ : threadId ≠ 0 := fun h₀ => hjoin (by rw [h₀])
    simp only [Sched.ownLookups, List.forall_mem_singleton, hreads, reduceCtorEq, exists_false, false_or, or_false]
    constructor
    · rintro ⟨hown, hr⟩
      by_contra hfreed
      refine hown ⟨h₀, ?_, hfreed⟩
      rw [hr.resolve_right hfreed]
      exact Ne.symm h₀
    · intro hfreed
      exact ⟨fun hown => hown.2.2 hfreed, .inr hfreed⟩
  | exit retVal => simp [Sched.ownLookups]

/-- **One step**: exited threads are invisible to it exactly when it is harmless. -/
theorem FreedInv.invisible_iff {c : Call} (h : FreedInv s) (hstep : Step s c s') : Invisible s c s' ↔ Harmless s c := by
  cases h.trip hstep with
  | create hc _ =>
    subst hc
    exact iff_of_true ⟨by simp [Sched.lookups], by simp⟩ (.inr trivial)
  | joinFails threadId hc hnone _ =>
    -- nobody is found, but `stopped` was looked at
    subst hc
    have hfound := hnone
    rw [getThread_eq, ite_eq_right_iff] at hfound
    have hreads := readsFreed_iff h.running_notMem h.last threadId
    constructor
    · intro hinv
      refine .inl (not_not.mp fun hfreed =>
        hinv.1 (s, threadId) (by simp [Sched.lookups]) (hreads.mpr ⟨?_, ?_, hfreed⟩))
      · exact fun h₀ => absurd (hfound (.inl h₀)) (by simp)
      · exact fun hr => absurd (hfound (.inr (.inl hr))) (by simp)
    · rintro (hfreed | hfalse)
      · refine ⟨?_, fun id hid hmem => by simp [hfreed] at hmem⟩
        intro l hl
        obtain rfl : l = (s, threadId) := by simpa [Sched.lookups, hnone] using hl
        exact fun hr => (hreads.mp hr).2.2 hfreed
      · exact hfalse.elim
  | switch hq hexits hturn hlookups hcreate hjoin _ =>
    have hiff := h.lookups_iff hq hexits hturn hlookups hcreate hjoin
    refine ⟨fun hinv => hiff.mp hinv.1, fun hharm => ⟨hiff.mpr hharm, ?_⟩⟩
    rintro threadId rfl hmem
    have hfreed : s.freed = [] := hharm.resolve_right id
    simp [hfreed] at hmem

/-- **Exited threads are invisible** in exactly the runs whose calls are all harmless. -/
theorem exited_invisible_iff (calls : List Call) (s : Sched) :
    Exec (fun s c s' => Step s c s' ∧ Invisible s c s') petThreadInit calls s ↔
      Exec (Guard Harmless Step) petThreadInit calls s :=
  exec_and_iff_guard freedInv_petThreadInit (fun _ _ _ h hstep => h.step hstep)
    fun _ _ _ h hstep => h.invisible_iff hstep

/-- Thread 1 has exited and its record is freed when thread 2 joins it: the lookup reads the freed record, which is
what makes the thread visible. Where `free` leaves the contents of the record as they were, the lookup also finds the
thread, and the caller is blocked for ever; an allocator that overwrites the `id` makes it return `-1`. -/
theorem join_last_exited_blocks : ∃ s s', Exec Step petThreadInit [.create, .create, .run, .exit 7] s ∧
    Exited s 1 ∧ 1 ∈ s.freed ∧ Step s (.join 1) s' ∧ s.ReadsFreed 1 ∧ s.getThread 1 = some 1 ∧
    s.running = 2 ∧ s'.running = 0 ∧ s.state 2 = .running ∧ s'.state 2 = .blocked ∧ s'.blockedList = [2] ∧
    ¬ Invisible s (.join 1) s' := by
  have hbefore : (guardedRun (fun _ _ => True) Sched.call petThreadInit [.create, .create, .run, .exit 7]).map
      (fun s => ((s.trace, s.freed), (s.getThreadReads 1, s.getThread 1), s.running, s.state 2)) =
      some (([.exited 1 7], [1]), ([2, 1], some 1), 2, .running) := by decide +kernel
  have hafter : ((guardedRun (fun _ _ => True) Sched.call petThreadInit [.create, .create, .run, .exit 7]).bind
      (·.call (.join 1))).map (fun s' => (s'.running, s'.state 2, s'.blockedList)) = some (0, .blocked, [2]) := by
    decide +kernel
  obtain ⟨s, hs, he⟩ := Option.map_eq_some_iff.mp hbefore
  rw [hs, Option.bind_some] at hafter
  obtain ⟨s', hs', he'⟩ := Option.map_eq_some_iff.mp hafter
  simp only [Prod.mk.injEq] at he he'
  obtain ⟨⟨htrace, hfreed⟩, ⟨hreads, hget⟩, hrun, hstate⟩ := he
  obtain ⟨hrun', hstate', hblocked⟩ := he'
  have hmem : 1 ∈ s.freed := by simp [hfreed]
  refine ⟨s, s', (exec_of_guardedRun hs).mono fun _ _ _ h => h.2, ⟨7, by simp [htrace]⟩, hmem, hs',
    ⟨1, by simp [hreads], hmem⟩, hget, hrun, hrun', hstate, hstate', hblocked, fun hinv => ?_⟩
  exact hinv.1 (s, 1) (by simp [Sched.lookups]) ⟨1, by simp [hreads], hmem⟩

end

end PetLab.Threads
