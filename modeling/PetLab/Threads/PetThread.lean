import Mathlib.Data.List.Basic
import Mathlib.Data.Nat.Notation
import Mathlib.Logic.Function.Basic

/-!
# The pet thread library

The scheduler of `pet_thread.c`: cooperative threads, a queue of the ready ones, a
queue of the blocked ones, and for each thread the list of those that wait for it to
exit.

## The model

A thread record is named by its id; the master thread, which runs `main`, is `0`, and
`pet_thread_create` counts up from `1`. A freed record keeps its contents, so ids
stay names. (`thread_id_count` is an `int`; a run that creates `2 ^ 31` threads
overflows it, which C leaves undefined, and is not modelled.) Values returned by
threads, `void *` in the source, are natural numbers.

One call of the library by the running thread is one step: it ends when user code
runs again, be it the caller's or that of the thread switched to. `__switch_to_stack`
saves where the caller is (`Cont`) and resumes the target where it was, after
`pet_thread_cleanup`. A failed `assert`, a dereference of `NULL` and a `list_del` of
a node that is in no list end the program (`none`).

`Event`s record what user code can observe: which thread exited with which value,
which value a `pet_thread_join` returned, and what the ready list was when
`pet_thread_run` returned.
-/

namespace PetLab.Threads

/-- `PET_MASTER_THREAD_ID`. -/
def masterId : ℕ := 0

/-- `thread_run_state_t`. -/
inductive RunState where
  /-- `PET_THREAD_STOPPED`. -/
  | stopped
  /-- `PET_THREAD_RUNNING`. -/
  | running
  /-- `PET_THREAD_READY`. -/
  | ready
  /-- `PET_THREAD_BLOCKED`. -/
  | blocked
  deriving DecidableEq, Repr

/-- `struct pet_thread`, less its stack. -/
structure PetThread where
  /-- The state. -/
  state : RunState
  /-- The threads that wait for this one to exit. -/
  waitingForMe : List ℕ
  /-- Where the thread it joined leaves its return value. -/
  returnReciever : ℕ
  deriving DecidableEq, Repr

/-- What a thread does when it is resumed: where its stack returns to. -/
inductive Cont where
  /-- It enters its function. -/
  | start
  /-- It returns from `pet_thread_schedule` or `pet_thread_yield_to`. -/
  | sched
  /-- It returns from `pet_thread_run`. -/
  | run
  /-- It reads its return value and returns from `pet_thread_join`. -/
  | join (threadId : ℕ)
  /-- It has exited, and is in `__quarantine`. -/
  | exited
  /-- It is running. -/
  | user
  deriving DecidableEq, Repr

/-- What can be observed. -/
inductive Event where
  /-- Thread `t` exited with value `retVal`. -/
  | exited (t retVal : ℕ)
  /-- `pet_thread_join(threadId, &r)` in thread `t` returned `0`, with value `r`. -/
  | joined (t threadId r : ℕ)
  /-- `pet_thread_run` returned, with this ready list. -/
  | runReturned (readyList : List ℕ)
  deriving DecidableEq, Repr

/-- The state of the library. -/
structure Sched where
  /-- `thread_id_count`. -/
  threadIdCount : ℕ
  /-- The thread records. -/
  thread : ℕ → PetThread
  /-- Where the threads are. -/
  cont : ℕ → Cont
  /-- `ready_list`. -/
  readyList : List ℕ
  /-- `blocked_list`. -/
  blockedList : List ℕ
  /-- `running`. -/
  running : ℕ
  /-- `stopped`, the last thread that exited. -/
  stopped : Option ℕ
  /-- The threads whose record and stack were freed, the last one last. -/
  freed : List ℕ
  /-- What happened, the last event last. -/
  trace : List Event

/-- `pet_thread_init`. -/
def petThreadInit : Sched where
  threadIdCount := 1
  thread _ := ⟨.running, [], 0⟩
  cont _ := .user
  readyList := []
  blockedList := []
  running := masterId
  stopped := none
  freed := []
  trace := []

/-- Change the record of a thread. -/
def Sched.modify (s : Sched) (t : ℕ) (f : PetThread → PetThread) : Sched :=
  { s with thread := Function.update s.thread t (f (s.thread t)) }

/-- `t->state = state`. -/
def Sched.setState (s : Sched) (t : ℕ) (state : RunState) : Sched := s.modify t fun r => { r with state := state }

/-- The running thread is now at `k`. -/
def Sched.suspend (s : Sched) (k : Cont) : Sched := { s with cont := Function.update s.cont s.running k }

/-- Record an event. -/
def Sched.note (s : Sched) (e : Event) : Sched := { s with trace := s.trace ++ [e] }

/-- `list_del(&t->list)`: out of the list it is in. -/
def Sched.listDel (s : Sched) (t : ℕ) : Option Sched :=
  if t ∈ s.readyList then some { s with readyList := s.readyList.erase t }
  else if t ∈ s.blockedList then some { s with blockedList := s.blockedList.erase t }
  else none

/-- `get_thread`. -/
def Sched.getThread (s : Sched) (threadId : ℕ) : Option ℕ :=
  if threadId = masterId then some masterId
  else if s.running = threadId then some s.running
  else if s.stopped = some threadId then s.stopped
  else if threadId ∈ s.readyList then some threadId
  else if threadId ∈ s.blockedList then some threadId
  else none

/-! ### Switching -/

/-- `pet_thread_cleanup`: a thread that has exited is freed. -/
def Sched.petThreadCleanup (s : Sched) (prevId : ℕ) : Option Sched :=
  (s.getThread prevId).map fun prev =>
    if (s.thread prev).state = .stopped then { s with freed := s.freed ++ [prev] } else s

/-- The `switch` of `__thread_invoker`, "Put old_thread in appropriate queue". -/
def Sched.putOld (s : Sched) (old : ℕ) : Sched :=
  match (s.thread old).state with
  | .running =>
    ({ s with readyList := if old ≠ masterId then s.readyList ++ [old] else s.readyList }).setState old .ready
  | .blocked => { s with blockedList := s.blockedList ++ [old] }
  | .stopped => { s with stopped := some old }
  | .ready => s

/-- `__thread_invoker`, up to where the target's stack is in place and the thread left
is cleaned up. -/
def Sched.threadInvoker (s : Sched) (t : ℕ) : Option Sched :=
  if (s.thread t).state ≠ .ready ∨ (s.thread s.running).state = .ready then none
  else
    (if t ≠ masterId then s.listDel t else some s).bind fun s₁ =>
      ((({ s₁ with running := t }).putOld s.running).setState t .running).petThreadCleanup s.running

/-- `pet_thread_schedule`, up to where it returns or another thread's stack is in place. -/
def Sched.petThreadSchedule (s : Sched) : Option Sched :=
  match s.readyList with
  | [] => if s.running ≠ masterId then s.threadInvoker masterId else some s
  | pos :: _ => if (s.thread pos).state ≠ .ready then none else s.threadInvoker pos

/-- The running thread goes on where it was. A thread that has exited must not: the
source prints an error there and returns from `__quarantine` into nowhere. -/
def Sched.resume (s : Sched) : Option Sched :=
  match s.cont s.running with
  | .start | .sched | .user => some (s.suspend .user)
  | .run => some ((s.suspend .user).note (.runReturned s.readyList))
  | .join threadId => some ((s.suspend .user).note (.joined s.running threadId (s.thread s.running).returnReciever))
  | .exited => none

/-! ### The calls -/

/-- `pet_thread_create`. -/
def Sched.petThreadCreate (s : Sched) : Sched :=
  { s with threadIdCount := s.threadIdCount + 1,
           thread := Function.update s.thread s.threadIdCount ⟨.ready, [], 0⟩,
           cont := Function.update s.cont s.threadIdCount .start,
           readyList := s.readyList ++ [s.threadIdCount] }

/-- `__yield_to`. -/
def Sched.yieldTo (s : Sched) (tgt : Option ℕ) : Option Sched :=
  match tgt with
  | none => s.petThreadSchedule
  | some t => if (s.thread t).state ≠ .ready then s.petThreadSchedule else s.threadInvoker t

/-- The part of `pet_thread_join` before it schedules. The waiting list of the master
thread is never initialised: adding to it dereferences `NULL`. -/
def Sched.waitFor (s : Sched) (t : ℕ) : Option Sched :=
  if (s.thread s.running).state ≠ .running ∨ t = masterId then none
  else some ((s.setState s.running .blocked).modify t
    fun r => { r with waitingForMe := r.waitingForMe ++ [s.running] })

/-- One waiter of the exiting thread in `__quarantine`. -/
def Sched.wake (s : Sched) (retVal waiter : ℕ) : Option Sched :=
  if (s.thread waiter).state ≠ .blocked then none
  else
    ((s.modify waiter fun r => { r with returnReciever := retVal, state := .ready }).listDel waiter).map fun s =>
      ({ s with readyList := s.readyList ++ [waiter] }).modify s.running
        fun r => { r with waitingForMe := r.waitingForMe.tail }

/-- The loop of `__quarantine` over the waiters. -/
def Sched.wakeAll (retVal : ℕ) : List ℕ → Sched → Option Sched
  | [], s => some s
  | waiter :: waiters, s => (s.wake retVal waiter).bind (Sched.wakeAll retVal waiters)

/-- `__quarantine`, before it schedules. The master thread has no waiting list to look
at, and must not exit. -/
def Sched.quarantine (s : Sched) (retVal : ℕ) : Option Sched :=
  if s.running = masterId then none
  else
    (Sched.wakeAll retVal (s.thread s.running).waitingForMe s).bind fun s =>
      if (s.thread s.running).waitingForMe ≠ [] ∨ (s.thread s.running).state ≠ .running then none
      else some ((s.setState s.running .stopped).note (.exited s.running retVal))

/-- A call of the library. A thread that returns from its function calls
`__quarantine` through `__capture_return`, as `pet_thread_exit` does. -/
inductive Call where
  /-- `pet_thread_create`. -/
  | create
  /-- `pet_thread_run`. -/
  | run
  /-- `pet_thread_schedule`. -/
  | schedule
  /-- `pet_thread_yield_to`. -/
  | yieldTo (threadId : ℕ)
  /-- `pet_thread_join`. -/
  | join (threadId : ℕ)
  /-- `pet_thread_exit`, or a return from the thread's function. -/
  | exit (retVal : ℕ)
  deriving DecidableEq, Repr

/-- What a call of the running thread does, until user code runs again. -/
def Sched.call (s : Sched) : Call → Option Sched
  | .create => some s.petThreadCreate
  | .run => (s.suspend .run).petThreadSchedule.bind Sched.resume
  | .schedule => (s.suspend .sched).petThreadSchedule.bind Sched.resume
  | .yieldTo threadId => ((s.suspend .sched).yieldTo (s.getThread threadId)).bind Sched.resume
  | .join threadId =>
    match s.getThread threadId with
    | none => some s
    | some t => ((s.suspend (.join threadId)).waitFor t).bind fun s => s.petThreadSchedule.bind Sched.resume
  | .exit retVal => ((s.suspend .exited).quarantine retVal).bind fun s => s.petThreadSchedule.bind Sched.resume

/-- A call that does not end the program. -/
def Step (s : Sched) (c : Call) (s' : Sched) : Prop := s.call c = some s'

end PetLab.Threads
