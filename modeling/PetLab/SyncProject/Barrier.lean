import Mathlib.Data.Nat.Notation
import PetLab.Lib.Conc

/-!
# The barrier

`barrier_wait` of `locking.c`, one access to `struct barrier` at a time, and the loop of
`ex2_fn` in `driver.c`, which tests it.

## The model

The fields of the barrier are 32-bit integers that wrap around. `barrier_wait` is reused
round after round by the same `N` threads, which are numbered. Each load, each store and
the atomic `xadd` is one step; `bar->iterations++` is a load and a store. `BarrierPc` says
which access a thread is at, with the values it has read.

`arrivals` and `returns` count, for each thread, the `xadd`s it has performed and the calls
it has returned from. No step of the code looks at them.
-/

namespace PetLab.SyncProject

open PetLab.Lib

/-- `struct barrier`. -/
structure Barrier where
  /-- `iterations`. -/
  iterations : BitVec 32
  /-- `cur_count`. -/
  curCount : BitVec 32
  /-- `init_count`. -/
  initCount : BitVec 32
  deriving DecidableEq, Repr

/-- `barrier_init`. -/
def barrierInit (count : BitVec 32) : Barrier := ⟨0, 0, count⟩

/-- `atomic_add_ret_prev`: what it returns, and what `*value` holds afterwards. -/
def atomicAddRetPrev (value incVal : BitVec 32) : BitVec 32 × BitVec 32 := (value, value + incVal)

/-- Where a call of `barrier_wait` is. -/
inductive BarrierPc where
  /-- `my_iter = bar->iterations`. -/
  | loadIter
  /-- `prev = atomic_add_ret_prev(&(bar->cur_count), 1)`. -/
  | xadd (myIter : BitVec 32)
  /-- `prev == bar->init_count-1`. -/
  | test (myIter prev : BitVec 32)
  /-- `bar->cur_count = 0`. -/
  | reset
  /-- The load of `bar->iterations++`. -/
  | loadBump
  /-- The store of `bar->iterations++`, when `iterations` was read. -/
  | storeBump (iterations : BitVec 32)
  /-- `while(bar->iterations != my_iter+1)`. -/
  | spin (myIter : BitVec 32)
  /-- `return`. -/
  | ret
  deriving DecidableEq, Repr

/-- One access of `barrier_wait(bar)`. -/
def Barrier.barrierWait (bar : Barrier) : BarrierPc → Option (Barrier × BarrierPc)
  | .loadIter => some (bar, .xadd bar.iterations)
  | .xadd myIter =>
    let r := atomicAddRetPrev bar.curCount 1
    some ({ bar with curCount := r.2 }, .test myIter r.1)
  | .test myIter prev => some (bar, if prev = bar.initCount - 1 then .reset else .spin myIter)
  | .reset => some ({ bar with curCount := 0 }, .loadBump)
  | .loadBump => some (bar, .storeBump bar.iterations)
  | .storeBump iterations => some ({ bar with iterations := iterations + 1 }, .ret)
  | .spin myIter => some (bar, if bar.iterations ≠ myIter + 1 then .spin myIter else .ret)
  | .ret => none

/-- A thread, as far as the barrier is concerned. -/
structure Waiter where
  /-- Where it is in `barrier_wait`, if it is in there. -/
  pc : Option BarrierPc
  /-- How many `xadd`s it has performed. -/
  arrivals : ℕ
  /-- How many calls it has returned from. -/
  returns : ℕ
  deriving DecidableEq, Repr

/-- What a thread can be told to do. -/
inductive BarrierAct where
  /-- Call `barrier_wait`. -/
  | call
  /-- Go on with the call it is in. -/
  | run
  deriving DecidableEq, Repr

/-- The `xadd`s in an access. -/
def BarrierPc.arrives : BarrierPc → ℕ
  | .xadd _ => 1
  | _ => 0

/-- A step of a thread. -/
def Barrier.step (a : BarrierAct) (bar : Barrier) (l : Waiter) : Option (Barrier × Waiter) :=
  match a, l.pc with
  | .call, none => some (bar, { l with pc := some .loadIter })
  | .run, some .ret => some (bar, { l with pc := none, returns := l.returns + 1 })
  | .run, some pc => (bar.barrierWait pc).map fun r =>
    (r.1, { l with pc := some r.2, arrivals := l.arrivals + pc.arrives })
  | _, _ => none

/-- The barrier and its `N` threads. -/
abbrev BarrierSys (N : ℕ) := Conc (Fin N) Barrier Waiter

/-- One step of one thread. -/
abbrev BarrierStep (N : ℕ) : BarrierSys N → Fin N × BarrierAct → BarrierSys N → Prop :=
  Conc.Step fun _ => Barrier.step

/-- After `barrier_init(bar, N)`. -/
def barrierStart (N : ℕ) : BarrierSys N where
  shared := barrierInit (BitVec.ofNat 32 N)
  thread _ := ⟨none, 0, 0⟩

/-! ### The barrier test -/

/-- `ITERATIONS`. -/
def testIterations : ℕ := 1000

/-- Where a thread is in `ex2_fn`. -/
inductive Ex2Pc where
  /-- `i < ITERATIONS`. -/
  | head
  /-- `global_value != (num_threads * i)`. -/
  | check
  /-- The first `barrier_wait(test_barrier)`. -/
  | wait₁
  /-- `atomic_add(&global_value, 1)`. -/
  | add
  /-- The second `barrier_wait(test_barrier)`. -/
  | wait₂
  /-- `i++`. -/
  | next
  /-- `return ret`. -/
  | done
  deriving DecidableEq, Repr

/-- A thread in `ex2_fn`. -/
structure Ex2Thread where
  /-- Where it is. -/
  pc : Ex2Pc
  /-- `i`. -/
  i : ℕ
  /-- Whether `ret` is still `NULL`. -/
  ok : Bool
  /-- Where it is in `barrier_wait`. -/
  waiter : Waiter

/-- What the threads share. -/
structure Ex2Shared where
  /-- `test_barrier`. -/
  bar : Barrier
  /-- `global_value`. -/
  globalValue : BitVec 32

/-- A step in `barrier_wait`; the thread is at `pc` after the return. -/
def Ex2Shared.barrierWait (g : Ex2Shared) (l : Ex2Thread) (pc : Ex2Pc) : Option (Ex2Shared × Ex2Thread) :=
  (g.bar.step (if l.waiter.pc = none then .call else .run) l.waiter).map fun r =>
    ({ g with bar := r.1 }, { l with waiter := r.2, pc := if r.2.pc = none then pc else l.pc })

/-- A step of a thread in `ex2_fn`. -/
def Ex2Shared.ex2Fn (numThreads : ℕ) (g : Ex2Shared) (l : Ex2Thread) : Option (Ex2Shared × Ex2Thread) :=
  match l.pc with
  | .head => some (g, { l with pc := if l.i < testIterations then .check else .done })
  | .check =>
    some (g, { l with ok := l.ok && decide (g.globalValue = BitVec.ofNat 32 (numThreads * l.i)), pc := .wait₁ })
  | .wait₁ => g.barrierWait l .add
  | .add => some ({ g with globalValue := g.globalValue + 1 }, { l with pc := .wait₂ })
  | .wait₂ => g.barrierWait l .next
  | .next => some (g, { l with i := l.i + 1, pc := .head })
  | .done => none

/-- The test with `N` threads. -/
abbrev Ex2Sys (N : ℕ) := Conc (Fin N) Ex2Shared Ex2Thread

/-- One step of one thread. -/
abbrev Ex2Step (N : ℕ) : Ex2Sys N → Fin N × Unit → Ex2Sys N → Prop := Conc.Step fun _ _ => Ex2Shared.ex2Fn N

/-- Where the threads are created: `global_value` is `0`, and `barrier_init` was called. -/
def ex2Start (N : ℕ) : Ex2Sys N where
  shared := ⟨barrierInit (BitVec.ofNat 32 N), 0⟩
  thread _ := ⟨.head, 0, true, ⟨none, 0, 0⟩⟩

end PetLab.SyncProject
