import Mathlib.Data.Fintype.Basic
import PetLab.SyncProject.Spinlock

/-!
# The reader-writer lock

`rw_lock_init`, `rw_read_lock`, `rw_read_unlock`, `rw_write_lock` and `rw_write_unlock` of
`locking.c`, one access to shared memory at a time.

## The model

`lock->mutex` is a 64-bit pointer, and `rw_read_unlock` passes its address to `atomic_sub`
where the address of an `int` is expected: it subtracts from the low half of the pointer.
So the spinlock a thread waits for or frees is the one behind the pointer at the time it
evaluates `lock->mutex`, and memory has a word of type `struct spinlock` for every address.
Where the pointer is not what `rw_lock_init` stored, anything can happen to this memory at
any time (`RwAct.scribble`). It is disjoint from the lock.

A function is called by a thread that is in none of the four; one that unlocks is called
by a thread that holds what it unlocks. A thread may take the read lock again while it holds
it, so that `reads` and `writes` count what it holds. It holds a lock from the return of
`rw_read_lock` or `rw_write_lock` to the `atomic_sub` of the matching unlock. `acquired` and
`released` count its increments of `num_readers` and its calls of `rw_read_unlock`. No step
of the code looks at these.
-/

namespace PetLab.SyncProject

open PetLab.Lib

/-- `struct read_write_lock`. -/
structure ReadWriteLock where
  /-- `num_readers`. -/
  numReaders : BitVec 32
  /-- `writer`. -/
  writer : BitVec 32
  /-- `w_mutex`. -/
  wMutex : BitVec 64
  /-- `mutex`. -/
  mutex : BitVec 64
  deriving DecidableEq, Repr

/-- `atomic_sub`: what `*value` holds afterwards. -/
def atomicSub (value decVal : BitVec 32) : BitVec 32 := value - decVal

/-- `atomic_sub` of the `int` at the address of a pointer, which is its low half. -/
def atomicSubPtr (ptr : BitVec 64) (decVal : BitVec 32) : BitVec 64 :=
  ptr.extractLsb' 32 32 ++ atomicSub (ptr.setWidth 32) decVal

/-- The lock, and the memory that pointers to spinlocks point to. -/
structure RwShared where
  /-- The lock. -/
  lock : ReadWriteLock
  /-- The spinlocks. -/
  mem : BitVec 64 → Spinlock

/-- `rw_lock_init`, when `malloc` returns `sl0` and `sl1`. -/
def rwLockInit (sl0 sl1 : BitVec 64) (mem : BitVec 64 → Spinlock) : RwShared where
  lock := ⟨0, 0, sl1, sl0⟩
  mem := Function.update (Function.update mem sl0 spinlockInit) sl1 spinlockInit

/-- What is locked. -/
inductive RwKind where
  /-- The read lock. -/
  | read
  /-- The write lock. -/
  | write
  deriving DecidableEq, Repr

/-- Where a thread is in one of the four functions. -/
inductive RwPc where
  /-- The argument of `spinlock_lock(lock->mutex)`. -/
  | loadLock (kind : RwKind)
  /-- `spinlock_lock` of `mutex`. -/
  | spin (kind : RwKind) (mutex : BitVec 64)
  /-- `lock->writer` in the condition of the `while`. -/
  | testWriter (kind : RwKind)
  /-- `lock->num_readers>0` in the condition of the `while` of `rw_write_lock`. -/
  | testReaders
  /-- The load of `lock->num_readers++`. -/
  | loadReaders
  /-- The store of `lock->num_readers++`, when `numReaders` was read. -/
  | storeReaders (numReaders : BitVec 32)
  /-- `lock->writer = 1`. -/
  | storeWriter
  /-- The argument of `spinlock_unlock(lock->mutex)`. -/
  | loadUnlock (kind : RwKind)
  /-- `spinlock_unlock` of `mutex`. -/
  | unlock (kind : RwKind) (mutex : BitVec 64)
  /-- `atomic_sub(&(lock->mutex), 1)` of `rw_read_unlock`. -/
  | subMutex
  /-- `atomic_sub(&(lock->writer), 1)` of `rw_write_unlock`. -/
  | subWriter
  deriving DecidableEq, Repr

/-- What comes next when `lock->writer` is `0`: the rest of the condition, or the body. -/
def RwKind.noWriter : RwKind → RwPc
  | .read => .loadReaders
  | .write => .testReaders

/-- One access; the function has returned when there is no next one. -/
def RwShared.access (g : RwShared) : RwPc → RwShared × Option RwPc
  | .loadLock kind => (g, some (.spin kind g.lock.mutex))
  | .spin kind mutex =>
    let r := (g.mem mutex).spinlockLock
    ({ g with mem := Function.update g.mem mutex r.2 }, some (if r.1 then .spin kind mutex else .testWriter kind))
  | .testWriter kind => (g, some (if g.lock.writer ≠ 0 then .testWriter kind else kind.noWriter))
  | .testReaders => (g, some (if (0#32).slt g.lock.numReaders then .testWriter .write else .storeWriter))
  | .loadReaders => (g, some (.storeReaders g.lock.numReaders))
  | .storeReaders numReaders =>
    ({ g with lock := { g.lock with numReaders := numReaders + 1 } }, some (.loadUnlock .read))
  | .storeWriter => ({ g with lock := { g.lock with writer := 1 } }, some (.loadUnlock .write))
  | .loadUnlock kind => (g, some (.unlock kind g.lock.mutex))
  | .unlock _ mutex => ({ g with mem := Function.update g.mem mutex (g.mem mutex).spinlockUnlock }, none)
  | .subMutex => ({ g with lock := { g.lock with mutex := atomicSubPtr g.lock.mutex 1 } }, none)
  | .subWriter => ({ g with lock := { g.lock with writer := atomicSub g.lock.writer 1 } }, none)

/-- A thread. -/
structure RwThread where
  /-- Where it is in one of the four functions, if it is in one. -/
  pc : Option RwPc
  /-- How often it holds the read lock. -/
  reads : ℕ
  /-- How often it holds the write lock. -/
  writes : ℕ
  /-- How often it has incremented `num_readers`. -/
  acquired : ℕ
  /-- How often it has unlocked the read lock. -/
  released : ℕ
  deriving DecidableEq, Repr

/-- What an access means for the locks the thread holds. -/
def RwThread.note (l : RwThread) : RwPc → RwThread
  | .storeReaders _ => { l with acquired := l.acquired + 1 }
  | .unlock .read _ => { l with reads := l.reads + 1 }
  | .unlock .write _ => { l with writes := l.writes + 1 }
  | .subMutex => { l with reads := l.reads - 1, released := l.released + 1 }
  | .subWriter => { l with writes := l.writes - 1 }
  | .loadLock _ | .spin _ _ | .testWriter _ | .testReaders | .loadReaders | .storeWriter | .loadUnlock _ => l

/-- What a thread, or the memory behind a stray pointer, can do. -/
inductive RwAct where
  /-- Call `rw_read_lock`. -/
  | readLock
  /-- Call `rw_read_unlock`. -/
  | readUnlock
  /-- Call `rw_write_lock`. -/
  | writeLock
  /-- Call `rw_write_unlock`. -/
  | writeUnlock
  /-- Go on with the call it is in. -/
  | run
  /-- The word at `addr` changes. -/
  | scribble (addr : BitVec 64) (word : Spinlock)
  deriving DecidableEq, Repr

/-- A step, when `rw_lock_init` has stored `sl0` in `lock->mutex`. -/
def RwShared.step (sl0 : BitVec 64) (a : RwAct) (g : RwShared) (l : RwThread) : Option (RwShared × RwThread) :=
  match a, l.pc with
  | .readLock, none => some (g, { l with pc := some (.loadLock .read) })
  | .writeLock, none => some (g, { l with pc := some (.loadLock .write) })
  | .readUnlock, none => if 0 < l.reads then some (g, { l with pc := some .subMutex }) else none
  | .writeUnlock, none => if 0 < l.writes then some (g, { l with pc := some .subWriter }) else none
  | .run, some pc => some ((g.access pc).1, { l.note pc with pc := (g.access pc).2 })
  | .scribble addr word, _ =>
    if addr = sl0 ∧ g.lock.mutex = sl0 then none else some ({ g with mem := Function.update g.mem addr word }, l)
  | _, _ => none

/-- The lock and its `N` threads. -/
abbrev RwSys (N : ℕ) := Conc (Fin N) RwShared RwThread

/-- One step of one thread. -/
abbrev RwStep (N : ℕ) (sl0 : BitVec 64) : RwSys N → Fin N × RwAct → RwSys N → Prop :=
  Conc.Step fun _ => RwShared.step sl0

/-- After `rw_lock_init`. -/
def rwStart (N : ℕ) (sl0 sl1 : BitVec 64) (mem : BitVec 64 → Spinlock) : RwSys N where
  shared := rwLockInit sl0 sl1 mem
  thread _ := ⟨none, 0, 0, 0, 0⟩

/-- No thread is in one of the four functions. -/
def Quiet {N : ℕ} (c : RwSys N) : Prop := ∀ t, (c.thread t).pc = none

/-- How often `num_readers` was incremented. -/
def acquisitions {N : ℕ} (c : RwSys N) : ℕ := ∑ t, (c.thread t).acquired

/-- How often `rw_read_unlock` was called. -/
def readUnlocks {N : ℕ} (c : RwSys N) : ℕ := ∑ t, (c.thread t).released

end PetLab.SyncProject
