import Mathlib.Algebra.Ring.Nat
import PetLab.Lib.Conc
import PetLab.Lib.Mutex

/-!
# The spinlock

`compare_and_swap` and the `spinlock_` functions of `locking.c`, and the loop of `ex3_fn` in
`driver.c`, which tests them: every thread adds one to `global_value`, by a load and a
store, `ITERATIONS` times, each time with the lock.

## The model

Each access to shared memory is one step. An iteration of `spinlock_lock` is one atomic
`cmpxchg`; what it returns decides whether the thread goes on to spin. The number of
iterations of the test is a parameter.
-/

namespace PetLab.SyncProject

open PetLab.Lib

/-- `compare_and_swap`: what it returns, and what `*ptr` holds afterwards. -/
def compareAndSwap (ptr expected new : BitVec 32) : BitVec 32 × BitVec 32 :=
  (ptr, if ptr = expected then new else ptr)

/-- `struct spinlock`. -/
structure Spinlock where
  /-- `free`. -/
  free : BitVec 32
  deriving DecidableEq, Repr

/-- `spinlock_init`. -/
def spinlockInit : Spinlock := ⟨1⟩

/-- One iteration of `spinlock_lock`: whether the thread spins on, and the lock. -/
def Spinlock.spinlockLock (lock : Spinlock) : Bool × Spinlock :=
  let r := compareAndSwap lock.free 1 0
  (r.1 == 0, ⟨r.2⟩)

/-- `spinlock_unlock`. -/
def Spinlock.spinlockUnlock (lock : Spinlock) : Spinlock := { lock with free := 1 }

/-- A lock that is taken makes the thread spin, and is not changed. -/
theorem spinlockLock_of_zero {lock : Spinlock} (h : lock.free = 0) : lock.spinlockLock = (true, lock) := by
  obtain ⟨free⟩ := lock
  obtain rfl : free = 0 := h
  rfl

/-- A lock that is free is taken. -/
theorem spinlockLock_of_one {lock : Spinlock} (h : lock.free = 1) : lock.spinlockLock = (false, ⟨0⟩) := by
  obtain ⟨free⟩ := lock
  obtain rfl : free = 1 := h
  rfl

/-! ### The test -/

/-- Where a thread is in `ex3_fn`. -/
inductive Ex3Pc where
  /-- `i < ITERATIONS`. -/
  | head
  /-- `spinlock_lock(lock)`. -/
  | lock
  /-- The load of `global_value += 1`. -/
  | load
  /-- The store of `global_value += 1`, when `globalValue` was read. -/
  | store (globalValue : BitVec 32)
  /-- `spinlock_unlock(lock)`. -/
  | unlock
  /-- `i++`. -/
  | next
  /-- `return NULL`. -/
  | done
  deriving DecidableEq, Repr

/-- A thread in `ex3_fn`. -/
structure Ex3Thread where
  /-- Where it is. -/
  pc : Ex3Pc
  /-- `i`. -/
  i : ℕ
  deriving DecidableEq, Repr

/-- What the threads share. -/
structure Ex3Shared where
  /-- `lock`. -/
  lock : Spinlock
  /-- `global_value`. -/
  globalValue : BitVec 32
  deriving DecidableEq, Repr

/-- A step of a thread in `ex3_fn`. -/
def Ex3Shared.ex3Fn (iterations : ℕ) (g : Ex3Shared) (l : Ex3Thread) : Option (Ex3Shared × Ex3Thread) :=
  match l.pc with
  | .head => some (g, { l with pc := if l.i < iterations then .lock else .done })
  | .lock =>
    let r := g.lock.spinlockLock
    some ({ g with lock := r.2 }, { l with pc := if r.1 then .lock else .load })
  | .load => some (g, { l with pc := .store g.globalValue })
  | .store globalValue => some ({ g with globalValue := globalValue + 1 }, { l with pc := .unlock })
  | .unlock => some ({ g with lock := g.lock.spinlockUnlock }, { l with pc := .next })
  | .next => some (g, { l with i := l.i + 1, pc := .head })
  | .done => none

/-- The test with `N` threads. -/
abbrev Ex3Sys (N : ℕ) := Conc (Fin N) Ex3Shared Ex3Thread

/-- One step of one thread. -/
abbrev Ex3Step (N iterations : ℕ) : Ex3Sys N → Fin N × Unit → Ex3Sys N → Prop :=
  Conc.Step fun _ _ => Ex3Shared.ex3Fn iterations

/-- Where the threads are created: `global_value` is `0`, and `spinlock_init` was called. -/
def ex3Start (N : ℕ) : Ex3Sys N where
  shared := ⟨spinlockInit, 0⟩
  thread _ := ⟨.head, 0⟩

/-! ### The invariant -/

/-- The thread is between a `spinlock_lock` that has returned and its `spinlock_unlock`. -/
def Ex3Thread.InSection (l : Ex3Thread) : Prop :=
  match l.pc with
  | .load | .store _ | .unlock => True
  | _ => False

/-- How many critical sections the thread has completed. -/
def Ex3Thread.completed (l : Ex3Thread) : ℕ :=
  match l.pc with
  | .next => l.i + 1
  | _ => l.i

/-- How often the thread has added to `global_value`. -/
def Ex3Thread.adds (l : Ex3Thread) : ℕ :=
  match l.pc with
  | .unlock | .next => l.i + 1
  | _ => l.i

/-- What holds of the test. -/
structure Ex3Inv {N : ℕ} (c : Ex3Sys N) : Prop where
  /-- The lock word is `0` or `1`. -/
  word : c.shared.lock.free = 0 ∨ c.shared.lock.free = 1
  /-- The lock guards the critical section. -/
  locked : Locked Ex3Thread.InSection (c.shared.lock.free = 1) c.thread
  /-- `global_value` counts what was added. -/
  globalValue : c.shared.globalValue = BitVec.ofNat 32 (∑ t, (c.thread t).adds)
  /-- What a thread has loaded is still there. -/
  loaded : ∀ t v, (c.thread t).pc = .store v → v = c.shared.globalValue

section

variable {N iterations : ℕ} {c c' : Ex3Sys N} {t : Fin N}

theorem ex3Inv_start : Ex3Inv (ex3Start N) where
  word := .inr rfl
  locked := ⟨fun t u ht => ht.elim, fun _ t ht => ht, fun _ => rfl⟩
  globalValue := by
    have hzero : ∑ t, ((ex3Start N).thread t).adds = 0 := Finset.sum_eq_zero fun t _ => rfl
    rw [hzero]
    rfl
  loaded _ _ h := by cases h

/-- A step of a thread that leaves `global_value` alone. -/
theorem Ex3Inv.of_same (h : Ex3Inv c) {lock : Spinlock} {l : Ex3Thread} (hword : lock.free = 0 ∨ lock.free = 1)
    (hlocked : Locked Ex3Thread.InSection (lock.free = 1) (Function.update c.thread t l))
    (hadds : l.adds = (c.thread t).adds) (hloaded : ∀ v, l.pc = .store v → v = c.shared.globalValue) :
    Ex3Inv ⟨{ c.shared with lock := lock }, Function.update c.thread t l⟩ where
  word := hword
  locked := hlocked
  globalValue := by
    have hsum := sum_update Ex3Thread.adds c.thread t l
    rw [hadds, Nat.add_right_cancel_iff] at hsum
    exact h.globalValue.trans (congrArg _ hsum.symm)
  loaded u v hu := by
    by_cases hut : u = t
    · subst hut
      exact hloaded v (by simpa using hu)
    · exact h.loaded u v (by simpa [hut] using hu)

/-- The store: no other thread is in the critical section, so none has loaded. -/
theorem Ex3Inv.store (h : Ex3Inv c) {v : BitVec 32} (hpc : (c.thread t).pc = .store v) :
    Ex3Inv ⟨{ c.shared with globalValue := v + 1 }, Function.update c.thread t { c.thread t with pc := .unlock }⟩ where
  word := h.word
  locked := h.locked.stay (by simp [Ex3Thread.InSection, hpc]) .rfl
  globalValue := by
    have hsum := sum_update Ex3Thread.adds c.thread t { c.thread t with pc := .unlock }
    simp only [Ex3Thread.adds, hpc, ← Nat.add_assoc, Nat.add_right_comm _ _ 1] at hsum
    have hone := Nat.add_right_cancel hsum
    refine Eq.trans ?_ (congrArg (BitVec.ofNat 32) hone.symm)
    rw [h.loaded t v hpc, h.globalValue, BitVec.ofNat_add]
    rfl
  loaded u w hu := by
    by_cases hut : u = t
    · subst hut
      simp at hu
    · have hu' : (c.thread u).pc = .store w := by simpa [hut] using hu
      refine absurd ?_ (h.locked.others (t := t) (by simp [Ex3Thread.InSection, hpc]) hut)
      simp [Ex3Thread.InSection, hu']

/-- **One step** of `ex3_fn`. -/
theorem Ex3Inv.step (h : Ex3Inv c) {a : Fin N × Unit} (hstep : Ex3Step N iterations c a c') : Ex3Inv c' := by
  obtain ⟨t, _⟩ := a
  obtain ⟨g, l, hf, rfl⟩ := Conc.step_iff.mp hstep
  unfold Ex3Shared.ex3Fn at hf
  split at hf
  case h_1 hpc =>
    obtain ⟨rfl, rfl⟩ := Prod.mk.inj (Option.some.inj hf)
    refine h.of_same h.word (h.locked.stay ?_ .rfl) ?_ ?_
    all_goals split_ifs <;> simp [Ex3Thread.InSection, Ex3Thread.adds, hpc]
  case h_2 hpc =>
    obtain ⟨rfl, rfl⟩ := Prod.mk.inj (Option.some.inj hf)
    rcases h.word with hword | hword
    · -- the lock is taken
      rw [spinlockLock_of_zero hword]
      refine h.of_same h.word (h.locked.stay ?_ .rfl) ?_ ?_
      all_goals simp [Ex3Thread.InSection, Ex3Thread.adds, hpc]
    · rw [spinlockLock_of_one hword]
      refine h.of_same (.inl rfl) (h.locked.enter hword ?_ (by simp)) ?_ ?_
      all_goals simp [Ex3Thread.InSection, Ex3Thread.adds, hpc]
  case h_3 hpc =>
    obtain ⟨rfl, rfl⟩ := Prod.mk.inj (Option.some.inj hf)
    refine h.of_same h.word (h.locked.stay ?_ .rfl) ?_ ?_
    · simp [Ex3Thread.InSection, hpc]
    · simp [Ex3Thread.adds, hpc]
    · rintro v hv
      exact (Ex3Pc.store.inj hv).symm
  case h_4 v hpc =>
    obtain ⟨rfl, rfl⟩ := Prod.mk.inj (Option.some.inj hf)
    exact h.store hpc
  case h_5 hpc =>
    obtain ⟨rfl, rfl⟩ := Prod.mk.inj (Option.some.inj hf)
    refine h.of_same (.inr rfl) (h.locked.leave ?_ ?_ rfl) ?_ ?_
    all_goals simp [Ex3Thread.InSection, Ex3Thread.adds, hpc]
  case h_6 hpc =>
    obtain ⟨rfl, rfl⟩ := Prod.mk.inj (Option.some.inj hf)
    refine h.of_same h.word (h.locked.stay ?_ .rfl) ?_ ?_
    all_goals simp [Ex3Thread.InSection, Ex3Thread.adds, hpc]
  case h_7 => cases hf

theorem ex3Inv_run {acts : List (Fin N × Unit)} (hrun : Exec (Ex3Step N iterations) (ex3Start N) acts c) : Ex3Inv c :=
  hrun.inv ex3Inv_start fun _ _ _ hs hstep => hs.step hstep

/-- Outside the critical section, what a thread has completed is what it has added. -/
theorem Ex3Thread.adds_eq {l : Ex3Thread} (h : ¬ l.InSection) : l.adds = l.completed := by
  unfold Ex3Thread.InSection at h
  unfold Ex3Thread.adds Ex3Thread.completed
  split
  · rename_i hpc
    simp [hpc] at h
  · rename_i hpc
    rw [hpc]
  · split
    · contradiction
    · rfl

end

/-- **Mutual exclusion, and no lost update**: at most one thread is between a returned
`spinlock_lock` and its `spinlock_unlock`, `free` is `0` while there is one and `1`
otherwise, and when there is none, `global_value` counts the critical sections that were
completed. -/
theorem spinlock_excludes {N iterations : ℕ} {acts : List (Fin N × Unit)} {c : Ex3Sys N}
    (hrun : Exec (Ex3Step N iterations) (ex3Start N) acts c) :
    (∀ t u, (c.thread t).InSection → (c.thread u).InSection → t = u) ∧
    ((∃ t, (c.thread t).InSection) → c.shared.lock.free = 0) ∧
    ((∀ t, ¬ (c.thread t).InSection) → c.shared.lock.free = 1) ∧
    ((∀ t, ¬ (c.thread t).InSection) →
      c.shared.globalValue = BitVec.ofNat 32 (∑ t, (c.thread t).completed)) := by
  have h := ex3Inv_run hrun
  refine ⟨h.locked.unique, ?_, h.locked.free_iff.mpr, ?_⟩
  · rintro ⟨t, ht⟩
    exact h.word.resolve_right (h.locked.not_free ht)
  · intro hno
    rw [h.globalValue, Finset.sum_congr rfl fun t _ => Ex3Thread.adds_eq (hno t)]

/-- Two threads: the first is about to store what it loaded, and the second spins. -/
theorem spinlock_excludes_two : ∃ acts c, Exec (Ex3Step 2 1) (ex3Start 2) acts c ∧
    (c.thread 0).pc = .store 0 ∧ (c.thread 1).pc = .lock ∧ c.shared.lock.free = 0 := by
  let acts : List (Fin 2 × Unit) := List.replicate 3 (0, ()) ++ List.replicate 5 (1, ())
  have hrun : (Conc.run (fun _ _ => Ex3Shared.ex3Fn 1) (ex3Start 2) acts).map
      (fun c => ((c.thread 0).pc, (c.thread 1).pc)) = some (.store 0, .lock) := by
    decide +kernel
  obtain ⟨c, hc, he⟩ := Option.map_eq_some_iff.mp hrun
  obtain ⟨h₀, h₁⟩ := Prod.mk.inj he
  have hexec := Conc.exec_of_run hc
  exact ⟨acts, c, hexec, h₀, h₁, (spinlock_excludes hexec).2.1 ⟨0, by simp [Ex3Thread.InSection, h₀]⟩⟩

end PetLab.SyncProject
