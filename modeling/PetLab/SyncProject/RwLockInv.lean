import PetLab.SyncProject.RwLock
import Mathlib.Algebra.Order.BigOperators.Group.Finset

/-!
# Before and after the first reader

The reader-writer lock works as it should until the first `rw_read_unlock`, which damages
`lock->mutex` instead of decrementing `num_readers`: until then, the spinlock of
`rw_lock_init` guards the bodies of `rw_read_lock` and `rw_write_lock`, `num_readers` counts
the readers and `writer` the writers (`Clean`).

After it, the spinlock guards nothing. But a thread that unlocks the read lock has
incremented `num_readers`, and nothing decrements it, so no writer gets past its test from
then on (`Dirty`), whatever the spinlock does. The first increment was made under the
spinlock, when there was no writer.
-/

namespace PetLab.SyncProject

open PetLab.Lib

/-- The thread has taken the mutex and has not freed it. -/
def RwThread.InSection (l : RwThread) : Prop :=
  match l.pc with
  | some (.testWriter _) | some .testReaders | some .loadReaders | some (.storeReaders _) | some .storeWriter
  | some (.loadUnlock _) | some (.unlock _ _) => True
  | _ => False

/-- How often the thread has set `writer` without clearing it. -/
def RwThread.claims (l : RwThread) : ℕ :=
  match l.pc with
  | some (.loadUnlock .write) | some (.unlock .write _) => l.writes + 1
  | _ => l.writes

/-- The thread has incremented `num_readers`, and `rw_read_lock` has not returned. -/
def RwThread.pending (l : RwThread) : ℕ :=
  match l.pc with
  | some (.loadUnlock .read) | some (.unlock .read _) => 1
  | _ => 0

/-- What a thread has found out, as long as the mutex is good. -/
def RwThread.At (sl0 : BitVec 64) (lock : ReadWriteLock) (l : RwThread) : Prop :=
  match l.pc with
  | some (.spin _ mutex) | some (.unlock _ mutex) => mutex = sl0
  | some .testReaders | some .loadReaders | some .storeWriter => lock.writer = 0
  | some (.storeReaders numReaders) => lock.writer = 0 ∧ numReaders = lock.numReaders
  | some .subWriter => 0 < l.writes
  | _ => True

/-- What holds until the first `rw_read_unlock`. -/
structure Clean {N : ℕ} (sl0 : BitVec 64) (c : RwSys N) : Prop where
  /-- `lock->mutex` is what `rw_lock_init` stored. -/
  mutex : c.shared.lock.mutex = sl0
  /-- The spinlock is free or taken. -/
  word : (c.shared.mem sl0).free = 0 ∨ (c.shared.mem sl0).free = 1
  /-- It guards the bodies of the functions. -/
  locked : Locked RwThread.InSection ((c.shared.mem sl0).free = 1) c.thread
  /-- The threads. -/
  each : ∀ t, (c.thread t).At sl0 c.shared.lock
  /-- `num_readers` counts the increments. -/
  numReaders : c.shared.lock.numReaders = BitVec.ofNat 32 (acquisitions c)
  /-- `writer` counts the writers, -/
  writer : c.shared.lock.writer = BitVec.ofNat 32 (∑ t, (c.thread t).claims)
  /-- of which there is at most one. -/
  one : ∑ t, (c.thread t).claims ≤ 1

/-- What holds from the first increment of `num_readers` on. -/
structure Dirty {N : ℕ} (c : RwSys N) : Prop where
  /-- There is a reader for `rw_write_lock`. -/
  pos : 0 < c.shared.lock.numReaders.toNat
  /-- An increment may be lost, but none is made up. -/
  le : c.shared.lock.numReaders.toNat ≤ acquisitions c
  /-- So it is with the value a thread has loaded. -/
  loaded : ∀ t v, (c.thread t).pc = some (.storeReaders v) → v.toNat ≤ acquisitions c
  /-- No thread has set `writer` or is about to. -/
  noWriter : ∀ t, (c.thread t).claims = 0 ∧ (c.thread t).pc ≠ some .storeWriter

/-- What a thread has acquired it holds, has released, or is about to hold. -/
structure RwThread.Held (l : RwThread) : Prop where
  /-- The read lock. -/
  acquired : l.acquired = l.reads + l.released + l.pending
  /-- It unlocks what it holds. -/
  holds : l.pc = some .subMutex → 0 < l.reads

/-! ### One step -/

section

variable {N : ℕ} {sl0 : BitVec 64} {c c' : RwSys N} {t : Fin N} {g g' : RwShared} {l l' : RwThread}

/-- What a step does: a function is called, the thread goes on, or stray memory changes. -/
theorem rwStep_cases {a : RwAct} (h : g.step sl0 a l = some (g', l')) :
    (∃ pc, (a = .readUnlock ↔ pc = .subMutex) ∧ l.pc = none ∧ g' = g ∧ l' = { l with pc := some pc } ∧
      ((∃ kind, pc = .loadLock kind) ∨ (pc = .subMutex ∧ 0 < l.reads) ∨ (pc = .subWriter ∧ 0 < l.writes))) ∨
    (∃ pc pc', a = .run ∧ l.pc = some pc ∧ g.access pc = (g', pc') ∧ l' = { l.note pc with pc := pc' }) ∨
    (∃ addr word, a = .scribble addr word ∧ ¬ (addr = sl0 ∧ g.lock.mutex = sl0) ∧
      g' = { g with mem := Function.update g.mem addr word } ∧ l' = l) := by
  unfold RwShared.step at h
  split at h
  case h_1 hpc =>
    obtain ⟨rfl, rfl⟩ := Prod.mk.inj (Option.some.inj h)
    exact .inl ⟨_, by simp, hpc, rfl, rfl, .inl ⟨_, rfl⟩⟩
  case h_2 hpc =>
    obtain ⟨rfl, rfl⟩ := Prod.mk.inj (Option.some.inj h)
    exact .inl ⟨_, by simp, hpc, rfl, rfl, .inl ⟨_, rfl⟩⟩
  case h_3 hpc =>
    split_ifs at h with hheld
    obtain ⟨rfl, rfl⟩ := Prod.mk.inj (Option.some.inj h)
    exact .inl ⟨_, by simp, hpc, rfl, rfl, .inr (.inl ⟨rfl, hheld⟩)⟩
  case h_4 hpc =>
    split_ifs at h with hheld
    obtain ⟨rfl, rfl⟩ := Prod.mk.inj (Option.some.inj h)
    exact .inl ⟨_, by simp, hpc, rfl, rfl, .inr (.inr ⟨rfl, hheld⟩)⟩
  case h_5 pc hpc =>
    obtain ⟨rfl, rfl⟩ := Prod.mk.inj (Option.some.inj h)
    exact .inr (.inl ⟨pc, _, rfl, hpc, rfl, rfl⟩)
  case h_6 addr word =>
    split_ifs at h with hok
    obtain ⟨rfl, rfl⟩ := Prod.mk.inj (Option.some.inj h)
    exact .inr (.inr ⟨addr, word, rfl, hok, rfl, rfl⟩)
  case h_7 => cases h

/-- A function does not go on with `rw_read_unlock`. -/
theorem access_ne_subMutex {pc : RwPc} {pc' : Option RwPc} (h : g.access pc = (g', pc')) :
    pc' ≠ some .subMutex := by
  cases pc with
  | spin kind mutex | testReaders =>
    obtain ⟨-, rfl⟩ := Prod.mk.inj h
    split_ifs <;> simp
  | testWriter kind =>
    obtain ⟨-, rfl⟩ := Prod.mk.inj h
    split_ifs
    · simp
    · cases kind <;> simp [RwKind.noWriter]
  | _ =>
    obtain ⟨-, rfl⟩ := Prod.mk.inj h
    simp

/-- The increments after a step. -/
theorem acquisitions_update (g : RwShared) (c : RwSys N) (t : Fin N) (l : RwThread) :
    acquisitions ⟨g, Function.update c.thread t l⟩ + (c.thread t).acquired = acquisitions c + l.acquired :=
  sum_update RwThread.acquired c.thread t l

theorem readUnlocks_update (g : RwShared) (c : RwSys N) (t : Fin N) (l : RwThread) :
    readUnlocks ⟨g, Function.update c.thread t l⟩ + (c.thread t).released = readUnlocks c + l.released :=
  sum_update RwThread.released c.thread t l

/-! ### With a good mutex -/

/-- Outside the section, a thread knows nothing of the lock. -/
theorem RwThread.At.of_outside {lock : ReadWriteLock} (h : l.At sl0 lock) (hout : ¬ l.InSection)
    (lock' : ReadWriteLock) : l.At sl0 lock' := by
  obtain ⟨pc, reads, writes, acquired, released⟩ := l
  match pc with
  | none | some (.loadLock _) | some .subMutex => trivial
  | some (.spin _ _) | some .subWriter => exact h
  | some (.testWriter _) | some .testReaders | some .loadReaders | some (.storeReaders _) | some .storeWriter
  | some (.loadUnlock _) | some (.unlock _ _) => exact absurd trivial hout

/-- What a thread has found out stays true when `writer` is cleared. -/
theorem RwThread.At.of_cleared {lock lock' : ReadWriteLock} (h : l.At sl0 lock) (hwriter : lock'.writer = 0)
    (hreaders : lock'.numReaders = lock.numReaders) : l.At sl0 lock' := by
  obtain ⟨pc, reads, writes, acquired, released⟩ := l
  match pc with
  | none | some (.loadLock _) | some .subMutex | some (.testWriter _) | some (.loadUnlock _) => trivial
  | some (.spin _ _) | some .subWriter | some (.unlock _ _) => exact h
  | some .testReaders | some .loadReaders | some .storeWriter => exact hwriter
  | some (.storeReaders _) => exact ⟨hwriter, h.2.trans hreaders.symm⟩

/-- A step that leaves the lock alone. -/
theorem Clean.quiet (h : Clean sl0 c) {mem : BitVec 64 → Spinlock}
    (hword : (mem sl0).free = 0 ∨ (mem sl0).free = 1)
    (hlocked : Locked RwThread.InSection ((mem sl0).free = 1) (Function.update c.thread t l))
    (hat : l.At sl0 c.shared.lock) (hacq : l.acquired = (c.thread t).acquired)
    (hclaims : l.claims = (c.thread t).claims) :
    Clean sl0 ⟨{ c.shared with mem := mem }, Function.update c.thread t l⟩ := by
  have hsum := sum_update RwThread.claims c.thread t l
  rw [hclaims, Nat.add_right_cancel_iff] at hsum
  have hacq' := acquisitions_update { c.shared with mem := mem } c t l
  rw [hacq, Nat.add_right_cancel_iff] at hacq'
  refine ⟨h.mutex, hword, hlocked, fun u => ?_, by rw [hacq']; exact h.numReaders,
    h.writer.trans (congrArg _ hsum.symm), hsum.trans_le h.one⟩
  show (Function.update c.thread t l u).At sl0 c.shared.lock
  by_cases hu : u = t
  · rw [hu, Function.update_self]
    exact hat
  · rw [Function.update_of_ne hu]
    exact h.each u

/-- No step of a thread outside the section changes the spinlock. -/
theorem Clean.stay (h : Clean sl0 c) (hin : l.InSection ↔ (c.thread t).InSection) (hat : l.At sl0 c.shared.lock)
    (hacq : l.acquired = (c.thread t).acquired) (hclaims : l.claims = (c.thread t).claims) :
    Clean sl0 ⟨c.shared, Function.update c.thread t l⟩ :=
  h.quiet h.word (h.locked.stay hin .rfl) hat hacq hclaims

/-- A reader increments `num_readers`. -/
theorem Clean.storeReaders (h : Clean sl0 c) {v : BitVec 32} (hpc : (c.thread t).pc = some (.storeReaders v)) :
    Clean sl0 ⟨{ c.shared with lock := { c.shared.lock with numReaders := v + 1 } },
      Function.update c.thread t
        { (c.thread t) with acquired := (c.thread t).acquired + 1, pc := some (.loadUnlock .read) }⟩ := by
  have hat : c.shared.lock.writer = 0 ∧ v = c.shared.lock.numReaders := by
    simpa only [RwThread.At, hpc] using h.each t
  have hin : (c.thread t).InSection := by
    simp only [RwThread.InSection, hpc]
  set l : RwThread := { (c.thread t) with acquired := (c.thread t).acquired + 1, pc := some (.loadUnlock .read) }
  have hsum := sum_update RwThread.claims c.thread t l
  have hclaims : l.claims = (c.thread t).claims := by
    simp [RwThread.claims, hpc, l]
  rw [hclaims, Nat.add_right_cancel_iff] at hsum
  have hacq := acquisitions_update { c.shared with lock := { c.shared.lock with numReaders := v + 1 } } c t l
  refine ⟨h.mutex, h.word, h.locked.stay ?_ .rfl, fun u => ?_, ?_, h.writer.trans (congrArg _ hsum.symm),
    hsum.trans_le h.one⟩
  · simp [RwThread.InSection, hpc, l]
  · show (Function.update c.thread t l u).At sl0 _
    by_cases hu : u = t
    · rw [hu, Function.update_self]
      trivial
    · -- no other thread is in the section, so none has loaded `num_readers`
      rw [Function.update_of_ne hu]
      exact (h.each u).of_outside (h.locked.others hin hu) _
  · have hone : acquisitions (⟨{ c.shared with lock := { c.shared.lock with numReaders := v + 1 } },
        Function.update c.thread t l⟩ : RwSys N) = acquisitions c + 1 := by
      simp only [l] at hacq ⊢
      omega
    rw [hone, BitVec.ofNat_add, ← h.numReaders, ← hat.2]
    rfl

/-- The counter tells whether there is a writer. -/
theorem Clean.writer_eq_zero_iff (h : Clean sl0 c) :
    c.shared.lock.writer = 0 ↔ ∑ t, (c.thread t).claims = 0 := by
  rw [h.writer]
  rcases Nat.le_one_iff_eq_zero_or_eq_one.mp h.one with h₀ | h₁
  · simp [h₀]
  · simp [h₁]

/-- A writer sets `writer`. -/
theorem Clean.storeWriter (h : Clean sl0 c) (hpc : (c.thread t).pc = some .storeWriter) :
    Clean sl0 ⟨{ c.shared with lock := { c.shared.lock with writer := 1 } },
      Function.update c.thread t { (c.thread t) with pc := some (.loadUnlock .write) }⟩ := by
  have hat : c.shared.lock.writer = 0 := by
    simpa only [RwThread.At, hpc] using h.each t
  have hin : (c.thread t).InSection := by
    simp only [RwThread.InSection, hpc]
  set l : RwThread := { (c.thread t) with pc := some (.loadUnlock .write) }
  have hsum : ∑ u, (Function.update c.thread t l u).claims = 1 := by
    have hsum := sum_update RwThread.claims c.thread t l
    rw [h.writer_eq_zero_iff.mp hat] at hsum
    simp only [RwThread.claims, hpc, l] at hsum ⊢
    omega
  have hacq := acquisitions_update { c.shared with lock := { c.shared.lock with writer := 1 } } c t l
  rw [Nat.add_right_cancel_iff] at hacq
  refine ⟨h.mutex, h.word, h.locked.stay ?_ .rfl, fun u => ?_, by rw [hacq]; exact h.numReaders,
    (congrArg (BitVec.ofNat 32) hsum).symm, hsum.le⟩
  · simp [RwThread.InSection, hpc, l]
  · show (Function.update c.thread t l u).At sl0 _
    by_cases hu : u = t
    · rw [hu, Function.update_self]
      trivial
    · rw [Function.update_of_ne hu]
      exact (h.each u).of_outside (h.locked.others hin hu) _

/-- A writer clears `writer`: it was the only one. -/
theorem Clean.subWriter (h : Clean sl0 c) (hpc : (c.thread t).pc = some .subWriter) :
    Clean sl0 ⟨{ c.shared with lock := { c.shared.lock with writer := atomicSub c.shared.lock.writer 1 } },
      Function.update c.thread t { (c.thread t) with writes := (c.thread t).writes - 1, pc := none }⟩ := by
  have hat : 0 < (c.thread t).writes := by
    simpa only [RwThread.At, hpc] using h.each t
  set l : RwThread := { (c.thread t) with writes := (c.thread t).writes - 1, pc := none }
  have hclaims : (c.thread t).claims = (c.thread t).writes := by
    simp only [RwThread.claims, hpc]
  have hone : ∑ u, (c.thread u).claims = 1 := by
    have hle := Finset.single_le_sum (f := fun u => (c.thread u).claims) (fun _ _ => Nat.zero_le _) (Finset.mem_univ t)
    have := h.one
    omega
  have hsum : ∑ u, (Function.update c.thread t l u).claims = 0 := by
    have hsum := sum_update RwThread.claims c.thread t l
    have hl : l.claims = (c.thread t).writes - 1 := rfl
    omega
  have hzero : atomicSub c.shared.lock.writer 1 = 0 := by
    rw [h.writer, hone]
    rfl
  have hacq := acquisitions_update
    { c.shared with lock := { c.shared.lock with writer := atomicSub c.shared.lock.writer 1 } } c t l
  rw [Nat.add_right_cancel_iff] at hacq
  refine ⟨h.mutex, h.word, h.locked.stay ?_ .rfl, fun u => ?_, by rw [hacq]; exact h.numReaders, ?_,
    by rw [hsum]; decide⟩
  · simp [RwThread.InSection, hpc, l]
  · show (Function.update c.thread t l u).At sl0 _
    by_cases hu : u = t
    · rw [hu, Function.update_self]
      trivial
    · rw [Function.update_of_ne hu]
      exact (h.each u).of_cleared hzero rfl
  · exact hzero.trans (congrArg (BitVec.ofNat 32) hsum).symm

/-- An access with a good mutex, other than that of `rw_read_unlock`. -/
theorem Clean.access (h : Clean sl0 c) {pc : RwPc} {pc' : Option RwPc} (hpc : (c.thread t).pc = some pc)
    (hne : pc ≠ .subMutex) (hacc : c.shared.access pc = (g', pc')) :
    Clean sl0 ⟨g', Function.update c.thread t { (c.thread t).note pc with pc := pc' }⟩ := by
  cases pc with
  | loadLock kind =>
    obtain ⟨rfl, rfl⟩ := Prod.mk.inj hacc
    refine h.stay ?_ h.mutex rfl ?_
    all_goals simp [RwThread.InSection, RwThread.claims, RwThread.note, hpc]
  | spin kind mutex =>
    obtain rfl : mutex = sl0 := by
      simpa only [RwThread.At, hpc] using h.each t
    rcases h.word with hword | hword
    · -- the spinlock is taken
      rw [RwShared.access, spinlockLock_of_zero hword, Function.update_eq_self] at hacc
      obtain ⟨rfl, rfl⟩ := Prod.mk.inj hacc
      refine h.stay ?_ rfl rfl ?_
      all_goals simp [RwThread.InSection, RwThread.claims, RwThread.note, hpc]
    · rw [RwShared.access, spinlockLock_of_one hword] at hacc
      obtain ⟨rfl, rfl⟩ := Prod.mk.inj hacc
      refine h.quiet (.inl (by simp)) (h.locked.enter hword ?_ (by simp)) trivial rfl ?_
      all_goals simp [RwThread.InSection, RwThread.claims, RwThread.note, hpc]
  | testWriter kind =>
    rw [RwShared.access] at hacc
    split_ifs at hacc with hw
    · obtain ⟨rfl, rfl⟩ := Prod.mk.inj hacc
      refine h.stay ?_ trivial rfl ?_
      all_goals simp [RwThread.InSection, RwThread.claims, RwThread.note, hpc]
    · obtain ⟨rfl, rfl⟩ := Prod.mk.inj hacc
      cases kind with
      | read =>
        refine h.stay ?_ (not_not.mp hw) rfl ?_
        all_goals simp [RwThread.InSection, RwThread.claims, RwThread.note, RwKind.noWriter, hpc]
      | write =>
        refine h.stay ?_ (not_not.mp hw) rfl ?_
        all_goals simp [RwThread.InSection, RwThread.claims, RwThread.note, RwKind.noWriter, hpc]
  | testReaders =>
    have hat : c.shared.lock.writer = 0 := by
      simpa only [RwThread.At, hpc] using h.each t
    rw [RwShared.access] at hacc
    split_ifs at hacc
    · obtain ⟨rfl, rfl⟩ := Prod.mk.inj hacc
      refine h.stay ?_ trivial rfl ?_
      all_goals simp [RwThread.InSection, RwThread.claims, RwThread.note, hpc]
    · obtain ⟨rfl, rfl⟩ := Prod.mk.inj hacc
      refine h.stay ?_ hat rfl ?_
      all_goals simp [RwThread.InSection, RwThread.claims, RwThread.note, hpc]
  | loadReaders =>
    have hat : c.shared.lock.writer = 0 := by
      simpa only [RwThread.At, hpc] using h.each t
    obtain ⟨rfl, rfl⟩ := Prod.mk.inj hacc
    refine h.stay ?_ ⟨hat, rfl⟩ rfl ?_
    all_goals simp [RwThread.InSection, RwThread.claims, RwThread.note, hpc]
  | storeReaders v =>
    obtain ⟨rfl, rfl⟩ := Prod.mk.inj hacc
    exact h.storeReaders hpc
  | storeWriter =>
    obtain ⟨rfl, rfl⟩ := Prod.mk.inj hacc
    exact h.storeWriter hpc
  | loadUnlock kind =>
    obtain ⟨rfl, rfl⟩ := Prod.mk.inj hacc
    refine h.stay ?_ h.mutex rfl ?_
    · simp [RwThread.InSection, hpc]
    · cases kind <;> simp [RwThread.claims, RwThread.note, hpc]
  | unlock kind mutex =>
    obtain rfl : mutex = sl0 := by
      simpa only [RwThread.At, hpc] using h.each t
    obtain ⟨rfl, rfl⟩ := Prod.mk.inj hacc
    refine h.quiet (.inr (by simp [Spinlock.spinlockUnlock])) (h.locked.leave ?_ ?_ (by simp [Spinlock.spinlockUnlock]))
      trivial ?_ ?_
    · simp [RwThread.InSection, hpc]
    · simp [RwThread.InSection]
    · cases kind <;> rfl
    · cases kind <;> simp [RwThread.claims, RwThread.note, hpc]
  | subMutex => exact absurd rfl hne
  | subWriter =>
    obtain ⟨rfl, rfl⟩ := Prod.mk.inj hacc
    exact h.subWriter hpc

/-- A step with a good mutex that does not unlock the read lock. -/
theorem Clean.step (h : Clean sl0 c) {a : Fin N × RwAct} (hstep : RwStep N sl0 c a c')
    (hno : readUnlocks c' = readUnlocks c) : Clean sl0 c' := by
  obtain ⟨t, a⟩ := a
  obtain ⟨g, l, hf, rfl⟩ := Conc.step_iff.mp hstep
  have hunlocks := readUnlocks_update g c t l
  rcases rwStep_cases hf with ⟨pc, -, hnone, rfl, rfl, hcall⟩ | ⟨pc, pc', -, hpc, hacc, rfl⟩ |
    ⟨addr, word, -, hok, rfl, rfl⟩
  · rcases hcall with ⟨kind, rfl⟩ | ⟨rfl, -⟩ | ⟨rfl, hwrites⟩
    · refine h.stay ?_ trivial rfl ?_
      all_goals simp [RwThread.InSection, RwThread.claims, hnone]
    · refine h.stay ?_ trivial rfl ?_
      all_goals simp [RwThread.InSection, RwThread.claims, hnone]
    · refine h.stay ?_ hwrites rfl ?_
      all_goals simp [RwThread.InSection, RwThread.claims, hnone]
  · refine h.access hpc ?_ hacc
    rintro rfl
    rw [hno, Nat.add_left_cancel_iff] at hunlocks
    exact Nat.succ_ne_self _ hunlocks.symm
  · have hne : sl0 ≠ addr := fun he => hok ⟨he.symm, h.mutex⟩
    have hsame : Function.update c.shared.mem addr word sl0 = c.shared.mem sl0 := Function.update_of_ne hne _ _
    refine h.quiet ?_ ?_ (h.each t) rfl rfl
    · rw [hsame]
      exact h.word
    · rw [hsame]
      exact h.locked.stay .rfl .rfl

/-! ### With readers -/

/-- `num_readers>0`. -/
theorem zero_slt {v : BitVec 32} (hpos : 0 < v.toNat) (hlt : v.toNat < 2 ^ 31) : (0#32).slt v = true := by
  simp only [BitVec.slt, BitVec.toInt_eq_toNat_cond, BitVec.toNat_ofNat, decide_eq_true_eq]
  omega

/-- What a thread does when there is a reader, of at most `n`. -/
theorem access_of_readers {pc : RwPc} {pc' : Option RwPc} {n : ℕ} (hpc : l.pc = some pc)
    (hacc : g.access pc = (g', pc')) (hpos : 0 < g.lock.numReaders.toNat) (hle : g.lock.numReaders.toNat ≤ n)
    (hlt : n < 2 ^ 31) (hloaded : ∀ v, pc = .storeReaders v → v.toNat ≤ n) (hclaims : l.claims = 0)
    (hno : pc ≠ .storeWriter) :
    0 < g'.lock.numReaders.toNat ∧ g'.lock.numReaders.toNat + l.acquired ≤ n + (l.note pc).acquired ∧
      (∀ v, pc' = some (.storeReaders v) → v.toNat ≤ n) ∧
      ({ l.note pc with pc := pc' } : RwThread).claims = 0 ∧ pc' ≠ some .storeWriter := by
  have hwrites : l.writes = 0 := by
    unfold RwThread.claims at hclaims
    split at hclaims <;> omega
  cases pc with
  | loadLock kind =>
    obtain ⟨rfl, rfl⟩ := Prod.mk.inj hacc
    exact ⟨hpos, by simp only [RwThread.note]; omega, nofun, hwrites, nofun⟩
  | spin kind mutex =>
    obtain ⟨rfl, rfl⟩ := Prod.mk.inj hacc
    refine ⟨hpos, by simp only [RwThread.note]; omega, ?_, ?_, ?_⟩
    all_goals split_ifs
    all_goals first | exact hwrites | simp
  | testWriter kind =>
    obtain ⟨rfl, rfl⟩ := Prod.mk.inj hacc
    refine ⟨hpos, by simp only [RwThread.note]; omega, ?_, ?_, ?_⟩
    all_goals split_ifs
    all_goals cases kind
    all_goals first | exact hwrites | simp [RwKind.noWriter]
  | testReaders =>
    rw [RwShared.access, if_pos (zero_slt hpos (by omega))] at hacc
    obtain ⟨rfl, rfl⟩ := Prod.mk.inj hacc
    exact ⟨hpos, by simp only [RwThread.note]; omega, nofun, hwrites, nofun⟩
  | loadReaders =>
    obtain ⟨rfl, rfl⟩ := Prod.mk.inj hacc
    refine ⟨hpos, by simp only [RwThread.note]; omega, ?_, hwrites, nofun⟩
    rintro v hv
    obtain rfl : g.lock.numReaders = v := by simpa using hv
    exact hle
  | storeReaders v =>
    obtain ⟨rfl, rfl⟩ := Prod.mk.inj hacc
    have hv := hloaded v rfl
    have hadd : (v + 1).toNat = v.toNat + 1 := by
      rw [BitVec.toNat_add]
      exact Nat.mod_eq_of_lt (by show v.toNat + 1 < 2 ^ 32; omega)
    refine ⟨?_, ?_, nofun, hwrites, nofun⟩
    · show 0 < (v + 1).toNat
      omega
    · show (v + 1).toNat + l.acquired ≤ n + (l.acquired + 1)
      omega
  | storeWriter => exact absurd rfl hno
  | loadUnlock kind =>
    obtain ⟨rfl, rfl⟩ := Prod.mk.inj hacc
    cases kind with
    | read => exact ⟨hpos, by simp only [RwThread.note]; omega, nofun, hwrites, nofun⟩
    | write => simp [RwThread.claims, hpc] at hclaims
  | unlock kind mutex =>
    obtain ⟨rfl, rfl⟩ := Prod.mk.inj hacc
    cases kind with
    | read => exact ⟨hpos, by simp only [RwThread.note]; omega, nofun, hwrites, nofun⟩
    | write => simp [RwThread.claims, hpc] at hclaims
  | subMutex =>
    obtain ⟨rfl, rfl⟩ := Prod.mk.inj hacc
    exact ⟨hpos, by simp only [RwThread.note]; omega, nofun, hwrites, nofun⟩
  | subWriter =>
    obtain ⟨rfl, rfl⟩ := Prod.mk.inj hacc
    refine ⟨hpos, by simp only [RwThread.note]; omega, nofun, ?_, nofun⟩
    show l.writes - 1 = 0
    omega

/-- No access decreases the counts. -/
theorem RwThread.note_mono (l : RwThread) (pc : RwPc) :
    l.acquired ≤ (l.note pc).acquired ∧ l.released ≤ (l.note pc).released := by
  cases pc with
  | unlock kind mutex => cases kind <;> simp [RwThread.note]
  | _ => simp [RwThread.note]

theorem RwThread.released_note (l : RwThread) {pc : RwPc} (hne : pc ≠ .subMutex) :
    (l.note pc).released = l.released := by
  cases pc with
  | subMutex => exact absurd rfl hne
  | unlock kind mutex => cases kind <;> rfl
  | _ => rfl

theorem rwStep_mono {a : Fin N × RwAct} (hstep : RwStep N sl0 c a c') :
    acquisitions c ≤ acquisitions c' ∧ readUnlocks c ≤ readUnlocks c' := by
  obtain ⟨t, a⟩ := a
  obtain ⟨g, l, hf, rfl⟩ := Conc.step_iff.mp hstep
  have hacq := acquisitions_update g c t l
  have hrel := readUnlocks_update g c t l
  have hmono : (c.thread t).acquired ≤ l.acquired ∧ (c.thread t).released ≤ l.released := by
    rcases rwStep_cases hf with ⟨pc, -, -, -, rfl, -⟩ | ⟨pc, pc', -, -, -, rfl⟩ | ⟨addr, word, -, -, -, rfl⟩
    · exact ⟨le_rfl, le_rfl⟩
    · exact (c.thread t).note_mono pc
    · exact ⟨le_rfl, le_rfl⟩
  omega

/-- A step of a thread, given what becomes of it, when there is a reader. -/
theorem Dirty.of_moved (h : Dirty c) (hmono : acquisitions c ≤ acquisitions ⟨g, Function.update c.thread t l⟩)
    (hpos : 0 < g.lock.numReaders.toNat)
    (hle : g.lock.numReaders.toNat ≤ acquisitions ⟨g, Function.update c.thread t l⟩)
    (hloaded : ∀ v, l.pc = some (.storeReaders v) → v.toNat ≤ acquisitions c) (hclaims : l.claims = 0)
    (hno : l.pc ≠ some .storeWriter) : Dirty ⟨g, Function.update c.thread t l⟩ := by
  refine ⟨hpos, hle, fun u v hu => ?_, fun u => ?_⟩
  · by_cases hut : u = t
    · subst hut
      exact (hloaded v (by simpa using hu)).trans hmono
    · exact (h.loaded u v (by simpa [hut] using hu)).trans hmono
  · show (Function.update c.thread t l u).claims = 0 ∧ (Function.update c.thread t l u).pc ≠ some .storeWriter
    by_cases hut : u = t
    · rw [hut, Function.update_self]
      exact ⟨hclaims, hno⟩
    · rw [Function.update_of_ne hut]
      exact h.noWriter u

theorem Dirty.step (h : Dirty c) {a : Fin N × RwAct} (hstep : RwStep N sl0 c a c')
    (hlt : acquisitions c' < 2 ^ 31) : Dirty c' := by
  have hmono := (rwStep_mono hstep).1
  obtain ⟨t, a⟩ := a
  obtain ⟨g, l, hf, rfl⟩ := Conc.step_iff.mp hstep
  obtain ⟨hclaims, hno⟩ := h.noWriter t
  have hacq := acquisitions_update g c t l
  rcases rwStep_cases hf with ⟨pc, -, hnone, rfl, rfl, hcall⟩ | ⟨pc, pc', -, hpc, hacc, rfl⟩ |
    ⟨addr, word, -, -, rfl, rfl⟩
  · have hwrites : (c.thread t).writes = 0 := by
      simpa [RwThread.claims, hnone] using hclaims
    refine h.of_moved hmono h.pos (h.le.trans hmono) ?_ ?_ ?_
    all_goals rcases hcall with ⟨kind, rfl⟩ | ⟨rfl, -⟩ | ⟨rfl, -⟩
    all_goals first | exact hwrites | simp
  · obtain ⟨hpos, hle, hloaded, hclaims', hno'⟩ := access_of_readers hpc hacc h.pos h.le (by omega)
      (fun v hv => h.loaded t v (by rw [hpc, hv])) hclaims (fun he => hno (by rw [hpc, he]))
    have hsame : ({ (c.thread t).note pc with pc := pc' } : RwThread).acquired = ((c.thread t).note pc).acquired := rfl
    exact h.of_moved hmono hpos (by omega) hloaded hclaims' hno'
  · exact h.of_moved hmono h.pos (h.le.trans hmono) (fun v hv => h.loaded t v hv) hclaims hno

/-! ### Every run -/

/-- The first reader: it has the mutex, and there is no writer. -/
theorem Clean.firstReader (h : Clean sl0 c) (hzero : acquisitions c = 0) {a : Fin N × RwAct}
    (hstep : RwStep N sl0 c a c') (hpos : 0 < acquisitions c') : Dirty c' := by
  obtain ⟨t, a⟩ := a
  obtain ⟨g, l, hf, rfl⟩ := Conc.step_iff.mp hstep
  have hacq := acquisitions_update g c t l
  have hmore : (c.thread t).acquired < l.acquired := by omega
  -- only one access increments `num_readers`
  obtain ⟨v, hpc, rfl, rfl⟩ : ∃ v, (c.thread t).pc = some (.storeReaders v) ∧
      g = { c.shared with lock := { c.shared.lock with numReaders := v + 1 } } ∧
      l = { (c.thread t) with acquired := (c.thread t).acquired + 1, pc := some (.loadUnlock .read) } := by
    rcases rwStep_cases hf with ⟨pc, -, -, -, rfl, -⟩ | ⟨pc, pc', -, hpc, hacc, rfl⟩ | ⟨addr, word, -, -, -, rfl⟩
    · exact absurd hmore (lt_irrefl _)
    · cases pc with
      | storeReaders v =>
        obtain ⟨rfl, rfl⟩ := Prod.mk.inj hacc
        exact ⟨v, hpc, rfl, rfl⟩
      | unlock kind mutex => cases kind <;> exact absurd hmore (lt_irrefl _)
      | _ => exact absurd hmore (lt_irrefl _)
    · exact absurd hmore (lt_irrefl _)
  obtain ⟨hwriter, hv⟩ : c.shared.lock.writer = 0 ∧ v = c.shared.lock.numReaders := by
    simpa only [RwThread.At, hpc] using h.each t
  have hin : (c.thread t).InSection := by
    simp only [RwThread.InSection, hpc]
  obtain rfl : v = 0 := by
    rw [hv, h.numReaders, hzero]
    rfl
  have hclaims : ∀ u, (c.thread u).claims = 0 := fun u =>
    Finset.sum_eq_zero_iff.mp (h.writer_eq_zero_iff.mp hwriter) u (Finset.mem_univ u)
  refine ⟨Nat.one_pos, hpos, fun u w hu => ?_, fun u => ?_⟩
  · by_cases hut : u = t
    · subst hut
      simp at hu
    · have hu' : (c.thread u).pc = some (.storeReaders w) := by simpa [hut] using hu
      refine absurd ?_ (h.locked.others hin hut)
      simp [RwThread.InSection, hu']
  · show (Function.update c.thread t _ u).claims = 0 ∧ (Function.update c.thread t _ u).pc ≠ some .storeWriter
    by_cases hut : u = t
    · rw [hut, Function.update_self]
      have := hclaims t
      simp only [RwThread.claims, hpc] at this
      exact ⟨this, by simp⟩
    · rw [Function.update_of_ne hut]
      refine ⟨hclaims u, fun hu => h.locked.others hin hut ?_⟩
      simp [RwThread.InSection, hu]

/-- What a step does to the locks a thread holds. -/
theorem RwThread.Held.step (h : l.Held) {a : RwAct} (hf : g.step sl0 a l = some (g', l')) : l'.Held := by
  obtain ⟨hacq, hholds⟩ := h
  rcases rwStep_cases hf with ⟨pc, -, hnone, -, rfl, hcall⟩ | ⟨pc, pc', -, hpc, hacc, rfl⟩ | ⟨addr, word, -, -, -, rfl⟩
  · simp only [RwThread.pending, hnone] at hacq
    rcases hcall with ⟨kind, rfl⟩ | ⟨rfl, hreads⟩ | ⟨rfl, -⟩
    · exact ⟨hacq, by simp⟩
    · exact ⟨hacq, fun _ => hreads⟩
    · exact ⟨hacq, by simp⟩
  · refine ⟨?_, fun he => absurd he (access_ne_subMutex hacc)⟩
    cases pc with
    | unlock kind mutex =>
      obtain ⟨-, rfl⟩ := Prod.mk.inj hacc
      cases kind with
      | read =>
        simp only [RwThread.pending, RwThread.note, hpc] at hacq ⊢
        omega
      | write => simpa only [RwThread.pending, RwThread.note, hpc] using hacq
    | loadUnlock kind =>
      obtain ⟨-, rfl⟩ := Prod.mk.inj hacc
      cases kind with
      | read => simpa only [RwThread.pending, RwThread.note, hpc] using hacq
      | write => simpa only [RwThread.pending, RwThread.note, hpc] using hacq
    | subMutex =>
      obtain ⟨-, rfl⟩ := Prod.mk.inj hacc
      have := hholds hpc
      simp only [RwThread.pending, RwThread.note, hpc] at hacq ⊢
      omega
    | storeReaders v =>
      obtain ⟨-, rfl⟩ := Prod.mk.inj hacc
      simp only [RwThread.pending, RwThread.note, hpc] at hacq ⊢
      omega
    | spin kind mutex | testReaders =>
      obtain ⟨-, rfl⟩ := Prod.mk.inj hacc
      split_ifs
      all_goals simpa only [RwThread.pending, RwThread.note, hpc] using hacq
    | testWriter kind =>
      obtain ⟨-, rfl⟩ := Prod.mk.inj hacc
      split_ifs
      · simpa only [RwThread.pending, RwThread.note, hpc] using hacq
      · cases kind <;> simpa only [RwThread.pending, RwThread.note, RwKind.noWriter, hpc] using hacq
    | _ =>
      obtain ⟨-, rfl⟩ := Prod.mk.inj hacc
      simpa only [RwThread.pending, RwThread.note, hpc] using hacq
  · exact ⟨hacq, hholds⟩

end

end PetLab.SyncProject
