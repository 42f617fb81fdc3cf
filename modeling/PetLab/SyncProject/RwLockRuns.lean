import PetLab.SyncProject.RwLockInv

/-!
# What the reader-writer lock guarantees

Two results for every interleaving. A writer excludes everybody else, always
(`rw_excludes`); but that rests on `num_readers` never going down, so that no writer comes
after the first reader. The counters and the mutex are right as long as nobody calls
`rw_read_unlock`, and wrong from the first call on (`rwRun_books`).
-/

namespace PetLab.SyncProject

open PetLab.Lib

/-- The counters say who holds the lock, and the mutex is the one of `rw_lock_init` and free. -/
structure Books {N : ℕ} (sl0 : BitVec 64) (c : RwSys N) : Prop where
  /-- `num_readers`. -/
  numReaders : c.shared.lock.numReaders = BitVec.ofNat 32 (∑ t, (c.thread t).reads)
  /-- `writer`. -/
  writer : c.shared.lock.writer = BitVec.ofNat 32 (∑ t, (c.thread t).writes)
  /-- `mutex`. -/
  mutex : c.shared.lock.mutex = sl0
  /-- The spinlock. -/
  free : (c.shared.mem sl0).free = 1

/-- A call of `rw_write_lock`, and one of `rw_read_lock`, can succeed. -/
def CanLock {N : ℕ} (sl0 : BitVec 64) (c : RwSys N) (t : Fin N) : Prop :=
  (∃ acts c', Exec (RwStep N sl0) c ((t, .writeLock) :: acts) c' ∧ Quiet c' ∧ (c'.thread t).writes = 1) ∧
  ∃ acts c', Exec (RwStep N sl0) c ((t, .readLock) :: acts) c' ∧ Quiet c' ∧ (c'.thread t).reads = 1

/-- What holds after every interleaving. -/
structure RwInv {N : ℕ} (sl0 : BitVec 64) (c : RwSys N) : Prop where
  /-- The threads. -/
  held : ∀ t, (c.thread t).Held
  /-- Before the first `rw_read_unlock`. -/
  clean : readUnlocks c = 0 → Clean sl0 c
  /-- With readers. -/
  dirty : 0 < acquisitions c → acquisitions c < 2 ^ 31 → Dirty c
  /-- What `rw_read_unlock` does to the pointer. -/
  low : c.shared.lock.mutex.setWidth 32 = sl0.setWidth 32 - BitVec.ofNat 32 (readUnlocks c)

section

variable {N : ℕ} {sl0 sl1 : BitVec 64} {mem : BitVec 64 → Spinlock} {c c' : RwSys N} {t u : Fin N}
  {acts : List (Fin N × RwAct)}

/-- `rw_read_unlock` is called by a reader only. -/
theorem RwInv.readUnlocks_le (h : RwInv sl0 c) : readUnlocks c ≤ acquisitions c :=
  Finset.sum_le_sum fun t _ => by
    have := (h.held t).acquired
    omega

theorem rwInv_start : RwInv sl0 (rwStart N sl0 sl1 mem) := by
  have hacq : acquisitions (rwStart N sl0 sl1 mem) = 0 := Finset.sum_eq_zero fun t _ => rfl
  have hrel : readUnlocks (rwStart N sl0 sl1 mem) = 0 := Finset.sum_eq_zero fun t _ => rfl
  have hclaims : ∑ t, ((rwStart N sl0 sl1 mem).thread t).claims = 0 := Finset.sum_eq_zero fun t _ => rfl
  have hfree : ((rwStart N sl0 sl1 mem).shared.mem sl0).free = 1 := by
    show (Function.update (Function.update mem sl0 spinlockInit) sl1 spinlockInit sl0).free = 1
    by_cases h : sl0 = sl1
    · rw [h, Function.update_self]
      rfl
    · rw [Function.update_of_ne h, Function.update_self]
      rfl
  refine ⟨fun t => ⟨rfl, nofun⟩, fun _ => ?_, fun h => by omega, ?_⟩
  · refine ⟨rfl, .inr hfree, ⟨fun t u ht => ht.elim, fun _ t ht => ht, fun _ => hfree⟩, fun t => trivial, ?_, ?_, ?_⟩
    · rw [hacq]
      rfl
    · rw [hclaims]
      rfl
    · rw [hclaims]
      exact Nat.zero_le _
  · rw [hrel]
    simp [rwStart, rwLockInit]

/-- The low half of the pointer after `atomic_sub`. -/
theorem setWidth_atomicSubPtr (ptr : BitVec 64) (decVal : BitVec 32) :
    (atomicSubPtr ptr decVal).setWidth 32 = ptr.setWidth 32 - decVal := by
  unfold atomicSubPtr atomicSub
  rw [BitVec.setWidth_append]
  simp

/-- Only `rw_read_unlock` changes the pointer. -/
theorem RwInv.low_step (h : RwInv sl0 c) {a : Fin N × RwAct} (hstep : RwStep N sl0 c a c') :
    c'.shared.lock.mutex.setWidth 32 = sl0.setWidth 32 - BitVec.ofNat 32 (readUnlocks c') := by
  obtain ⟨t, a⟩ := a
  obtain ⟨g, l, hf, rfl⟩ := Conc.step_iff.mp hstep
  have hrel := readUnlocks_update g c t l
  -- a step that leaves the pointer and the count alone
  have hquiet : g.lock.mutex = c.shared.lock.mutex → l.released = (c.thread t).released →
      g.lock.mutex.setWidth 32 = sl0.setWidth 32 -
        BitVec.ofNat 32 (readUnlocks ⟨g, Function.update c.thread t l⟩) := by
    intro hmutex hreleased
    rw [hreleased, Nat.add_right_cancel_iff] at hrel
    rw [hmutex, hrel, h.low]
  rcases rwStep_cases hf with ⟨pc, -, -, rfl, rfl, -⟩ | ⟨pc, pc', -, -, hacc, rfl⟩ | ⟨addr, word, -, -, rfl, rfl⟩
  · exact hquiet rfl rfl
  · cases pc with
    | subMutex =>
      obtain ⟨rfl, rfl⟩ := Prod.mk.inj hacc
      have hone : ((c.thread t).note .subMutex).released = (c.thread t).released + 1 := rfl
      rw [hone, ← Nat.add_assoc, Nat.add_right_comm, Nat.add_right_cancel_iff] at hrel
      show (atomicSubPtr c.shared.lock.mutex 1).setWidth 32 = _
      rw [setWidth_atomicSubPtr, h.low, hrel, BitVec.ofNat_add]
      exact BitVec.sub_sub _ _ _
    | unlock kind mutex =>
      obtain ⟨rfl, rfl⟩ := Prod.mk.inj hacc
      cases kind <;> exact hquiet rfl rfl
    | _ =>
      obtain ⟨rfl, rfl⟩ := Prod.mk.inj hacc
      exact hquiet rfl rfl
  · exact hquiet rfl rfl

/-- **One step** of one thread. -/
theorem RwInv.step (h : RwInv sl0 c) {a : Fin N × RwAct} (hstep : RwStep N sl0 c a c') : RwInv sl0 c' := by
  obtain ⟨hacq, hrel⟩ := rwStep_mono hstep
  have hle := h.readUnlocks_le
  refine ⟨fun u => ?_, fun hzero => ?_, fun hpos hlt => ?_, h.low_step hstep⟩
  · obtain ⟨t, a⟩ := a
    obtain ⟨hf, hother⟩ := hstep.spec
    by_cases hu : u = t
    · rw [hu]
      exact (h.held t).step hf
    · rw [hother u hu]
      exact h.held u
  · exact (h.clean (by omega)).step hstep (by omega)
  · by_cases hfirst : acquisitions c = 0
    · exact (h.clean (by omega)).firstReader hfirst hstep hpos
    · exact (h.dirty (by omega) (by omega)).step hstep hlt

theorem rwInv_run (hrun : Exec (RwStep N sl0) (rwStart N sl0 sl1 mem) acts c) : RwInv sl0 c :=
  hrun.inv rwInv_start fun _ _ _ h hstep => h.step hstep

/-! ### The books -/

/-- With a good mutex and no call going on, the books are right. -/
theorem RwInv.books (h : RwInv sl0 c) (hrel : readUnlocks c = 0) (hquiet : Quiet c) : Books sl0 c := by
  have hc := h.clean hrel
  have hreleased : ∀ t, (c.thread t).released = 0 := fun t => Finset.sum_eq_zero_iff.mp hrel t (Finset.mem_univ t)
  have hreads : acquisitions c = ∑ t, (c.thread t).reads := by
    refine Finset.sum_congr rfl fun t _ => ?_
    rw [(h.held t).acquired, hreleased t]
    simp [RwThread.pending, hquiet t]
  have hwrites : ∑ t, (c.thread t).claims = ∑ t, (c.thread t).writes :=
    Finset.sum_congr rfl fun t _ => by simp [RwThread.claims, hquiet t]
  refine ⟨by rw [hc.numReaders, hreads], by rw [hc.writer, hwrites], hc.mutex, hc.locked.free_iff.mpr fun t => ?_⟩
  simp [RwThread.InSection, hquiet t]

/-- After some but fewer than `2 ^ 32` calls of `rw_read_unlock`, the pointer is wrong. -/
theorem RwInv.mutex_ne (h : RwInv sl0 c) (hpos : 0 < readUnlocks c) (hlt : readUnlocks c < 2 ^ 32) :
    c.shared.lock.mutex ≠ sl0 := by
  intro he
  have hlow := h.low
  rw [he] at hlow
  generalize sl0.setWidth 32 = p at hlow
  bv_omega

/-- The steps of a thread alone. -/
abbrev Solo (sl0 : BitVec 64) (p : RwShared × RwThread) (a : RwAct) (p' : RwShared × RwThread) : Prop :=
  RwShared.step sl0 a p.1 p.2 = some p'

/-- The call that takes a lock. -/
def RwKind.call : RwKind → RwAct
  | .read => .readLock
  | .write => .writeLock

/-- A thread alone takes the mutex. -/
theorem solo_enter (kind : RwKind) {g : RwShared} {l : RwThread} (hpc : l.pc = none) (hmutex : g.lock.mutex = sl0)
    (hfree : (g.mem sl0).free = 1) :
    Exec (Solo sl0) (g, l) [kind.call, .run, .run]
      ({ g with mem := Function.update g.mem sl0 ⟨0⟩ }, { l with pc := some (.testWriter kind) }) := by
  refine exec_cons_iff.mpr ⟨(g, { l with pc := some (.loadLock kind) }), ?_, ?_⟩
  · cases kind <;> simp [Solo, RwKind.call, RwShared.step, hpc]
  refine exec_cons_iff.mpr ⟨(g, { l with pc := some (.spin kind sl0) }), ?_, .single ?_⟩
  · simp [Solo, RwShared.step, RwShared.access, RwThread.note, hmutex]
  · simp [Solo, RwShared.step, RwShared.access, RwThread.note, spinlockLock_of_one hfree]

/-- A thread alone frees the mutex and returns. -/
theorem solo_leave {kind : RwKind} {g : RwShared} {l : RwThread} (hpc : l.pc = some (.loadUnlock kind))
    (hmutex : g.lock.mutex = sl0) :
    ∃ r, Exec (Solo sl0) (g, l) [.run, .run] r ∧ r.2 = { l.note (.unlock kind sl0) with pc := none } := by
  refine ⟨_, exec_cons_iff.mpr ⟨(g, { l with pc := some (.unlock kind sl0) }), ?_, .single rfl⟩, ?_⟩
  · simp [Solo, RwShared.step, RwShared.access, RwThread.note, hpc, hmutex]
  · cases kind <;> rfl

/-- A call of `rw_write_lock` by a thread alone, when nobody holds the lock. -/
theorem solo_writeLock {g : RwShared} {l : RwThread} (hpc : l.pc = none) (hreaders : g.lock.numReaders = 0)
    (hwriter : g.lock.writer = 0) (hmutex : g.lock.mutex = sl0) (hfree : (g.mem sl0).free = 1) :
    ∃ as r, Exec (Solo sl0) (g, l) (.writeLock :: as) r ∧ r.2.pc = none ∧ r.2.writes = l.writes + 1 := by
  have henter := solo_enter .write hpc hmutex hfree
  set g₁ : RwShared := { g with mem := Function.update g.mem sl0 ⟨0⟩ }
  have hbody : Exec (Solo sl0) (g₁, { l with pc := some (.testWriter .write) }) [.run, .run, .run]
      ({ g₁ with lock := { g.lock with writer := 1 } }, { l with pc := some (.loadUnlock .write) }) := by
    refine exec_cons_iff.mpr ⟨(g₁, { l with pc := some .testReaders }), ?_, exec_cons_iff.mpr
      ⟨(g₁, { l with pc := some .storeWriter }), ?_, .single rfl⟩⟩
    · simp [Solo, RwShared.step, RwShared.access, RwThread.note, RwKind.noWriter, g₁, hwriter]
    · simp [Solo, RwShared.step, RwShared.access, RwThread.note, g₁, hreaders]
  obtain ⟨r, hleave, hr⟩ := solo_leave (g := { g₁ with lock := { g.lock with writer := 1 } })
    (l := { l with pc := some (.loadUnlock .write) }) rfl hmutex
  refine ⟨_, r, exec_append.mpr ⟨_, exec_append.mpr ⟨_, henter, hbody⟩, hleave⟩, ?_, ?_⟩
  · rw [hr]
  · rw [hr]
    rfl

/-- A call of `rw_read_lock` by a thread alone, when there is no writer. -/
theorem solo_readLock {g : RwShared} {l : RwThread} (hpc : l.pc = none) (hwriter : g.lock.writer = 0)
    (hmutex : g.lock.mutex = sl0) (hfree : (g.mem sl0).free = 1) :
    ∃ as r, Exec (Solo sl0) (g, l) (.readLock :: as) r ∧ r.2.pc = none ∧ r.2.reads = l.reads + 1 := by
  have henter := solo_enter .read hpc hmutex hfree
  set g₁ : RwShared := { g with mem := Function.update g.mem sl0 ⟨0⟩ }
  have hbody : Exec (Solo sl0) (g₁, { l with pc := some (.testWriter .read) }) [.run, .run, .run]
      ({ g₁ with lock := { g.lock with numReaders := g.lock.numReaders + 1 } },
        { l with acquired := l.acquired + 1, pc := some (.loadUnlock .read) }) := by
    refine exec_cons_iff.mpr ⟨(g₁, { l with pc := some .loadReaders }), ?_, exec_cons_iff.mpr
      ⟨(g₁, { l with pc := some (.storeReaders g.lock.numReaders) }), rfl, .single rfl⟩⟩
    simp [Solo, RwShared.step, RwShared.access, RwThread.note, RwKind.noWriter, g₁, hwriter]
  obtain ⟨r, hleave, hr⟩ := solo_leave
    (g := { g₁ with lock := { g.lock with numReaders := g.lock.numReaders + 1 } })
    (l := { l with acquired := l.acquired + 1, pc := some (.loadUnlock .read) }) rfl hmutex
  refine ⟨_, r, exec_append.mpr ⟨_, exec_append.mpr ⟨_, henter, hbody⟩, hleave⟩, ?_, ?_⟩
  · rw [hr]
  · rw [hr]
    rfl

/-- What a thread can do alone, the system can do. -/
theorem exec_of_solo (hquiet : Quiet c) {as : List RwAct} {r : RwShared × RwThread}
    (h : Exec (Solo sl0) (c.shared, c.thread t) as r) (hpc : r.2.pc = none) :
    ∃ c', Exec (RwStep N sl0) c (as.map fun a => (t, a)) c' ∧ Quiet c' ∧ c'.thread t = r.2 := by
  refine ⟨_, Conc.exec_solo (f := fun _ => RwShared.step sl0) h, fun u => ?_, Function.update_self ..⟩
  show (Function.update c.thread t r.2 u).pc = none
  by_cases hu : u = t
  · rw [hu, Function.update_self]
    exact hpc
  · rw [Function.update_of_ne hu]
    exact hquiet u

/-- When the books are right and nobody holds the lock, it can be taken. -/
theorem Books.canLock (h : Books sl0 c) (hquiet : Quiet c)
    (hfree : ∀ u, (c.thread u).reads = 0 ∧ (c.thread u).writes = 0) (t : Fin N) : CanLock sl0 c t := by
  have hreaders : c.shared.lock.numReaders = 0 := by
    rw [h.numReaders, Finset.sum_eq_zero fun u _ => (hfree u).1]
    rfl
  have hwriter : c.shared.lock.writer = 0 := by
    rw [h.writer, Finset.sum_eq_zero fun u _ => (hfree u).2]
    rfl
  constructor
  · obtain ⟨as, r, hr, hpc, hwrites⟩ := solo_writeLock (hquiet t) hreaders hwriter h.mutex h.free
    obtain ⟨c', hexec, hquiet', hself⟩ := exec_of_solo hquiet hr hpc
    exact ⟨_, c', hexec, hquiet', by rw [hself, hwrites, (hfree t).2]⟩
  · obtain ⟨as, r, hr, hpc, hreads⟩ := solo_readLock (hquiet t) hwriter h.mutex h.free
    obtain ⟨c', hexec, hquiet', hself⟩ := exec_of_solo hquiet hr hpc
    exact ⟨_, c', hexec, hquiet', by rw [hself, hreads, (hfree t).1]⟩

/-- Without a call of `rw_read_unlock`, none is made. -/
theorem readUnlocks_of_guard
    (hrun : Exec (Guard (fun _ a => a.2 ≠ .readUnlock) (RwStep N sl0)) (rwStart N sl0 sl1 mem) acts c) :
    readUnlocks c = 0 := by
  have hinv : ∀ t, (c.thread t).released = 0 ∧ (c.thread t).pc ≠ some .subMutex := by
    refine hrun.inv (I := fun c => ∀ t, (c.thread t).released = 0 ∧ (c.thread t).pc ≠ some .subMutex)
      (fun t => ⟨rfl, nofun⟩) ?_
    rintro c ⟨t, a⟩ c' hI ⟨hne, hstep⟩ u
    obtain ⟨hf, hother⟩ := hstep.spec
    by_cases hu : u = t
    · subst hu
      obtain ⟨hrel, hpc₀⟩ := hI u
      rcases rwStep_cases hf with ⟨pc, ha, -, -, hl, -⟩ | ⟨pc, pc', -, hpc, hacc, hl⟩ | ⟨addr, word, -, -, -, hl⟩
      · rw [hl]
        exact ⟨hrel, fun he => hne (ha.mpr (Option.some.inj he))⟩
      · rw [hl]
        refine ⟨?_, access_ne_subMutex hacc⟩
        exact ((c.thread u).released_note fun he => hpc₀ (by rw [hpc, he])).trans hrel
      · rw [hl]
        exact ⟨hrel, hpc₀⟩
    · rw [hother u hu]
      exact hI u
  exact Finset.sum_eq_zero fun t _ => (hinv t).1

end

/-- **Bookkeeping**, in every run in which no thread calls `rw_read_unlock`: whenever no
thread is in one of the functions, the counters say who holds the lock, the mutex is good
and free, and if nobody holds the lock, any thread can take it. From the first call of
`rw_read_unlock` on, the books are wrong, until the pointer has come round. -/
theorem rwRun_books (N : ℕ) (sl0 sl1 : BitVec 64) (mem : BitVec 64 → Spinlock) :
    (∀ acts c, Exec (Guard (fun _ a => a.2 ≠ .readUnlock) (RwStep N sl0)) (rwStart N sl0 sl1 mem) acts c → Quiet c →
      Books sl0 c ∧ ((∀ t, (c.thread t).reads = 0 ∧ (c.thread t).writes = 0) → ∀ t, CanLock sl0 c t)) ∧
    ∀ acts c, Exec (RwStep N sl0) (rwStart N sl0 sl1 mem) acts c → Quiet c →
      0 < readUnlocks c → readUnlocks c < 2 ^ 32 → ¬ Books sl0 c := by
  constructor
  · intro acts c hrun hquiet
    have hinv := rwInv_run (hrun.mono fun _ _ _ h => h.2)
    have hbooks := hinv.books (readUnlocks_of_guard hrun) hquiet
    exact ⟨hbooks, hbooks.canLock hquiet⟩
  · intro acts c hrun hquiet hpos hlt hbooks
    exact (rwInv_run hrun).mutex_ne hpos hlt hbooks.mutex

/-- One thread takes the read lock and unlocks it: nobody holds the lock any more, and the
books are wrong. -/
theorem rw_read_unlock_breaks_books : ∃ acts c,
    Exec (RwStep 2 4096) (rwStart 2 4096 8192 fun _ => ⟨7⟩) acts c ∧ Quiet c ∧
    (∀ t, (c.thread t).reads = 0 ∧ (c.thread t).writes = 0) ∧ c.shared.lock.numReaders = 1 ∧
    c.shared.lock.mutex = 4095 ∧ ¬ Books 4096 c := by
  let acts : List (Fin 2 × RwAct) :=
    (0, RwAct.readLock) :: List.replicate 7 (0, RwAct.run) ++ [(0, RwAct.readUnlock), (0, RwAct.run)]
  have hrun : (Conc.run (fun _ => RwShared.step 4096) (rwStart 2 4096 8192 fun _ => ⟨7⟩) acts).map
      (fun c => (c.thread 0, c.thread 1, c.shared.lock)) =
        some (⟨none, 0, 0, 1, 1⟩, ⟨none, 0, 0, 0, 0⟩, ⟨1, 0, 8192, 4095⟩) := by
    decide +kernel
  obtain ⟨c, hc, he⟩ := Option.map_eq_some_iff.mp hrun
  simp only [Prod.mk.injEq] at he
  obtain ⟨h₀, h₁, hlock⟩ := he
  have hthread : ∀ t, (c.thread t).pc = none ∧ (c.thread t).reads = 0 ∧ (c.thread t).writes = 0 := by
    intro t
    match t with
    | 0 => simp [h₀]
    | 1 => simp [h₁]
  have hmutex : c.shared.lock.mutex = 4095 := by rw [hlock]
  refine ⟨acts, c, Conc.exec_of_run hc, fun t => (hthread t).1, fun t => (hthread t).2, by rw [hlock], hmutex, ?_⟩
  intro hbooks
  exact absurd (hmutex.symm.trans hbooks.mutex) (by decide)

/-- **Exclusion**: as long as `num_readers` was incremented fewer than `2 ^ 31` times, a
thread that holds the write lock is alone. -/
theorem rw_excludes {N : ℕ} {sl0 sl1 : BitVec 64} {mem : BitVec 64 → Spinlock} {acts : List (Fin N × RwAct)}
    {c : RwSys N} (hrun : Exec (RwStep N sl0) (rwStart N sl0 sl1 mem) acts c) (hlt : acquisitions c < 2 ^ 31)
    {t u : Fin N} (hne : t ≠ u) (hwrites : 0 < (c.thread t).writes) :
    (c.thread u).reads = 0 ∧ (c.thread u).writes = 0 := by
  have h := rwInv_run hrun
  have hle : ∀ v, (c.thread v).writes ≤ (c.thread v).claims := by
    intro v
    unfold RwThread.claims
    split <;> omega
  by_cases hacq : acquisitions c = 0
  · -- no reader has come so far: the mutex is good
    have hrel : readUnlocks c = 0 := by
      have := h.readUnlocks_le
      omega
    have hone := (h.clean hrel).one
    have hzero : (c.thread u).acquired = 0 := Finset.sum_eq_zero_iff.mp hacq u (Finset.mem_univ u)
    have hheld := (h.held u).acquired
    have hpair : (c.thread t).claims + (c.thread u).claims ≤ ∑ v, (c.thread v).claims := by
      rw [← Finset.sum_pair (f := fun v => (c.thread v).claims) hne]
      exact Finset.sum_le_sum_of_subset (Finset.subset_univ _)
    have ht := hle t
    have hu := hle u
    omega
  · -- a reader has come: there is no writer
    have hnone := ((h.dirty (by omega) hlt).noWriter t).1
    have ht := hle t
    omega

/-- Two threads: the first holds the write lock, and the second waits in `rw_read_lock`. -/
theorem rw_excludes_two : ∃ acts c, Exec (RwStep 2 4096) (rwStart 2 4096 8192 fun _ => ⟨7⟩) acts c ∧
    (c.thread 0).writes = 1 ∧ (c.thread 1).pc = some (.testWriter .read) ∧ acquisitions c < 2 ^ 31 ∧
    (c.thread 1).reads = 0 ∧ (c.thread 1).writes = 0 := by
  let acts : List (Fin 2 × RwAct) :=
    (0, RwAct.writeLock) :: List.replicate 7 (0, RwAct.run) ++ (1, RwAct.readLock) :: List.replicate 5 (1, RwAct.run)
  have hrun : (Conc.run (fun _ => RwShared.step 4096) (rwStart 2 4096 8192 fun _ => ⟨7⟩) acts).map
      (fun c => ((c.thread 0).writes, (c.thread 1).pc, decide (acquisitions c < 2 ^ 31))) =
        some (1, some (.testWriter .read), true) := by
    decide +kernel
  obtain ⟨c, hc, he⟩ := Option.map_eq_some_iff.mp hrun
  simp only [Prod.mk.injEq, decide_eq_true_eq] at he
  obtain ⟨h₀, h₁, hlt⟩ := he
  have hexec := Conc.exec_of_run hc
  exact ⟨acts, c, hexec, h₀, h₁, hlt, rw_excludes hexec hlt (by decide : (0 : Fin 2) ≠ 1) (by rw [h₀]; decide)⟩

end PetLab.SyncProject
