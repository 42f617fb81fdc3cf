import PetLab.Lib.Run
import PetLab.Threads.PetThread
import Mathlib.Data.List.Nodup
import Mathlib.Order.Nat

/-!
# The scheduler invariant

What holds of the queues, the states and the waiting lists whenever user code runs, in
every run of the library in which `main` does not join or exit.

A call changes the state of the caller in one place and its queue in another:
`pet_thread_join` marks it `BLOCKED` and `__quarantine` marks it `STOPPED`, and
`__thread_invoker` puts it where that belongs. So the invariant is stated for any state
of the running thread (`Core st`), the first half of a call leads from `Core .running`
to `Core st`, and the switch leads back (`Core.threadInvoker`).
-/

namespace PetLab.Threads

open PetLab.Lib

/-! ### Reading the state -/

/-- The state of a thread. -/
def Sched.state (s : Sched) (t : ℕ) : RunState := (s.thread t).state

/-- The threads waiting for a thread. -/
def Sched.waiting (s : Sched) (t : ℕ) : List ℕ := (s.thread t).waitingForMe

/-- The thread has exited. -/
def Exited (s : Sched) (t : ℕ) : Prop := ∃ retVal, .exited t retVal ∈ s.trace

/-- The event is an exit of the thread. -/
def Event.isExitOf (t : ℕ) : Event → Bool
  | .exited u _ => u = t
  | _ => false

instance (s : Sched) (t : ℕ) : Decidable (Exited s t) :=
  decidable_of_iff (∃ e ∈ s.trace, e.isExitOf t = true) <| by
    constructor
    · rintro ⟨e, he, hex⟩
      cases e with
      | exited u v =>
        obtain rfl : u = t := by simpa [Event.isExitOf] using hex
        exact ⟨v, he⟩
      | joined _ _ _ => cases hex
      | runReturned _ => cases hex
    · rintro ⟨v, hv⟩
      exact ⟨_, hv, by simp [Event.isExitOf]⟩

/-- A created thread that has not exited. -/
structure Live (s : Sched) (t : ℕ) : Prop where
  /-- It is not the master thread. -/
  pos : 0 < t
  /-- It was created. -/
  created : t < s.threadIdCount
  /-- It has not exited. -/
  unexited : ¬ Exited s t

theorem live_iff {s : Sched} {t : ℕ} : Live s t ↔ 0 < t ∧ t < s.threadIdCount ∧ ¬ Exited s t :=
  ⟨fun h => ⟨h.pos, h.created, h.unexited⟩, fun h => ⟨h.1, h.2.1, h.2.2⟩⟩

/-- Which threads have exited is read off the trace, -/
theorem exited_congr {s s' : Sched} (htrace : s'.trace = s.trace) (t : ℕ) : Exited s' t ↔ Exited s t := by
  simp only [Exited, htrace]

/-- and so is which ones are live, when no thread is created. -/
theorem live_congr {s s' : Sched} (hcount : s'.threadIdCount = s.threadIdCount) (htrace : s'.trace = s.trace) (t : ℕ) :
    Live s' t ↔ Live s t := by
  simp only [live_iff, hcount, exited_congr htrace]

instance (s : Sched) (t : ℕ) : Decidable (Live s t) := decidable_of_iff _ live_iff.symm

section Simp

variable (s : Sched) (t x : ℕ) (st : RunState) (k : Cont) (e : Event)

@[simp] theorem state_modify (f : PetThread → PetThread) :
    (s.modify t f).state x = if x = t then (f (s.thread t)).state else s.state x := by
  unfold Sched.state Sched.modify
  by_cases h : x = t
  · simp [h]
  · simp [h]

@[simp] theorem waiting_modify (f : PetThread → PetThread) :
    (s.modify t f).waiting x = if x = t then (f (s.thread t)).waitingForMe else s.waiting x := by
  unfold Sched.waiting Sched.modify
  by_cases h : x = t
  · simp [h]
  · simp [h]

@[simp] theorem returnReciever_modify (f : PetThread → PetThread) :
    ((s.modify t f).thread x).returnReciever =
      if x = t then (f (s.thread t)).returnReciever else (s.thread x).returnReciever := by
  unfold Sched.modify
  by_cases h : x = t
  · simp [h]
  · simp [h]

@[simp] theorem state_setState : (s.setState t st).state x = if x = t then st else s.state x :=
  state_modify s t x _

@[simp] theorem waiting_setState : (s.setState t st).waiting x = s.waiting x := by
  rw [Sched.setState, waiting_modify]
  split_ifs with h
  · rw [h]
    rfl
  · rfl

@[simp] theorem returnReciever_setState :
    ((s.setState t st).thread x).returnReciever = (s.thread x).returnReciever := by
  rw [Sched.setState, returnReciever_modify]
  split_ifs with h
  · rw [h]
  · rfl

@[simp] theorem state_suspend : (s.suspend k).state x = s.state x := rfl

@[simp] theorem state_note : (s.note e).state x = s.state x := rfl

@[simp] theorem waiting_note : (s.note e).waiting x = s.waiting x := rfl

end Simp

/-! ### The invariant -/

/-- What holds between the two halves of a call, when the running thread has state
`st`; `Core .running` holds when user code runs. -/
structure Core (st : RunState) (s : Sched) : Prop where
  /-- The first thread gets id `1`. -/
  count : 0 < s.threadIdCount
  /-- The state of the running thread. -/
  runState : s.state s.running = st
  /-- The running thread is the master thread or is live, unless it has just exited. -/
  runLive : st ≠ .stopped → s.running ≠ 0 → Live s s.running
  /-- ... and then it has. -/
  runExited : st = .stopped → Exited s s.running
  /-- The ready list holds live threads that are ready. -/
  ready : ∀ t ∈ s.readyList, Live s t ∧ t ≠ s.running ∧ s.state t = .ready
  /-- The blocked list holds live threads that are blocked. -/
  blocked : ∀ t ∈ s.blockedList, Live s t ∧ t ≠ s.running ∧ s.state t = .blocked
  /-- Each of them once. -/
  readyNodup : s.readyList.Nodup
  /-- Each of them once. -/
  blockedNodup : s.blockedList.Nodup
  /-- Every other live thread is in one of the lists. -/
  listed : ∀ t, Live s t → t ≠ s.running → t ∈ s.readyList ∨ t ∈ s.blockedList
  /-- The master thread is ready when it is not running. -/
  master : s.running ≠ 0 → s.state 0 = .ready
  /-- The threads waiting for a live thread are live and blocked. -/
  waiters : ∀ t x, Live s t → x ∈ s.waiting t → Live s x ∧ s.state x = .blocked
  /-- A thread waits for one thread only. -/
  waitsOnce : ∀ t u x, Live s t → Live s u → x ∈ s.waiting t → x ∈ s.waiting u → t = u
  /-- And is in its waiting list once. -/
  waitingNodup : ∀ t, Live s t → (s.waiting t).Nodup
  /-- A thread that has exited was created, and is stopped. -/
  exited : ∀ t, Exited s t → 0 < t ∧ t < s.threadIdCount ∧ s.state t = .stopped
  /-- `stopped` is a thread that has exited. -/
  last : ∀ t, s.stopped = some t → Exited s t

/-- A thread that has exited stays as it is, when no thread is created and the stopped threads stay stopped. -/
theorem Core.exited_kept {st : RunState} {s s' : Sched} (h : Core st s) (hcount : s'.threadIdCount = s.threadIdCount)
    (htrace : s'.trace = s.trace) (hstopped : ∀ x, s.state x = .stopped → s'.state x = .stopped) (t : ℕ)
    (ht : Exited s' t) : 0 < t ∧ t < s'.threadIdCount ∧ s'.state t = .stopped := by
  obtain ⟨h₁, h₂, h₃⟩ := h.exited t ((exited_congr htrace t).mp ht)
  exact ⟨h₁, hcount ▸ h₂, hstopped t h₃⟩

theorem exited_note {s : Sched} {e : Event} {t : ℕ} :
    Exited (s.note e) t ↔ Exited s t ∨ ∃ retVal, e = .exited t retVal := by
  simp only [Exited, Sched.note, List.mem_append, List.mem_singleton, exists_or]
  constructor
  · rintro (h | ⟨v, h⟩)
    · exact .inl h
    · exact .inr ⟨v, h.symm⟩
  · rintro (h | ⟨v, h⟩)
    · exact .inl h
    · exact .inr ⟨v, h.symm⟩

/-- The invariant does not depend on where the threads are, what was freed, what was
returned, and which calls returned. -/
theorem Core.congr {st : RunState} {s s' : Sched} (h : Core st s) (hcount : s'.threadIdCount = s.threadIdCount)
    (hstate : ∀ t, s'.state t = s.state t) (hwaiting : ∀ t, s'.waiting t = s.waiting t)
    (hready : s'.readyList = s.readyList) (hblocked : s'.blockedList = s.blockedList)
    (hrunning : s'.running = s.running) (hstopped : s'.stopped = s.stopped)
    (hexited : ∀ t, Exited s' t ↔ Exited s t) : Core st s' := by
  have hlive : ∀ t, Live s' t ↔ Live s t := fun t => by simp only [live_iff, hcount, hexited]
  obtain ⟨h₁, h₂, h₃, h₄, h₅, h₆, h₇, h₈, h₉, h₁₀, h₁₁, h₁₂, h₁₃, h₁₄, h₁₅⟩ := h
  constructor
  all_goals
    simp only [hcount, hstate, hwaiting, hready, hblocked, hrunning, hstopped, hexited, hlive]
    assumption

theorem Core.suspend {st : RunState} {s : Sched} (h : Core st s) (k : Cont) : Core st (s.suspend k) :=
  h.congr rfl (fun _ => rfl) (fun _ => rfl) rfl rfl rfl rfl fun _ => Iff.rfl

theorem core_petThreadInit : Core .running petThreadInit := by
  have hlive : ∀ t, ¬ Live petThreadInit t := by
    rintro t ⟨h₁, h₂, -⟩
    simp only [petThreadInit] at h₂
    omega
  have hexited : ∀ t, ¬ Exited petThreadInit t := by simp [Exited, petThreadInit]
  constructor
  case count => exact Nat.one_pos
  case runState => rfl
  case ready => simp [petThreadInit]
  case blocked => simp [petThreadInit]
  case readyNodup => simp [petThreadInit]
  case blockedNodup => simp [petThreadInit]
  case last => simp [petThreadInit]
  case master => exact fun h => absurd rfl h
  case runLive => exact fun _ h => absurd rfl h
  all_goals simp [hlive, hexited]

/-! ### Switching -/

/-- What a switch to `t` does when the running thread has state `st`. -/
structure Switched (st : RunState) (s : Sched) (t : ℕ) (s' : Sched) : Prop where
  /-- `t` runs. -/
  running : s'.running = t
  /-- It leaves the ready list; the thread that ran joins it at the end if it still can run. -/
  readyList : s'.readyList = s.readyList.erase t ++ if st = .running ∧ s.running ≠ 0 then [s.running] else []
  /-- A blocked thread joins the blocked list. -/
  blockedList : s'.blockedList = s.blockedList ++ if st = .blocked then [s.running] else []
  /-- A thread that exited becomes the last one that did. -/
  stopped : s'.stopped = if st = .stopped then some s.running else s.stopped
  /-- The two states change. -/
  state : ∀ x, s'.state x =
    if x = t then .running else if x = s.running then (if st = .running then .ready else st) else s.state x
  /-- The waiting lists stay. -/
  waiting : ∀ x, s'.waiting x = s.waiting x
  /-- What was returned stays. -/
  returnReciever : ∀ x, (s'.thread x).returnReciever = (s.thread x).returnReciever
  /-- Nothing is created. -/
  count : s'.threadIdCount = s.threadIdCount
  /-- Every thread is where it was. -/
  cont : s'.cont = s.cont
  /-- Nothing is observed. -/
  trace : s'.trace = s.trace

/-- The threads `get_thread` finds. -/
theorem getThread_eq (s : Sched) (threadId : ℕ) :
    s.getThread threadId =
      if threadId = 0 ∨ s.running = threadId ∨ s.stopped = some threadId ∨ threadId ∈ s.readyList ∨
        threadId ∈ s.blockedList then some threadId else none := by
  unfold Sched.getThread masterId
  split_ifs <;> simp_all

/-- `pet_thread_cleanup` only frees. -/
theorem petThreadCleanup_eq {s : Sched} {prevId : ℕ} (h : s.getThread prevId = some prevId) :
    ∃ freed, s.petThreadCleanup prevId = some { s with freed := freed } := by
  unfold Sched.petThreadCleanup
  rw [h, Option.map_some]
  split_ifs
  · exact ⟨_, rfl⟩
  · exact ⟨s.freed, rfl⟩

/-- A thread that can be switched to: the master thread, or a ready one. -/
def Target (s : Sched) (t : ℕ) : Prop := (t = 0 ∧ s.running ≠ 0) ∨ t ∈ s.readyList

section Switch

variable {st : RunState} {s s' : Sched} {t : ℕ}

theorem Core.state_target (h : Core st s) (ht : Target s t) : s.state t = .ready := by
  rcases ht with ⟨rfl, hr⟩ | ht
  · exact h.master hr
  · exact (h.ready t ht).2.2

theorem Core.target_ne (h : Core st s) (ht : Target s t) : t ≠ s.running := by
  rcases ht with ⟨rfl, hr⟩ | ht
  · exact hr.symm
  · exact (h.ready t ht).2.1

theorem Core.master_notMem (h : Core st s) : 0 ∉ s.readyList := fun h₀ => absurd (h.ready 0 h₀).1.pos (by decide)

/-- A thread that cannot run goes to the blocked list, or becomes the last one that exited. -/
theorem switched_of_ne_running (hst : st ≠ .running) (hrun : s.state s.running = st) :
    Switched st s t
      (({ s with readyList := s.readyList.erase t, running := t,
                 blockedList := s.blockedList ++ if st = .blocked then [s.running] else [],
                 stopped := if st = .stopped then some s.running else s.stopped } : Sched).setState t .running) := by
  refine ⟨rfl, ?_, rfl, rfl, fun x => ?_, fun x => ?_, fun x => ?_, rfl, rfl, rfl⟩
  · simp [Sched.setState, Sched.modify, hst]
  · rw [state_setState, if_neg hst]
    congr 1
    show s.state x = _
    by_cases ho : x = s.running
    · rw [if_pos ho, ho, hrun]
    · rw [if_neg ho]
  · simp only [waiting_setState]
    rfl
  · simp only [returnReciever_setState]

/-- The thread left goes to the queue its state belongs to. -/
theorem putOld_switched (hst : st ≠ .ready) (hrun : s.state s.running = st) :
    Switched st s t
      ((({ s with readyList := s.readyList.erase t, running := t } : Sched).putOld s.running).setState t .running) := by
  have hrun' : (s.thread s.running).state = st := hrun
  cases st with
  | ready => exact absurd rfl hst
  | running =>
    have hput : ({ s with readyList := s.readyList.erase t, running := t } : Sched).putOld s.running =
        ({ s with readyList := s.readyList.erase t ++ if s.running ≠ 0 then [s.running] else [], running := t }
          : Sched).setState s.running .ready := by
      unfold Sched.putOld masterId
      simp only [hrun']
      split_ifs <;> simp
    rw [hput]
    refine ⟨rfl, by simp [Sched.setState, Sched.modify], by simp [Sched.setState, Sched.modify],
      by simp [Sched.setState, Sched.modify], fun x => ?_, fun x => ?_, fun x => ?_, rfl, rfl, rfl⟩
    · simp only [state_setState, if_true]
      rfl
    · simp only [waiting_setState]
      rfl
    · simp only [returnReciever_setState]
  | blocked => simpa [Sched.putOld, hrun'] using switched_of_ne_running (by decide) hrun
  | stopped => simpa [Sched.putOld, hrun'] using switched_of_ne_running (by decide) hrun

/-- The thread left is found again. -/
theorem Switched.getThread (h : Switched st s t s') (hst : st ≠ .ready) : s'.getThread s.running = some s.running := by
  rw [getThread_eq, if_pos]
  by_cases h₀ : s.running = 0
  · exact .inl h₀
  · cases st with
    | ready => exact absurd rfl hst
    | running => exact .inr (.inr (.inr (.inl (by rw [h.readyList]; simp [h₀]))))
    | blocked => exact .inr (.inr (.inr (.inr (by rw [h.blockedList]; simp))))
    | stopped => exact .inr (.inr (.inl (by rw [h.stopped, if_pos rfl])))

/-- A switch to a thread that can be switched to goes through. -/
theorem Core.threadInvoker (h : Core st s) (hst : st ≠ .ready) (ht : Target s t) :
    ∃ s', s.threadInvoker t = some s' ∧ Switched st s t s' := by
  have hrun : (s.thread s.running).state = st := h.runState
  have hready : (s.thread t).state = .ready := h.state_target ht
  have hdel : (if t ≠ masterId then s.listDel t else some s) =
      some { s with readyList := s.readyList.erase t } := by
    unfold masterId
    split_ifs with h₀
    · have hmem : t ∈ s.readyList := ht.resolve_left fun h => h₀ h.1
      rw [Sched.listDel, if_pos hmem]
    · obtain rfl : t = 0 := not_not.mp h₀
      rw [List.erase_of_not_mem h.master_notMem]
  have hsw := putOld_switched (t := t) hst h.runState
  obtain ⟨freed, hfreed⟩ := petThreadCleanup_eq (hsw.getThread hst)
  rw [Sched.threadInvoker, if_neg (by rw [hready, hrun]; simpa using hst), hdel, Option.bind_some]
  exact ⟨_, hfreed, hsw.running, hsw.readyList, hsw.blockedList, hsw.stopped, hsw.state, hsw.waiting,
    hsw.returnReciever, hsw.count, hsw.cont, hsw.trace⟩

/-- The state of a thread that is neither ready nor running stays. -/
theorem Switched.state_kept (hs : Switched st s t s') (h : Core st s) (ht : Target s t) {x : ℕ} {st' : RunState}
    (hx : s.state x = st') (hready : st' ≠ .ready) (hrunning : st' ≠ .running) : x ≠ t ∧ s'.state x = st' := by
  have hxt : x ≠ t := by
    rintro rfl
    exact hready (hx.symm.trans (h.state_target ht))
  refine ⟨hxt, ?_⟩
  rw [hs.state, if_neg hxt]
  by_cases ho : x = s.running
  · have hst : st = st' := h.runState.symm.trans (ho ▸ hx)
    rw [if_pos ho, hst, if_neg hrunning]
  · rw [if_neg ho, hx]

/-- The switch restores the invariant. -/
theorem Switched.core (hs : Switched st s t s') (h : Core st s) (hst : st ≠ .ready) (ht : Target s t)
    (hmaster : s.running = 0 → st = .running) : Core .running s' := by
  have hexited := exited_congr hs.trace
  have hlive := live_congr hs.count hs.trace
  have hne := h.target_ne ht
  have hold : st = .running → s.running ≠ 0 → Live s s.running := fun h₁ h₀ => h.runLive (by rw [h₁]; decide) h₀
  have holdState : s'.state s.running = if st = .running then .ready else st := by
    rw [hs.state, if_neg hne.symm, if_pos rfl]
  have hother : ∀ x, x ≠ t → x ≠ s.running → s'.state x = s.state x := by
    intro x h₁ h₂
    rw [hs.state, if_neg h₁, if_neg h₂]
  constructor
  case count => exact hs.count ▸ h.count
  case runState => rw [hs.running, hs.state, if_pos rfl]
  case runLive =>
    intro _ h₀
    rw [hs.running] at h₀ ⊢
    exact (hlive t).mpr (h.ready t (ht.resolve_left fun h => h₀ h.1)).1
  case runExited => exact fun h => by cases h
  case ready =>
    intro x hx
    rw [hs.readyList, List.mem_append] at hx
    rw [hlive, hs.running]
    rcases hx with hx | hx
    · obtain ⟨hxt, hx⟩ := (h.readyNodup.mem_erase_iff).mp hx
      obtain ⟨h₁, h₂, h₃⟩ := h.ready x hx
      exact ⟨h₁, hxt, by rw [hother x hxt h₂, h₃]⟩
    · split_ifs at hx with hc
      · obtain rfl := List.mem_singleton.mp hx
        exact ⟨hold hc.1 hc.2, hne.symm, by rw [holdState, if_pos hc.1]⟩
      · simp at hx
  case blocked =>
    intro x hx
    rw [hs.blockedList, List.mem_append] at hx
    rw [hlive, hs.running]
    rcases hx with hx | hx
    · obtain ⟨h₁, -, h₃⟩ := h.blocked x hx
      exact ⟨h₁, hs.state_kept h ht h₃ (by decide) (by decide)⟩
    · split_ifs at hx with hc
      · obtain rfl := List.mem_singleton.mp hx
        have h₀ : s.running ≠ 0 := fun h₀ => by
          rw [hmaster h₀] at hc
          cases hc
        exact ⟨h.runLive (by rw [hc]; decide) h₀, hne.symm, by rw [holdState, hc]; rfl⟩
      · simp at hx
  case readyNodup =>
    rw [hs.readyList]
    split_ifs with hc
    · rw [← List.concat_eq_append]
      exact (h.readyNodup.erase t).concat fun hm => (h.ready _ (List.mem_of_mem_erase hm)).2.1 rfl
    · simpa using h.readyNodup.erase t
  case blockedNodup =>
    rw [hs.blockedList]
    split_ifs with hc
    · rw [← List.concat_eq_append]
      exact h.blockedNodup.concat fun hm => (h.blocked _ hm).2.1 rfl
    · simpa using h.blockedNodup
  case listed =>
    intro x hx hxt
    rw [hlive] at hx
    rw [hs.running] at hxt
    rw [hs.readyList, hs.blockedList, List.mem_append, List.mem_append]
    by_cases hxo : x = s.running
    · subst hxo
      cases st with
      | ready => exact absurd rfl hst
      | running => exact .inl (.inr (by simp [Nat.pos_iff_ne_zero.mp hx.pos]))
      | blocked => exact .inr (.inr (by simp))
      | stopped => exact absurd (h.runExited rfl) hx.unexited
    · rcases h.listed x hx hxo with hm | hm
      · exact .inl (.inl ((h.readyNodup.mem_erase_iff).mpr ⟨hxt, hm⟩))
      · exact .inr (.inl hm)
  case master =>
    intro h₀
    rw [hs.running] at h₀
    by_cases ho : s.running = 0
    · rw [← ho, holdState, if_pos (hmaster ho)]
    · rw [hother 0 h₀.symm fun h => ho h.symm, h.master ho]
  case waiters =>
    intro u x hu hx
    rw [hs.waiting] at hx
    rw [hlive] at hu ⊢
    obtain ⟨h₁, h₂⟩ := h.waiters u x hu hx
    exact ⟨h₁, (hs.state_kept h ht h₂ (by decide) (by decide)).2⟩
  case waitsOnce =>
    intro u w x hu hw
    rw [hs.waiting, hs.waiting]
    exact h.waitsOnce u w x ((hlive u).mp hu) ((hlive w).mp hw)
  case waitingNodup =>
    intro u hu
    rw [hs.waiting]
    exact h.waitingNodup u ((hlive u).mp hu)
  case exited =>
    exact h.exited_kept hs.count hs.trace fun x hx => (hs.state_kept h ht hx (by decide) (by decide)).2
  case last =>
    intro x hx
    rw [hexited]
    rw [hs.stopped] at hx
    split_ifs at hx with hc
    · obtain rfl := Option.some.inj hx
      exact h.runExited hc
    · exact h.last x hx

/-- What `pet_thread_schedule` does: it returns at once to the master thread, or
switches to the master thread or to the head of the ready list. -/
inductive Scheduled (st : RunState) (s : Sched) : Sched → Prop where
  /-- No other thread is ready: the master thread goes on. -/
  | stay (running : s.running = 0) (ready : s.readyList = []) : Scheduled st s s
  /-- No other thread is ready: the master thread is resumed. -/
  | toMaster {s' : Sched} (running : s.running ≠ 0) (ready : s.readyList = []) (switched : Switched st s 0 s') :
      Scheduled st s s'
  /-- The thread that has waited longest is resumed. -/
  | toHead {s' : Sched} {t : ℕ} {ts : List ℕ} (ready : s.readyList = t :: ts) (switched : Switched st s t s') :
      Scheduled st s s'

theorem Core.petThreadSchedule (h : Core st s) (hst : st ≠ .ready) :
    ∃ s', s.petThreadSchedule = some s' ∧ Scheduled st s s' := by
  unfold Sched.petThreadSchedule
  cases hl : s.readyList with
  | nil =>
    by_cases h₀ : s.running = 0
    · exact ⟨s, by simp [h₀, masterId], .stay h₀ hl⟩
    · obtain ⟨s', hs', hsw⟩ := h.threadInvoker hst (.inl ⟨rfl, h₀⟩)
      exact ⟨s', by simpa [h₀, masterId] using hs', .toMaster h₀ hl hsw⟩
  | cons t ts =>
    have hmem : t ∈ s.readyList := by simp [hl]
    obtain ⟨s', hs', hsw⟩ := h.threadInvoker hst (.inr hmem)
    refine ⟨s', ?_, .toHead hl hsw⟩
    have hready : (s.thread t).state = .ready := (h.ready t hmem).2.2
    simpa [hready] using hs'

end Switch

end PetLab.Threads
