import PetLab.Threads.SchedCalls
import Mathlib.Data.List.Rotate

/-!
# Round robin

The ready list is a queue. A call takes at most one thread out of it, the one it switches
to, and adds threads at the end only: a thread it creates, the threads that joined
a thread that exits, in the order in which they did, and last the caller if it can still run
(`RoundRobin`). Every call that goes through `pet_thread_schedule` (`Schedules`) takes the first
one, be it made by user code, by a join, by an exit, or by `pet_thread_yield_to` when there is nobody
to yield to.

So a thread does not lose its place (`QueueInv.idxOf_le`), and threads that call nothing but
`pet_thread_schedule` take turns (`QueueInv.rotates`).

Who joined whom is kept in a history beside the state of the library (`Logged`). Any call
is allowed at any time, but `main` does not join, and a join names a thread that was created
and has not exited.
-/

namespace PetLab.Threads

open PetLab.Lib

/-- `main` does not join, and a join names a created thread that has not exited. -/
def Orderly (s : Sched) (c : Call) : Prop := ∀ threadId, c = .join threadId → s.running ≠ 0 ∧ Live s threadId

instance (s : Sched) (c : Call) : Decidable (Orderly s c) :=
  match c with
  | .join threadId => decidable_of_iff (s.running ≠ 0 ∧ Live s threadId) <| by simp [Orderly]
  | .create | .run | .schedule | .yieldTo _ | .exit _ => .isTrue (by simp [Orderly])

/-- The library, with a history of the joins. -/
structure Logged where
  /-- The state of the library. -/
  s : Sched
  /-- The joins, who and whom, the last one last. -/
  joins : List (ℕ × ℕ)

/-- What a call adds to the history. -/
def joinOf (s : Sched) : Call → List (ℕ × ℕ)
  | .join threadId => [(s.running, threadId)]
  | _ => []

/-- A call. -/
def Logged.call (l : Logged) (c : Call) : Option Logged :=
  (l.s.call c).map fun s => { s := s, joins := l.joins ++ joinOf l.s c }

/-- An orderly call. -/
def Logged.Step : Logged → Call → Logged → Prop := Guard (fun l c => Orderly l.s c) fun l c l' => l.call c = some l'

/-- The threads that joined a thread, in order. -/
def Logged.joiners (l : Logged) (t : ℕ) : List ℕ := (l.joins.filter fun p => p.2 = t).map Prod.fst

/-- The threads a call makes ready. -/
def Logged.woken (l : Logged) : Call → List ℕ
  | .create => [l.s.threadIdCount]
  | .exit _ => l.joiners l.s.running
  | _ => []

/-- The caller, if it is a created thread that can still run. -/
def preempted (s : Sched) : Call → List ℕ
  | .run | .schedule | .yieldTo _ => if s.running ≠ 0 then [s.running] else []
  | _ => []

/-- The call goes through `pet_thread_schedule`: a join does so if it finds the thread, and
`pet_thread_yield_to` if it does not find one that is ready. -/
def Schedules (s : Sched) : Call → Prop
  | .create => False
  | .run | .schedule | .exit _ => True
  | .yieldTo threadId => ∀ t, s.getThread threadId = some t → s.state t ≠ .ready
  | .join threadId => s.getThread threadId ≠ none

/-- What a call does to the ready list. -/
structure RoundRobin (l : Logged) (c : Call) (l' : Logged) : Prop where
  /-- The thread that runs next is taken out; the others keep their order, and new ones come
  at the end. -/
  order : l'.s.readyList = (l.s.readyList ++ l.woken c).erase l'.s.running ++ preempted l.s c
  /-- `pet_thread_schedule` takes the first. -/
  head : Schedules l.s c → ∀ t ts, l.s.readyList ++ l.woken c = t :: ts → l'.s.running = t

/-- What holds whenever user code runs. -/
structure QueueInv (l : Logged) : Prop where
  /-- The scheduler invariant. -/
  core : Core .running l.s
  /-- Only a thread that has exited is in `__quarantine`. -/
  cont : ContOk l.s
  /-- The waiting list of a live thread has those that joined it, in order. -/
  waiting : ∀ t, Live l.s t → l.s.waiting t = l.joiners t
  /-- The joins name threads that were created. -/
  named : ∀ p ∈ l.joins, p.2 < l.s.threadIdCount

/-! ### The first half of a call -/

/-- What the first half of a call does to the lists. -/
structure Half (s : Sched) (c : Call) (st : RunState) (s₁ : Sched) : Prop where
  core : Core st s₁
  cont : ContOk s₁
  notReady : st ≠ .ready
  master : s₁.running = 0 → st = .running
  running : s₁.running = s.running
  count : s₁.threadIdCount = s.threadIdCount
  live : ∀ t, Live s₁ t → Live s t
  /-- The waiters of a thread that exits come to the end of the ready list. -/
  readyList : s₁.readyList = s.readyList ++ if st = .stopped then s.waiting s.running else []
  /-- A thread that joins comes to the end of a waiting list. -/
  waiting : ∀ t, Live s₁ t → s₁.waiting t = s.waiting t ++ if c = .join t then [s.running] else []

section

variable {s s₁ s₂ s' : Sched} {l l' : Logged} {c : Call} {st : RunState} {t : ℕ}

theorem live_suspend (s : Sched) (k : Cont) (t : ℕ) : Live (s.suspend k) t ↔ Live s t :=
  @live_congr s (s.suspend k) rfl rfl t

theorem Half.suspend (h : Core .running s) (hk : ContOk s) {k : Cont} (hne : k ≠ .exited)
    (hc : ∀ t, c ≠ .join t) : Half s c .running (s.suspend k) where
  core := h.suspend k
  cont := hk.suspend hne
  notReady := by decide
  master _ := rfl
  running := rfl
  count := rfl
  live t ht := (live_suspend s k t).mp ht
  readyList := by simp [Sched.suspend]
  waiting t _ := by
    rw [if_neg (hc t), List.append_nil]
    rfl

/-- In the middle of the loop over the waiters: the ready list and the waiters still to be moved
are, one after the other, what they were at the start. -/
structure Draining (s u : Sched) : Prop where
  running : u.running = s.running
  queue : u.readyList ++ u.waiting u.running = s.readyList ++ s.waiting s.running
  others : ∀ t, t ≠ s.running → u.waiting t = s.waiting t

theorem Draining.step {u u' : Sched} {retVal x : ℕ} {xs : List ℕ} (h : Draining s u)
    (hx : u.waiting u.running = x :: xs) (hw : Woken retVal u x u') : Draining s u' := by
  refine ⟨hw.running.trans h.running, ?_, fun t ht => ?_⟩
  · rw [← h.queue, hw.readyList, hw.waiting, hw.running, if_pos rfl, hx, List.tail_cons, List.append_assoc,
      List.singleton_append]
  · rw [hw.waiting, if_neg (by rw [h.running]; exact ht), h.others t ht]

/-- The loop over the waiters moves them to the ready list, in order. -/
theorem wakeAll_readyList {retVal : ℕ} (h : Core .running s) (h₀ : s.running ≠ 0)
    (hw : Sched.wakeAll retVal (s.waiting s.running) (s.suspend .exited) = some s₁) :
    s₁.readyList = s.readyList ++ s.waiting s.running ∧ ∀ t, t ≠ s.running → s₁.waiting t = s.waiting t := by
  have hstart : Draining s (s.suspend .exited) := ⟨rfl, rfl, fun _ _ => rfl⟩
  obtain ⟨s', hs', -, -, -, -, -, hempty, hd⟩ := wakeAll_spec (P := Draining s)
    (fun u x xs u' _ _ hx (hwoken : Woken retVal u x u') hd => hd.step hx hwoken) (h.suspend .exited) h₀ rfl hstart
  obtain rfl := Option.some.inj (hw.symm.trans hs')
  refine ⟨?_, hd.others⟩
  rw [← hd.queue, hempty, List.append_nil]

theorem First.half (hf : First s c st s₁) (h : Core .running s) (hk : ContOk s) : Half s c st s₁ := by
  obtain ⟨hcore, hrunning, hst, hmaster⟩ := hf.core h
  have hcont := hf.contOk h hk
  cases hf with
  | run => exact .suspend h hk (by decide) (by simp)
  | schedule => exact .suspend h hk (by decide) (by simp)
  | yieldTo _ => exact .suspend h hk (by decide) (by simp)
  | @join threadId _ _ _ hw =>
    refine ⟨hcore, hcont, hst, hmaster, hrunning, hw.count, fun t ht => ?_, ?_, fun t _ => ?_⟩
    · exact (live_suspend s _ t).mp ((live_congr hw.count hw.trace t).mp ht)
    · rw [hw.lists.1]
      simp [Sched.suspend]
    · rw [hw.waiting]
      by_cases ht : t = threadId
      · subst ht
        simp only [if_true]
        rfl
      · rw [if_neg ht, if_neg (by simpa using fun h => ht h.symm), List.append_nil]
        rfl
  | @exit retVal s₀ h₀ hw =>
    obtain ⟨-, hr, -, htrace, hcount, -⟩ := wakeAll_eq h h₀ hw
    obtain ⟨hready, hwaiting⟩ := wakeAll_readyList h h₀ hw
    have hlive : ∀ t, Live ((s₀.setState s₀.running .stopped).note (.exited s₀.running retVal)) t →
        Live s t ∧ t ≠ s.running := by
      intro t ht
      rw [live_exit, live_congr hcount htrace, hr] at ht
      exact ht
    refine ⟨hcore, hcont, hst, hmaster, hrunning, hcount, fun t ht => (hlive t ht).1, ?_, fun t ht => ?_⟩
    · rw [if_pos rfl]
      exact hready
    · rw [waiting_note, waiting_setState, hwaiting t (hlive t ht).2, if_neg (by simp), List.append_nil]

/-! ### Whole calls -/

/-- The two halves of a call, put together. -/
structure TurnSpec (s : Sched) (c : Call) (st : RunState) (s' : Sched) : Prop where
  core : Core .running s'
  cont : ContOk s'
  count : s'.threadIdCount = s.threadIdCount
  live : ∀ t, Live s' t → Live s t
  readyList : s'.readyList = (s.readyList ++ if st = .stopped then s.waiting s.running else []).erase s'.running ++
    if st = .running ∧ s.running ≠ 0 then [s.running] else []
  waiting : ∀ t, Live s' t → s'.waiting t = s.waiting t ++ if c = .join t then [s.running] else []

theorem Half.turn (hh : Half s c st s₁) (hm : Moved c st s₁ s₂) (hr : s₂.resume = some s') : TurnSpec s c st s' := by
  have hex := exited_resume hr
  have hs' := (resume_eq_some_iff.mp hr).2
  have hready : s'.readyList = s₂.readyList := by rw [hs']; rfl
  have hrunning : s'.running = s₂.running := by rw [hs']; rfl
  have hcount : s'.threadIdCount = s₂.threadIdCount := by rw [hs']; rfl
  have hwaiting : ∀ t, s'.waiting t = s₂.waiting t := fun t => by rw [hs']; rfl
  have hlive : ∀ t, Live s' t → Live s₂ t := fun t ht =>
    ⟨ht.pos, hcount ▸ ht.created, fun he => ht.unexited ((hex t).mpr he)⟩
  have hmoved : s₂.threadIdCount = s₁.threadIdCount ∧ (∀ t, Live s₂ t → Live s₁ t) ∧
      (s₂.readyList = s₁.readyList.erase s₂.running ++ if st = .running ∧ s₁.running ≠ 0 then [s₁.running] else []) ∧
      ∀ t, s₂.waiting t = s₁.waiting t := by
    cases hm with
    | stay h₀ hempty =>
      refine ⟨rfl, fun t ht => ht, ?_, fun t => rfl⟩
      rw [hempty, if_neg fun h => h.2 h₀]
      rfl
    | switch ht hsw _ =>
      refine ⟨hsw.count, fun t => (live_congr hsw.count hsw.trace t).mp, ?_, hsw.waiting⟩
      rw [hsw.readyList, hsw.running]
  obtain ⟨hcount₁, hlive₁, hready₁, hwaiting₁⟩ := hmoved
  refine ⟨(hm.core hh.core hh.notReady hh.master).of_resume hr, (hm.contOk hh.cont).resume hr,
    hcount.trans (hcount₁.trans hh.count), fun t ht => hh.live t (hlive₁ t (hlive t ht)), ?_, fun t ht => ?_⟩
  · rw [hready, hready₁, hrunning, hh.readyList, hh.running]
  · rw [hwaiting, hwaiting₁, hh.waiting t (hlive₁ t (hlive t ht))]

/-- A call that goes through the scheduler ends with a turn. -/
inductive Called (s : Sched) (c : Call) : Sched → Prop where
  /-- A thread is created. -/
  | create (call : c = .create) : Called s c s.petThreadCreate
  /-- A turn. -/
  | turn {st : RunState} {s' : Sched} (turn : TurnSpec s c st s') (create : c ≠ .create)
      (stopped : st = .stopped ↔ ∃ retVal, c = .exit retVal)
      (running : st = .running ↔ ¬ (∃ retVal, c = .exit retVal) ∧ ∀ threadId, c ≠ .join threadId) : Called s c s'

theorem First.st_iff (hf : First s c st s₁) : c ≠ .create ∧ (st = .stopped ↔ ∃ retVal, c = .exit retVal) ∧
    (st = .running ↔ ¬ (∃ retVal, c = .exit retVal) ∧ ∀ threadId, c ≠ .join threadId) := by
  cases hf <;> simp

/-- A live thread is found. -/
theorem Core.getThread_live (h : Core st s) (ht : Live s t) : s.getThread t = some t := by
  rw [getThread_eq, if_pos]
  by_cases hr : s.running = t
  · exact .inr (.inl hr)
  · rcases h.listed t ht (Ne.symm hr) with hm | hm
    · exact .inr (.inr (.inr (.inl hm)))
    · exact .inr (.inr (.inr (.inr hm)))

/-- `pet_thread_join` on a live thread. -/
theorem Core.called_join (h : Core .running s) (hk : ContOk s) (h₀ : s.running ≠ 0) (ht : Live s t)
    (hstep : Step s (.join t) s') : Called s (.join t) s' := by
  have ht₀ : t ≠ 0 := Nat.pos_iff_ne_zero.mp ht.pos
  obtain ⟨s₁, hs₁, hw⟩ := waitFor_waits (s := s.suspend (.join t)) h.runState ht₀
  have hf : First s (.join t) .blocked s₁ := .join h₀ ht₀ hw
  simp only [Step, Sched.call, h.getThread_live ht, hs₁, Option.bind_some] at hstep
  obtain ⟨s₂, hs₂, hr⟩ := Option.bind_eq_some_iff.mp hstep
  obtain ⟨s₂', hs₂', hm⟩ := (hf.core h).1.moved (c := .join t) (by decide)
  obtain rfl := Option.some.inj (hs₂.symm.trans hs₂')
  obtain ⟨h₁, h₂, h₃⟩ := hf.st_iff
  exact .turn ((hf.half h hk).turn hm hr) h₁ h₂ h₃

/-- Only a created thread exits. -/
theorem not_step_exit {retVal : ℕ} (h₀ : s.running = 0) : ¬ Step s (.exit retVal) s' := by
  intro hstep
  simp [Step, Sched.call, Sched.quarantine, Sched.suspend, h₀, masterId] at hstep

/-- **What an orderly call does.** -/
theorem Core.called (h : Core .running s) (hk : ContOk s) (hc : Orderly s c) (hstep : Step s c s') :
    Called s c s' := by
  have hspec : Permitted s c → (∀ threadId, c ≠ .join threadId) → Called s c s' := by
    intro hp hjoin
    obtain ⟨s'', hs'', hspec⟩ := h.call hk hp (hjoin 0)
    obtain rfl := Option.some.inj (hstep.symm.trans hs'')
    cases hspec with
    | create hcreate => exact .create hcreate
    | joinFails threadId hfails => exact absurd hfails (hjoin threadId)
    | switch hf hm hr =>
      obtain ⟨h₁, h₂, h₃⟩ := hf.st_iff
      exact .turn ((hf.half h hk).turn hm hr) h₁ h₂ h₃
  cases c with
  | create => exact hspec trivial (by simp)
  | run => exact hspec trivial (by simp)
  | schedule => exact hspec trivial (by simp)
  | yieldTo _ => exact hspec trivial (by simp)
  | join threadId => exact h.called_join hk (hc threadId rfl).1 (hc threadId rfl).2 hstep
  | exit retVal => exact hspec (fun h₀ => not_step_exit h₀ hstep) (by simp)

/-! ### The queue -/

/-- A step of the history is a step of the library. -/
theorem Logged.Step.step (h : Logged.Step l c l') :
    Orderly l.s c ∧ PetLab.Threads.Step l.s c l'.s ∧ l'.joins = l.joins ++ joinOf l.s c := by
  obtain ⟨hc, hcall⟩ := h
  obtain ⟨s', hs', rfl⟩ := Option.map_eq_some_iff.mp hcall
  exact ⟨hc, hs', rfl⟩

theorem Logged.joiners_append (hjoins : l'.joins = l.joins ++ joinOf l.s c) (t : ℕ) :
    l'.joiners t = l.joiners t ++ if c = .join t then [l.s.running] else [] := by
  unfold Logged.joiners
  rw [hjoins, List.filter_append, List.map_append]
  congr 1
  cases c with
  | join u =>
    by_cases hu : u = t
    · simp [joinOf, hu]
    · simp [joinOf, hu]
  | create => rfl
  | run => rfl
  | schedule => rfl
  | yieldTo _ => rfl
  | exit _ => rfl

theorem QueueInv.joiners_eq_nil (hI : QueueInv l) (ht : l.s.threadIdCount ≤ t) : l.joiners t = [] := by
  unfold Logged.joiners
  rw [List.map_eq_nil_iff, List.filter_eq_nil_iff]
  intro p hp
  have := hI.named p hp
  simp only [decide_eq_true_eq]
  omega

theorem queueInv_init : QueueInv ⟨petThreadInit, []⟩ where
  core := core_petThreadInit
  cont := fun t ht => by simp [petThreadInit] at ht
  waiting := fun t _ => rfl
  named := by simp

/-- **One call keeps the queue.** -/
theorem QueueInv.step (hI : QueueInv l) (hs : Logged.Step l c l') : QueueInv l' := by
  obtain ⟨hc, hstep, hjoins⟩ := hs.step
  have hjoiners := Logged.joiners_append hjoins
  have hnamed : ∀ p ∈ l'.joins, p.2 < l.s.threadIdCount := by
    intro p hp
    rw [hjoins, List.mem_append] at hp
    rcases hp with hp | hp
    · exact hI.named p hp
    · cases c with
      | join u =>
        obtain rfl := List.mem_singleton.mp hp
        exact (hc u rfl).2.created
      | _ => cases hp
  obtain ⟨s', joins⟩ := l'
  simp only at hstep
  cases hI.core.called hI.cont hc hstep with
  | create hcreate =>
    subst hcreate
    refine ⟨hI.core.create, hI.cont.create, fun t ht => ?_, fun p hp => Nat.lt_succ_of_lt (hnamed p hp)⟩
    rw [hjoiners, if_neg (by simp), List.append_nil]
    show l.s.petThreadCreate.waiting t = _
    rw [waiting_petThreadCreate]
    split_ifs with hnew
    · exact (hI.joiners_eq_nil hnew.ge).symm
    · exact hI.waiting t (((hI.core.live_petThreadCreate t).mp ht).resolve_right hnew)
  | turn ht _ _ _ =>
    refine ⟨ht.core, ht.cont, fun t hlive => ?_, fun p hp => ?_⟩
    · rw [hjoiners, ← hI.waiting t (ht.live t hlive)]
      exact ht.waiting t hlive
    · show p.2 < s'.threadIdCount
      rw [ht.count]
      exact hnamed p hp

/-- `pet_thread_schedule` switches to the first thread of the ready list. -/
theorem Core.head_of_schedule {ts : List ℕ} (h : Core st s) (hst : st ≠ .ready)
    (hs : s.petThreadSchedule.bind Sched.resume = some s') (hready : s.readyList = t :: ts) : s'.running = t := by
  obtain ⟨s₂, hs₂, hr⟩ := Option.bind_eq_some_iff.mp hs
  obtain ⟨s₂', hs₂', hsched⟩ := h.petThreadSchedule hst
  obtain rfl := Option.some.inj (hs₂.symm.trans hs₂')
  rw [(resume_eq_some_iff.mp hr).2]
  show s₂.running = t
  cases hsched with
  | stay _ hempty =>
    rw [hready] at hempty
    cases hempty
  | toMaster _ hempty _ =>
    rw [hready] at hempty
    cases hempty
  | toHead hcons hsw =>
    rw [hready] at hcons
    rw [hsw.running]
    exact (List.cons.inj hcons).1.symm

/-- So does every call that goes through it; an exit has moved the joiners to the end before. -/
theorem QueueInv.head {ts : List ℕ} (hI : QueueInv l) (hc : Orderly l.s c) (hstep : Step l.s c s')
    (hsched : Schedules l.s c) (hready : l.s.readyList ++ l.woken c = t :: ts) : s'.running = t := by
  have hsuspend : l.woken c = [] → ∀ k, (l.s.suspend k).readyList = t :: ts := by
    intro hwoken k
    rw [hwoken, List.append_nil] at hready
    exact hready
  cases c with
  | create => exact hsched.elim
  | run => exact (hI.core.suspend .run).head_of_schedule (by decide) hstep (hsuspend rfl _)
  | schedule => exact (hI.core.suspend .sched).head_of_schedule (by decide) hstep (hsuspend rfl _)
  | yieldTo threadId =>
    refine (hI.core.suspend .sched).head_of_schedule (by decide) ?_ (hsuspend rfl _)
    rw [← show l.s.call (.yieldTo threadId) = some s' from hstep]
    cases hget : l.s.getThread threadId with
    | none => simp [Sched.call, hget, Sched.yieldTo]
    | some u =>
      have hu : ((l.s.suspend .sched).thread u).state ≠ .ready := hsched u hget
      simp only [Sched.call, hget, Sched.yieldTo, if_pos hu]
  | join threadId =>
    obtain ⟨h₀, hlive⟩ := hc threadId rfl
    have ht₀ : threadId ≠ 0 := Nat.pos_iff_ne_zero.mp hlive.pos
    obtain ⟨s₁, hs₁, hw⟩ := waitFor_waits (s := l.s.suspend (.join threadId)) hI.core.runState ht₀
    have hh := (First.join (s := l.s) h₀ ht₀ hw).half hI.core hI.cont
    refine hh.core.head_of_schedule (by decide) ?_ (hw.lists.1.trans (hsuspend rfl _))
    simpa only [Step, Sched.call, hI.core.getThread_live hlive, hs₁, Option.bind_some] using hstep
  | exit retVal =>
    have h₀ : l.s.running ≠ 0 := fun h₀ => not_step_exit h₀ hstep
    obtain ⟨s₁, hs₁, hcore, -, -, -, -, hempty, -⟩ := wakeAll_spec (P := fun _ => True)
      (fun _ _ _ _ _ _ _ _ _ => trivial) (hI.core.suspend .exited) h₀ rfl trivial
    have hfirst : First l.s (.exit retVal) .stopped
      ((s₁.setState s₁.running .stopped).note (.exited s₁.running retVal)) := .exit h₀ hs₁
    have hh := hfirst.half hI.core hI.cont
    have hlist : ((s₁.setState s₁.running .stopped).note (.exited s₁.running retVal)).readyList = t :: ts := by
      rw [hh.readyList, if_pos rfl, hI.waiting _ (hI.core.runLive (by decide) h₀)]
      exact hready
    refine hh.core.head_of_schedule (by decide) ?_ hlist
    simpa only [Step, Sched.call, quarantine_eq h₀ hs₁ hcore hempty, Option.bind_some] using hstep

/-- **One call is round robin.** -/
theorem QueueInv.roundRobin (hI : QueueInv l) (hs : Logged.Step l c l') : RoundRobin l c l' := by
  obtain ⟨hc, hstep, -⟩ := hs.step
  obtain ⟨s', joins⟩ := l'
  simp only at hstep
  refine ⟨?_, fun hsched t ts hready => ?_⟩
  · show s'.readyList = (l.s.readyList ++ l.woken c).erase s'.running ++ preempted l.s c
    cases hI.core.called hI.cont hc hstep with
    | create hcreate =>
      subst hcreate
      -- the running thread is not in the ready list, nor new
      have hnot : l.s.running ∉ l.s.readyList ++ [l.s.threadIdCount] := by
        rw [List.mem_append, List.mem_singleton]
        rintro (hm | hm)
        · exact (hI.core.ready _ hm).2.1 rfl
        · by_cases h₀ : l.s.running = 0
          · have := hI.core.count
            omega
          · exact absurd (hI.core.runLive (by decide) h₀).created (by omega)
      show l.s.petThreadCreate.readyList = (l.s.readyList ++ [l.s.threadIdCount]).erase l.s.running ++ []
      rw [List.erase_of_not_mem hnot, List.append_nil]
      rfl
    | @turn st _ ht hcreate hstopped hrunning =>
      have hwoken : (if st = .stopped then l.s.waiting l.s.running else []) = l.woken c := by
        cases c with
        | exit retVal =>
          have h₀ : l.s.running ≠ 0 := fun h₀ => not_step_exit h₀ hstep
          rw [if_pos (hstopped.mpr ⟨_, rfl⟩), Logged.woken, hI.waiting _ (hI.core.runLive (by decide) h₀)]
        | create => exact absurd rfl hcreate
        | _ => rw [if_neg (by simp [hstopped])]; rfl
      have hpreempted : (if st = .running ∧ l.s.running ≠ 0 then [l.s.running] else []) = preempted l.s c := by
        cases c with
        | create => exact absurd rfl hcreate
        | join u => rw [if_neg (by simp [hrunning])]; rfl
        | exit retVal => rw [if_neg (by simp [hrunning])]; rfl
        | _ => simp only [hrunning.mpr ⟨by simp, by simp⟩, true_and, preempted]
      rw [ht.readyList, hwoken, hpreempted]
  · exact hI.head hc hstep hsched hready

/-! ### Runs -/

theorem idxOf_erase_le {x : ℕ} (hx : t ≠ x) (ts : List ℕ) : (ts.erase x).idxOf t ≤ ts.idxOf t := by
  induction ts with
  | nil => exact le_rfl
  | cons y ts ih =>
    by_cases hy : y = x
    · subst hy
      rw [List.erase_cons_head, List.idxOf_cons_ne _ (Ne.symm hx)]
      exact Nat.le_succ _
    · rw [List.erase_cons_tail (by simpa using hy)]
      by_cases hyt : y = t
      · subst hyt
        rw [List.idxOf_cons_self]
        exact Nat.zero_le _
      · rw [List.idxOf_cons_ne _ hyt, List.idxOf_cons_ne _ hyt]
        exact Nat.succ_le_succ ih

/-- A thread that is not the next one to run does not lose its place. -/
theorem RoundRobin.idxOf_le (h : RoundRobin l c l') (ht : t ∈ l.s.readyList) (hne : t ≠ l'.s.running) :
    l'.s.readyList.idxOf t ≤ l.s.readyList.idxOf t := by
  have hmem : t ∈ (l.s.readyList ++ l.woken c).erase l'.s.running :=
    (List.mem_erase_of_ne hne).mpr (List.mem_append_left _ ht)
  calc l'.s.readyList.idxOf t = ((l.s.readyList ++ l.woken c).erase l'.s.running).idxOf t := by
        rw [h.order, List.idxOf_append_of_mem hmem]
    _ ≤ (l.s.readyList ++ l.woken c).idxOf t := idxOf_erase_le hne _
    _ = l.s.readyList.idxOf t := List.idxOf_append_of_mem ht

/-- A step after which a thread is still ready. -/
def Logged.StepKeeping (t : ℕ) (l : Logged) (c : Call) (l' : Logged) : Prop := Logged.Step l c l' ∧ t ∈ l'.s.readyList

/-- **No thread is overtaken** while it is ready. -/
theorem QueueInv.idxOf_le {calls : List Call} (hI : QueueInv l) (ht : t ∈ l.s.readyList)
    (h : Exec (Logged.StepKeeping t) l calls l') : l'.s.readyList.idxOf t ≤ l.s.readyList.idxOf t := by
  have hrun : QueueInv l' ∧ t ∈ l'.s.readyList ∧ l'.s.readyList.idxOf t ≤ l.s.readyList.idxOf t := by
    refine h.inv (I := fun u => QueueInv u ∧ t ∈ u.s.readyList ∧ u.s.readyList.idxOf t ≤ l.s.readyList.idxOf t)
      ⟨hI, ht, le_rfl⟩ ?_
    rintro u c u' ⟨hu, hmem, hle⟩ ⟨hstep, hmem'⟩
    have hu' := hu.step hstep
    exact ⟨hu', hmem', ((hu.roundRobin hstep).idxOf_le hmem (hu'.core.ready t hmem').2.1).trans hle⟩
  exact hrun.2.2

/-- One turn of the rotation. -/
theorem QueueInv.schedule (hI : QueueInv l) (h₀ : l.s.running ≠ 0) (hready : l.s.readyList ≠ []) :
    ∃ l', Logged.Step l .schedule l' ∧ l'.s.running ≠ 0 ∧ l'.s.readyList ≠ [] ∧
      l'.s.running :: l'.s.readyList = (l.s.running :: l.s.readyList).rotate 1 := by
  obtain ⟨s', hs', -⟩ := hI.core.call hI.cont (c := .schedule) trivial (by simp)
  have hstep : Logged.Step l .schedule ⟨s', l.joins ++ joinOf l.s .schedule⟩ :=
    ⟨by simp [Orderly], by simp [Logged.call, hs']⟩
  obtain ⟨t, ts, hts⟩ := List.exists_cons_of_ne_nil hready
  have hrr := hI.roundRobin hstep
  have hhead : s'.running = t := hrr.head trivial t ts ((List.append_nil _).trans hts)
  have horder : s'.readyList = ts ++ [l.s.running] := by
    refine hrr.order.trans ?_
    show (l.s.readyList ++ []).erase s'.running ++ (if l.s.running ≠ 0 then [l.s.running] else []) = _
    rw [List.append_nil, hts, hhead, List.erase_cons_head, if_pos h₀]
  have ht : 0 < t := (hI.core.ready t (by simp [hts])).1.pos
  refine ⟨_, hstep, ?_, ?_, ?_⟩
  · show s'.running ≠ 0
    omega
  · show s'.readyList ≠ []
    simp [horder]
  · show s'.running :: s'.readyList = _
    rw [hhead, horder, hts, List.rotate_cons_succ, List.rotate_zero, List.cons_append]

/-- **Threads that only call `pet_thread_schedule` take turns.** -/
theorem QueueInv.rotates (hI : QueueInv l) (h₀ : l.s.running ≠ 0) (hready : l.s.readyList ≠ []) (k : ℕ) :
    ∃ l', Exec Logged.Step l (List.replicate k .schedule) l' ∧
      l'.s.running :: l'.s.readyList = (l.s.running :: l.s.readyList).rotate k := by
  induction k generalizing l with
  | zero => exact ⟨l, .nil, (List.rotate_zero _).symm⟩
  | succ k ih =>
    obtain ⟨l₁, hstep, h₁, hready₁, hrot⟩ := hI.schedule h₀ hready
    obtain ⟨l', hexec, hrot'⟩ := ih (hI.step hstep) h₁ hready₁
    refine ⟨l', exec_cons_iff.mpr ⟨l₁, hstep, hexec⟩, ?_⟩
    rw [hrot', hrot, List.rotate_rotate, Nat.add_comm 1 k]

/-- **Round robin.** Whatever has been called, the next call is round robin. So no thread is overtaken as long as
it is ready, and from now on threads that only call `pet_thread_schedule` take turns. -/
theorem round_robin {calls : List Call} (h : Exec Logged.Step ⟨petThreadInit, []⟩ calls l) :
    (∀ c l', Logged.Step l c l' → RoundRobin l c l') ∧
    (∀ t calls' l', t ∈ l.s.readyList → Exec (Logged.StepKeeping t) l calls' l' →
      l'.s.readyList.idxOf t ≤ l.s.readyList.idxOf t) ∧
    (l.s.running ≠ 0 → l.s.readyList ≠ [] → ∀ k, ∃ l', Exec Logged.Step l (List.replicate k .schedule) l' ∧
      l'.s.running :: l'.s.readyList = (l.s.running :: l.s.readyList).rotate k) := by
  have hI : QueueInv l := h.inv queueInv_init fun _ _ _ hI hs => hI.step hs
  exact ⟨fun c l' hs => hI.roundRobin hs, fun t calls' l' ht hexec => hI.idxOf_le ht hexec,
    fun h₀ hready k => hI.rotates h₀ hready k⟩

end

/-- Three threads: after five calls of `pet_thread_schedule` it is the turn of the third one. -/
theorem round_robin_three : ∃ l l', Exec Logged.Step ⟨petThreadInit, []⟩ [.create, .create, .create, .run] l ∧
    l.s.running :: l.s.readyList = [1, 2, 3] ∧ Exec Logged.Step l (List.replicate 5 .schedule) l' ∧
      l'.s.running :: l'.s.readyList = [3, 1, 2] := by
  have hrun : (guardedRun (fun (l : Logged) c => Orderly l.s c) Logged.call ⟨petThreadInit, []⟩
      [.create, .create, .create, .run]).map (fun l => (l.s.running, l.s.readyList)) = some (1, [2, 3]) := by
    decide +kernel
  obtain ⟨l, hl, hlists⟩ := Option.map_eq_some_iff.mp hrun
  obtain ⟨hrunning, hready⟩ := Prod.mk.inj hlists
  have hexec := exec_of_guardedRun hl
  obtain ⟨l', hexec', hrot⟩ := (round_robin hexec).2.2 (by simp [hrunning]) (by simp [hready]) 5
  refine ⟨l, l', hexec, by simp [hrunning, hready], hexec', ?_⟩
  rw [hrot, hrunning, hready]
  rfl

end PetLab.Threads
