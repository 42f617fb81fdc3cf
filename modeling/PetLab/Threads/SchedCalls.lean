import PetLab.Threads.SchedInv

/-!
# What a call does

Every call of the library, in a state that meets the scheduler invariant: the first half
(`First`) marks the running thread and moves its waiters, the second half (`Moved`)
switches, and the thread switched to goes on where it was. `Core.call` says that the
call goes through, and what it does; `CallSpec.core` that the invariant holds again when
user code runs.
-/

namespace PetLab.Threads

open PetLab.Lib

/-! ### The first half of a call -/

section Prelude

variable {s s' : Sched} {t x : ℕ}

theorem state_petThreadCreate (s : Sched) (x : ℕ) :
    s.petThreadCreate.state x = if x = s.threadIdCount then .ready else s.state x := by
  unfold Sched.state Sched.petThreadCreate
  by_cases hx : x = s.threadIdCount
  · simp [hx]
  · simp [hx]

theorem waiting_petThreadCreate (s : Sched) (x : ℕ) :
    s.petThreadCreate.waiting x = if x = s.threadIdCount then [] else s.waiting x := by
  unfold Sched.waiting Sched.petThreadCreate
  by_cases hx : x = s.threadIdCount
  · simp [hx]
  · simp [hx]

theorem cont_petThreadCreate (s : Sched) (x : ℕ) :
    s.petThreadCreate.cont x = if x = s.threadIdCount then .start else s.cont x :=
  Function.update_apply ..

/-- One more thread is live. -/
theorem Core.live_petThreadCreate (h : Core .running s) (x : ℕ) :
    Live s.petThreadCreate x ↔ Live s x ∨ x = s.threadIdCount := by
  constructor
  · rintro ⟨h₁, h₂, h₃⟩
    rcases Nat.lt_succ_iff_lt_or_eq.mp h₂ with h₂ | rfl
    · exact .inl ⟨h₁, h₂, h₃⟩
    · exact .inr rfl
  · rintro (⟨h₁, h₂, h₃⟩ | rfl)
    · exact ⟨h₁, Nat.lt_succ_of_lt h₂, h₃⟩
    · exact ⟨h.count, Nat.lt_succ_self _, fun he => absurd (h.exited _ he).2.1 (lt_irrefl _)⟩

theorem Core.create (h : Core .running s) : Core .running s.petThreadCreate := by
  have hnew : ∀ x, Live s x → x ≠ s.threadIdCount := fun x hx => hx.created.ne
  have hstate := state_petThreadCreate s
  have hwaiting := waiting_petThreadCreate s
  have hlive := h.live_petThreadCreate
  have hrun : s.running ≠ s.threadIdCount := by
    by_cases h₀ : s.running = 0
    · rw [h₀]
      exact h.count.ne
    · exact hnew _ (h.runLive (by decide) h₀)
  constructor
  case count => exact Nat.succ_pos _
  case runState => rw [hstate]; exact (if_neg hrun).trans h.runState
  case runLive => exact fun h₁ h₀ => (hlive _).mpr (.inl (h.runLive h₁ h₀))
  case runExited => exact fun h => by cases h
  case ready =>
    intro x hx
    rw [hlive, hstate]
    rcases List.mem_append.mp hx with hx | hx
    · obtain ⟨h₁, h₂, h₃⟩ := h.ready x hx
      exact ⟨.inl h₁, h₂, (if_neg (hnew x h₁)).trans h₃⟩
    · obtain rfl := List.mem_singleton.mp hx
      exact ⟨.inr rfl, hrun.symm, if_pos rfl⟩
  case blocked =>
    intro x hx
    obtain ⟨h₁, h₂, h₃⟩ := h.blocked x hx
    rw [hlive, hstate]
    exact ⟨.inl h₁, h₂, (if_neg (hnew x h₁)).trans h₃⟩
  case readyNodup =>
    show (s.readyList ++ [s.threadIdCount]).Nodup
    rw [← List.concat_eq_append]
    exact h.readyNodup.concat fun hm => hnew _ (h.ready _ hm).1 rfl
  case blockedNodup => exact h.blockedNodup
  case listed =>
    intro x hx hxr
    rcases (hlive x).mp hx with hx | rfl
    · exact (h.listed x hx hxr).imp (fun hm => List.mem_append.mpr (.inl hm)) id
    · exact .inl (List.mem_append.mpr (.inr (List.mem_singleton_self _)))
  case master =>
    intro h₀
    rw [hstate, if_neg h.count.ne]
    exact h.master h₀
  case waiters =>
    intro u y hu hy
    rw [hwaiting] at hy
    split_ifs at hy with hu'
    · simp at hy
    · obtain ⟨h₁, h₂⟩ := h.waiters u y (((hlive u).mp hu).resolve_right hu') hy
      rw [hlive, hstate]
      exact ⟨.inl h₁, (if_neg (hnew y h₁)).trans h₂⟩
  case waitsOnce =>
    intro u w y hu hw hyu hyw
    rw [hwaiting] at hyu hyw
    split_ifs at hyu with hu'
    · simp at hyu
    · split_ifs at hyw with hw'
      · simp at hyw
      · exact h.waitsOnce u w y (((hlive u).mp hu).resolve_right hu') (((hlive w).mp hw).resolve_right hw') hyu hyw
  case waitingNodup =>
    intro u hu
    rw [hwaiting]
    split_ifs with hu'
    · exact List.nodup_nil
    · exact h.waitingNodup u (((hlive u).mp hu).resolve_right hu')
  case exited =>
    intro y hy
    obtain ⟨h₁, h₂, h₃⟩ := h.exited y hy
    rw [hstate]
    exact ⟨h₁, Nat.lt_succ_of_lt h₂, (if_neg h₂.ne).trans h₃⟩
  case last => exact h.last

/-- The running thread is blocked and waits for `t`. -/
structure Waits (s : Sched) (t : ℕ) (s' : Sched) : Prop where
  /-- The thread still runs. -/
  running : s'.running = s.running
  /-- The lists stay. -/
  lists : s'.readyList = s.readyList ∧ s'.blockedList = s.blockedList ∧ s'.stopped = s.stopped
  /-- One state changes. -/
  state : ∀ x, s'.state x = if x = s.running then .blocked else s.state x
  /-- One waiting list grows. -/
  waiting : ∀ x, s'.waiting x = if x = t then s.waiting t ++ [s.running] else s.waiting x
  /-- What was returned stays. -/
  returnReciever : ∀ x, (s'.thread x).returnReciever = (s.thread x).returnReciever
  /-- Nothing is created. -/
  count : s'.threadIdCount = s.threadIdCount
  /-- Every thread is where it was. -/
  cont : s'.cont = s.cont
  /-- Nothing is observed. -/
  trace : s'.trace = s.trace

theorem waitFor_waits (hrun : s.state s.running = .running) (ht : t ≠ 0) :
    ∃ s', s.waitFor t = some s' ∧ Waits s t s' := by
  have hrun' : (s.thread s.running).state = .running := hrun
  rw [Sched.waitFor, if_neg (by rw [hrun']; simpa [masterId] using ht)]
  refine ⟨_, rfl, rfl, ⟨rfl, rfl, rfl⟩, fun x => ?_, fun x => ?_, fun x => ?_, rfl, rfl, rfl⟩
  · rw [state_modify]
    by_cases hx : x = t
    · subst hx
      rw [if_pos rfl]
      exact state_setState s s.running x .blocked
    · rw [if_neg hx, state_setState]
  · rw [waiting_modify]
    by_cases hx : x = t
    · subst hx
      rw [if_pos rfl, if_pos rfl]
      exact congrArg (· ++ [s.running]) (waiting_setState s s.running x .blocked)
    · rw [if_neg hx, if_neg hx, waiting_setState]
  · rw [returnReciever_modify]
    split_ifs with hx
    · rw [hx, returnReciever_setState]
    · rw [returnReciever_setState]

theorem Waits.core (hw : Waits s t s') (h : Core .running s) (h₀ : s.running ≠ 0) : Core .blocked s' := by
  obtain ⟨hready, hblocked, hstopped⟩ := hw.lists
  have hexited := exited_congr hw.trace
  have hlive := live_congr hw.count hw.trace
  have hrun : Live s s.running := h.runLive (by decide) h₀
  have hne : ∀ x, s.state x ≠ .running → x ≠ s.running := by
    rintro x hx rfl
    exact hx h.runState
  have hother : ∀ x, s.state x ≠ .running → s'.state x = s.state x := fun x hx => by
    rw [hw.state, if_neg (hne x hx)]
  -- nobody waits with the running thread
  have hfree : ∀ u, Live s u → s.running ∉ s.waiting u := by
    intro u hu hm
    have := (h.waiters u _ hu hm).2
    rw [h.runState] at this
    cases this
  have hmem : ∀ u x, x ∈ s'.waiting u → x ∈ s.waiting u ∨ (u = t ∧ x = s.running) := by
    intro u x hx
    rw [hw.waiting] at hx
    split_ifs at hx with hu
    · subst hu
      simpa using hx
    · exact .inl hx
  constructor
  case count => exact hw.count ▸ h.count
  case runState => rw [hw.running, hw.state, if_pos rfl]
  case runLive => exact fun _ _ => by rw [hw.running, hlive]; exact hrun
  case runExited => exact fun h => by cases h
  case ready =>
    intro x hx
    rw [hready] at hx
    obtain ⟨h₁, h₂, h₃⟩ := h.ready x hx
    rw [hlive, hw.running, hother x (by rw [h₃]; decide)]
    exact ⟨h₁, h₂, h₃⟩
  case blocked =>
    intro x hx
    rw [hblocked] at hx
    obtain ⟨h₁, h₂, h₃⟩ := h.blocked x hx
    rw [hlive, hw.running, hother x (by rw [h₃]; decide)]
    exact ⟨h₁, h₂, h₃⟩
  case readyNodup => exact hready ▸ h.readyNodup
  case blockedNodup => exact hblocked ▸ h.blockedNodup
  case listed =>
    intro x hx hxr
    rw [hready, hblocked]
    rw [hw.running] at hxr
    exact h.listed x ((hlive x).mp hx) hxr
  case master =>
    intro _
    rw [hw.state, if_neg h₀.symm]
    exact h.master h₀
  case waiters =>
    intro u x hu hx
    rw [hlive] at hu ⊢
    rcases hmem u x hx with hx | ⟨-, rfl⟩
    · obtain ⟨h₁, h₂⟩ := h.waiters u x hu hx
      exact ⟨h₁, by rw [hother x (by rw [h₂]; decide), h₂]⟩
    · exact ⟨hrun, by rw [hw.state, if_pos rfl]⟩
  case waitsOnce =>
    intro u w x hu hw' hxu hxw
    rw [hlive] at hu hw'
    rcases hmem u x hxu with hxu | ⟨rfl, rfl⟩
    · rcases hmem w x hxw with hxw | ⟨-, rfl⟩
      · exact h.waitsOnce u w x hu hw' hxu hxw
      · exact absurd hxu (hfree u hu)
    · rcases hmem w _ hxw with hxw | ⟨rfl, -⟩
      · exact absurd hxw (hfree w hw')
      · rfl
  case waitingNodup =>
    intro u hu
    rw [hlive] at hu
    rw [hw.waiting]
    split_ifs with hut
    · subst hut
      rw [← List.concat_eq_append]
      exact (h.waitingNodup u hu).concat (hfree u hu)
    · exact h.waitingNodup u hu
  case exited =>
    refine h.exited_kept hw.count hw.trace fun x hx => ?_
    rw [hother x (by rw [hx]; decide), hx]
  case last =>
    intro x hx
    rw [hstopped] at hx
    exact (hexited x).mpr (h.last x hx)

/-- The waiter `x` of the exiting thread is made ready. -/
structure Woken (retVal : ℕ) (s : Sched) (x : ℕ) (s' : Sched) : Prop where
  /-- The exiting thread still runs. -/
  running : s'.running = s.running
  /-- The waiter joins the ready list at the end. -/
  readyList : s'.readyList = s.readyList ++ [x]
  /-- It leaves the blocked list. -/
  blockedList : s'.blockedList = s.blockedList.erase x
  /-- `stopped` stays. -/
  stopped : s'.stopped = s.stopped
  /-- One state changes. -/
  state : ∀ y, s'.state y = if y = x then .ready else s.state y
  /-- The waiter leaves the waiting list. -/
  waiting : ∀ y, s'.waiting y = if y = s.running then (s.waiting y).tail else s.waiting y
  /-- It gets the value. -/
  returnReciever : ∀ y, (s'.thread y).returnReciever = if y = x then retVal else (s.thread y).returnReciever
  /-- Nothing is created. -/
  count : s'.threadIdCount = s.threadIdCount
  /-- Every thread is where it was. -/
  cont : s'.cont = s.cont
  /-- Nothing is observed. -/
  trace : s'.trace = s.trace

/-- A thread that waits for the running thread is in the blocked list. -/
theorem Core.mem_blockedList (h : Core .running s) (hx : Live s x) (hstate : s.state x = .blocked) :
    x ∈ s.blockedList ∧ x ∉ s.readyList ∧ x ≠ s.running := by
  have hne : x ≠ s.running := by
    rintro rfl
    rw [h.runState] at hstate
    cases hstate
  have hnot : x ∉ s.readyList := by
    intro hm
    rw [(h.ready x hm).2.2] at hstate
    cases hstate
  exact ⟨(h.listed x hx hne).resolve_left hnot, hnot, hne⟩

theorem wake_woken {xs : List ℕ} (retVal : ℕ) (h : Core .running s) (h₀ : s.running ≠ 0)
    (hwait : s.waiting s.running = x :: xs) : ∃ s', s.wake retVal x = some s' ∧ Woken retVal s x s' := by
  obtain ⟨hx, hstate⟩ := h.waiters s.running x (h.runLive (by decide) h₀) (by simp [hwait])
  obtain ⟨hblocked, hready, hne⟩ := h.mem_blockedList hx hstate
  have hstate' : (s.thread x).state = .blocked := hstate
  obtain ⟨s', hs', hthread, h₁, h₂, h₃, h₄, h₅, h₆, h₇⟩ : ∃ s', s.wake retVal x = some s' ∧
      (∀ y, s'.thread y =
        if y = s.running then { s.thread y with waitingForMe := (s.thread y).waitingForMe.tail }
        else if y = x then { s.thread y with returnReciever := retVal, state := .ready } else s.thread y) ∧
      s'.running = s.running ∧ s'.readyList = s.readyList ++ [x] ∧ s'.blockedList = s.blockedList.erase x ∧
      s'.stopped = s.stopped ∧ s'.threadIdCount = s.threadIdCount ∧ s'.cont = s.cont ∧ s'.trace = s.trace := by
    unfold Sched.wake Sched.listDel
    rw [if_neg (by rw [hstate']; decide), if_neg (by exact hready), if_pos (by exact hblocked), Option.map_some]
    refine ⟨_, rfl, fun y => ?_, rfl, rfl, rfl, rfl, rfl, rfl, rfl⟩
    simp only [Sched.modify, Function.update_apply]
    split_ifs <;> simp_all
  refine ⟨s', hs', h₁, h₂, h₃, h₄, fun y => ?_, fun y => ?_, fun y => ?_, h₅, h₆, h₇⟩
  all_goals
    simp only [Sched.state, Sched.waiting, hthread y]
    by_cases hy : y = s.running
    · simp [hy, hne.symm]
    · by_cases hyx : y = x
      · simp [hyx, hne]
      · simp [hy, hyx]

theorem Woken.core {xs : List ℕ} {retVal : ℕ} (hw : Woken retVal s x s') (h : Core .running s) (h₀ : s.running ≠ 0)
    (hwait : s.waiting s.running = x :: xs) : Core .running s' := by
  have hrun : Live s s.running := h.runLive (by decide) h₀
  obtain ⟨hx, hxstate⟩ := h.waiters s.running x hrun (by simp [hwait])
  obtain ⟨hxb, hxr, hxne⟩ := h.mem_blockedList hx hxstate
  have hexited := exited_congr hw.trace
  have hlive := live_congr hw.count hw.trace
  have hother : ∀ y, s.state y ≠ .blocked → s'.state y = s.state y := by
    intro y hy
    rw [hw.state, if_neg]
    rintro rfl
    exact hy hxstate
  -- the waiter is in no waiting list any more
  have hnot : ∀ u, Live s u → x ∉ s'.waiting u := by
    intro u hu
    rw [hw.waiting]
    split_ifs with hur
    · subst hur
      rw [hwait]
      have hnd := h.waitingNodup s.running hrun
      rw [hwait] at hnd
      exact (List.nodup_cons.mp hnd).1
    · exact fun hm => hur (h.waitsOnce u s.running x hu hrun hm (by simp [hwait]))
  have hsub : ∀ u, (s'.waiting u).Sublist (s.waiting u) := by
    intro u
    rw [hw.waiting]
    split_ifs with hu
    · exact List.tail_sublist _
    · exact List.Sublist.refl _
  constructor
  case count => exact hw.count ▸ h.count
  case runState => rw [hw.running, hother _ (by rw [h.runState]; decide), h.runState]
  case runLive => exact fun _ _ => by rw [hw.running, hlive]; exact hrun
  case runExited => exact fun h => by cases h
  case ready =>
    intro y hy
    rw [hw.readyList, List.mem_append, List.mem_singleton] at hy
    rw [hlive, hw.running, hw.state]
    rcases hy with hy | rfl
    · obtain ⟨h₁, h₂, h₃⟩ := h.ready y hy
      refine ⟨h₁, h₂, ?_⟩
      split_ifs
      · rfl
      · exact h₃
    · exact ⟨hx, hxne, if_pos rfl⟩
  case blocked =>
    intro y hy
    rw [hw.blockedList] at hy
    obtain ⟨hyx, hy⟩ := (h.blockedNodup.mem_erase_iff).mp hy
    obtain ⟨h₁, h₂, h₃⟩ := h.blocked y hy
    rw [hlive, hw.running, hw.state, if_neg hyx]
    exact ⟨h₁, h₂, h₃⟩
  case readyNodup =>
    rw [hw.readyList, ← List.concat_eq_append]
    exact h.readyNodup.concat hxr
  case blockedNodup =>
    rw [hw.blockedList]
    exact h.blockedNodup.erase x
  case listed =>
    intro y hy hyr
    rw [hw.running] at hyr
    rw [hw.readyList, hw.blockedList, List.mem_append, List.mem_singleton, h.blockedNodup.mem_erase_iff]
    by_cases hyx : y = x
    · exact .inl (.inr hyx)
    · exact (h.listed y ((hlive y).mp hy) hyr).imp .inl fun hm => ⟨hyx, hm⟩
  case master =>
    intro _
    rw [hother 0 (by rw [h.master h₀]; decide), h.master h₀]
  case waiters =>
    intro u y hu hy
    rw [hlive] at hu ⊢
    obtain ⟨h₁, h₂⟩ := h.waiters u y hu ((hsub u).subset hy)
    have hyx : y ≠ x := by
      rintro rfl
      exact hnot u hu hy
    exact ⟨h₁, by rw [hw.state, if_neg hyx, h₂]⟩
  case waitsOnce =>
    intro u w y hu hw' hyu hyw
    exact h.waitsOnce u w y ((hlive u).mp hu) ((hlive w).mp hw') ((hsub u).subset hyu) ((hsub w).subset hyw)
  case waitingNodup => exact fun u hu => (h.waitingNodup u ((hlive u).mp hu)).sublist (hsub u)
  case exited =>
    refine h.exited_kept hw.count hw.trace fun y hy => ?_
    rw [hother y (by rw [hy]; decide), hy]
  case last =>
    intro y hy
    rw [hw.stopped] at hy
    exact (hexited y).mpr (h.last y hy)

/-- **The loop over the waiters** goes through and leaves the waiting list empty. What
one iteration keeps, it keeps. -/
theorem wakeAll_spec {retVal : ℕ} {P : Sched → Prop}
    (hP : ∀ s x xs s', Core .running s → s.running ≠ 0 → s.waiting s.running = x :: xs → Woken retVal s x s' →
      P s → P s') {xs : List ℕ} (h : Core .running s) (h₀ : s.running ≠ 0) (hwait : s.waiting s.running = xs)
    (hs : P s) :
    ∃ s', Sched.wakeAll retVal xs s = some s' ∧ Core .running s' ∧ s'.running = s.running ∧ s'.cont = s.cont ∧
      s'.trace = s.trace ∧ s'.threadIdCount = s.threadIdCount ∧ s'.waiting s'.running = [] ∧ P s' := by
  induction xs generalizing s with
  | nil => exact ⟨s, rfl, h, rfl, rfl, rfl, rfl, hwait, hs⟩
  | cons x xs ih =>
    obtain ⟨s₁, hs₁, hw⟩ := wake_woken retVal h h₀ hwait
    have hwait₁ : s₁.waiting s₁.running = xs := by rw [hw.waiting, hw.running, if_pos rfl, hwait, List.tail_cons]
    obtain ⟨s', hs', hc, hr, hk, ht, hn, he, hp⟩ := ih (hw.core h h₀ hwait) (by rw [hw.running]; exact h₀) hwait₁
      (hP s x xs s₁ h h₀ hwait hw hs)
    refine ⟨s', ?_, hc, hr.trans hw.running, hk.trans hw.cont, ht.trans hw.trace, hn.trans hw.count, he, hp⟩
    rw [Sched.wakeAll, hs₁]
    exact hs'

theorem exited_exit (s : Sched) (retVal x : ℕ) :
    Exited ((s.setState s.running .stopped).note (.exited s.running retVal)) x ↔ Exited s x ∨ x = s.running := by
  rw [exited_note]
  refine or_congr Iff.rfl ⟨?_, ?_⟩
  · rintro ⟨v, hv⟩
    simp only [Event.exited.injEq] at hv
    exact hv.1.symm
  · rintro rfl
    exact ⟨retVal, rfl⟩

theorem live_exit (s : Sched) (retVal x : ℕ) :
    Live ((s.setState s.running .stopped).note (.exited s.running retVal)) x ↔ Live s x ∧ x ≠ s.running := by
  rw [live_iff, live_iff, exited_exit, not_or]
  exact ⟨fun h => ⟨⟨h.1, h.2.1, h.2.2.1⟩, h.2.2.2⟩, fun h => ⟨h.1.1, h.1.2.1, h.1.2.2, h.2⟩⟩

/-- The end of `__quarantine`: the thread has exited. -/
theorem Core.exit (h : Core .running s) (h₀ : s.running ≠ 0) (retVal : ℕ) :
    Core .stopped ((s.setState s.running .stopped).note (.exited s.running retVal)) := by
  set s' := (s.setState s.running .stopped).note (.exited s.running retVal) with hs'
  have hrun : Live s s.running := h.runLive (by decide) h₀
  have hexited : ∀ x, Exited s' x ↔ Exited s x ∨ x = s.running := exited_exit s retVal
  have hlive : ∀ x, Live s' x ↔ Live s x ∧ x ≠ s.running := live_exit s retVal
  have hstate : ∀ x, s'.state x = if x = s.running then .stopped else s.state x := by
    intro x
    rw [hs', state_note, state_setState]
  have hother : ∀ x, x ≠ s.running → s'.state x = s.state x := fun x hx => by rw [hstate, if_neg hx]
  have hwaiting : ∀ x, s'.waiting x = s.waiting x := by
    intro x
    rw [hs', waiting_note, waiting_setState]
  constructor
  case count => exact h.count
  case runState => exact (hstate _).trans (if_pos rfl)
  case runLive => exact fun h => absurd rfl h
  case runExited => exact fun _ => (hexited _).mpr (.inr rfl)
  case ready =>
    intro x hx
    obtain ⟨h₁, h₂, h₃⟩ := h.ready x hx
    exact ⟨(hlive x).mpr ⟨h₁, h₂⟩, h₂, by rw [hother x h₂, h₃]⟩
  case blocked =>
    intro x hx
    obtain ⟨h₁, h₂, h₃⟩ := h.blocked x hx
    exact ⟨(hlive x).mpr ⟨h₁, h₂⟩, h₂, by rw [hother x h₂, h₃]⟩
  case readyNodup => exact h.readyNodup
  case blockedNodup => exact h.blockedNodup
  case listed => exact fun x hx hxr => h.listed x ((hlive x).mp hx).1 hxr
  case master =>
    intro _
    rw [hother 0 h₀.symm, h.master h₀]
  case waiters =>
    intro u x hu hx
    rw [hwaiting] at hx
    obtain ⟨h₁, h₂⟩ := h.waiters u x ((hlive u).mp hu).1 hx
    have hne := (h.mem_blockedList h₁ h₂).2.2
    exact ⟨(hlive x).mpr ⟨h₁, hne⟩, by rw [hother x hne, h₂]⟩
  case waitsOnce =>
    intro u w x hu hw
    rw [hwaiting, hwaiting]
    exact h.waitsOnce u w x ((hlive u).mp hu).1 ((hlive w).mp hw).1
  case waitingNodup =>
    intro u hu
    rw [hwaiting]
    exact h.waitingNodup u ((hlive u).mp hu).1
  case exited =>
    intro x hx
    rw [hstate]
    rcases (hexited x).mp hx with hx | rfl
    · obtain ⟨h₁, h₂, h₃⟩ := h.exited x hx
      refine ⟨h₁, h₂, ?_⟩
      split_ifs
      · rfl
      · exact h₃
    · exact ⟨hrun.pos, hrun.created, if_pos rfl⟩
  case last => exact fun x hx => (hexited x).mpr (.inl (h.last x hx))

end Prelude

/-! ### Whole calls -/

/-- Who may call what: `main` does not join or exit. -/
def Permitted (s : Sched) : Call → Prop
  | .create | .run | .schedule | .yieldTo _ => True
  | .join _ | .exit _ => s.running ≠ 0

instance (s : Sched) (c : Call) : Decidable (Permitted s c) :=
  match c with
  | .create | .run | .schedule | .yieldTo _ => .isTrue trivial
  | .join _ | .exit _ => inferInstanceAs (Decidable (s.running ≠ 0))

/-- The first half of a call: the running thread is at the point where it will go on,
and has the state that says where it belongs. -/
inductive First (s : Sched) : Call → RunState → Sched → Prop where
  /-- `pet_thread_run`. -/
  | run : First s .run .running (s.suspend .run)
  /-- `pet_thread_schedule`. -/
  | schedule : First s .schedule .running (s.suspend .sched)
  /-- `pet_thread_yield_to`. -/
  | yieldTo (threadId : ℕ) : First s (.yieldTo threadId) .running (s.suspend .sched)
  /-- `pet_thread_join`. -/
  | join {threadId : ℕ} {s₁ : Sched} (thread : s.running ≠ 0) (target : threadId ≠ 0)
      (waits : Waits (s.suspend (.join threadId)) threadId s₁) : First s (.join threadId) .blocked s₁
  /-- `__quarantine`. -/
  | exit {retVal : ℕ} {s₁ : Sched} (thread : s.running ≠ 0)
      (woken : Sched.wakeAll retVal (s.waiting s.running) (s.suspend .exited) = some s₁) :
      First s (.exit retVal) .stopped ((s₁.setState s₁.running .stopped).note (.exited s₁.running retVal))

/-- The second half: `main` goes on, or a switch to a thread that can run. Only an empty
ready list, or a call that names it, leads to the master thread. -/
inductive Moved (c : Call) (st : RunState) (s : Sched) : Sched → Prop where
  /-- No switch. -/
  | stay (master : s.running = 0) (ready : s.readyList = []) : Moved c st s s
  /-- A switch. -/
  | switch {t : ℕ} {s' : Sched} (target : Target s t) (switched : Switched st s t s')
      (toMaster : t = 0 → s.readyList = [] ∨ c = .yieldTo 0) : Moved c st s s'

/-- What a call does. -/
inductive CallSpec (s : Sched) (c : Call) : Sched → Prop where
  /-- A thread is created. -/
  | create (call : c = .create) : CallSpec s c s.petThreadCreate
  /-- `pet_thread_join` does not find the thread, and returns `-1`. -/
  | joinFails (threadId : ℕ) (call : c = .join threadId) : CallSpec s c s
  /-- The running thread goes through the scheduler. -/
  | switch {st : RunState} {s₁ s₂ s' : Sched} (first : First s c st s₁) (moved : Moved c st s₁ s₂)
      (resumed : s₂.resume = some s') : CallSpec s c s'

/-- Only a thread that has exited is in `__quarantine`. -/
def ContOk (s : Sched) : Prop := ∀ t, s.cont t = .exited → Exited s t

/-- What is observed when the running thread goes on. -/
def Sched.resumeEvent (s : Sched) : Option Event :=
  match s.cont s.running with
  | .run => some (.runReturned s.readyList)
  | .join threadId => some (.joined s.running threadId (s.thread s.running).returnReciever)
  | _ => none

section Calls

variable {s s₁ s₂ s' : Sched} {c : Call} {st : RunState}

theorem resume_eq_some_iff : s.resume = some s' ↔
    s.cont s.running ≠ .exited ∧ s' = { s.suspend .user with trace := s.trace ++ s.resumeEvent.toList } := by
  unfold Sched.resume Sched.resumeEvent
  cases s.cont s.running <;> simp [Sched.note, Sched.suspend, eq_comm]

theorem exited_resume (h : s.resume = some s') (x : ℕ) : Exited s' x ↔ Exited s x := by
  obtain ⟨-, rfl⟩ := resume_eq_some_iff.mp h
  have hev : ∀ v, .exited x v ∉ s.resumeEvent.toList := by
    intro v
    unfold Sched.resumeEvent
    cases s.cont s.running <;> simp
  simp [Exited, hev]

theorem Core.of_resume (h : Core .running s) (hr : s.resume = some s') : Core .running s' := by
  have hexited := exited_resume hr
  obtain ⟨-, rfl⟩ := resume_eq_some_iff.mp hr
  exact h.congr rfl (fun _ => rfl) (fun _ => rfl) rfl rfl rfl rfl hexited

theorem ContOk.resume (hk : ContOk s) (hr : s.resume = some s') : ContOk s' := by
  intro x hx
  rw [exited_resume hr]
  obtain ⟨-, rfl⟩ := resume_eq_some_iff.mp hr
  simp only [Sched.suspend, Function.update_apply] at hx
  split_ifs at hx with hxr
  exact hk x hx

/-- A thread that runs can go on. -/
theorem Core.resume (h : Core .running s) (hk : ContOk s) : ∃ s', s.resume = some s' := by
  refine ⟨_, resume_eq_some_iff.mpr ⟨fun he => ?_, rfl⟩⟩
  have hex := hk _ he
  exact (h.runLive (by decide) (Nat.pos_iff_ne_zero.mp (h.exited _ hex).1)).unexited hex

theorem Scheduled.moved (hs : Scheduled st s s') (h : Core st s) : Moved c st s s' := by
  cases hs with
  | stay h₀ hr => exact .stay h₀ hr
  | toMaster h₀ hr hsw => exact .switch (.inl ⟨rfl, h₀⟩) hsw fun _ => .inl hr
  | toHead hl hsw =>
    refine .switch (.inr (by simp [hl])) hsw fun h₀ => absurd h.master_notMem ?_
    simp [hl, h₀]

theorem Moved.core (hm : Moved c st s s') (h : Core st s) (hst : st ≠ .ready)
    (hmaster : s.running = 0 → st = .running) : Core .running s' := by
  cases hm with
  | stay h₀ _ =>
    obtain rfl := hmaster h₀
    exact h
  | switch ht hsw _ => exact hsw.core h hst ht hmaster

theorem Moved.cont_eq (hm : Moved c st s s') : s'.cont = s.cont := by
  cases hm with
  | stay _ _ => rfl
  | switch _ hsw _ => exact hsw.cont

theorem Moved.contOk (hm : Moved c st s s') (hk : ContOk s) : ContOk s' := by
  cases hm with
  | stay _ _ => exact hk
  | switch _ hsw _ =>
    intro x hx
    rw [hsw.cont] at hx
    obtain ⟨v, hv⟩ := hk x hx
    exact ⟨v, by rw [hsw.trace]; exact hv⟩

/-- The result of the loop over the waiters. -/
theorem wakeAll_eq {retVal : ℕ} (h : Core .running s) (h₀ : s.running ≠ 0)
    (hw : Sched.wakeAll retVal (s.waiting s.running) (s.suspend .exited) = some s₁) :
    Core .running s₁ ∧ s₁.running = s.running ∧ s₁.cont = (s.suspend .exited).cont ∧ s₁.trace = s.trace ∧
      s₁.threadIdCount = s.threadIdCount ∧ s₁.waiting s₁.running = [] := by
  obtain ⟨s', hs', hc, hr, hk, ht, hn, he, -⟩ := wakeAll_spec (P := fun _ => True)
    (fun _ _ _ _ _ _ _ _ _ => trivial) (h.suspend .exited) h₀ rfl trivial
  obtain rfl := Option.some.inj (hw.symm.trans hs')
  exact ⟨hc, hr, hk, ht, hn, he⟩

/-- The first half of a call leads to the invariant for the state it gives the caller. -/
theorem First.core (hf : First s c st s₁) (h : Core .running s) :
    Core st s₁ ∧ s₁.running = s.running ∧ st ≠ .ready ∧ (s₁.running = 0 → st = .running) := by
  cases hf with
  | run => exact ⟨h.suspend _, rfl, by decide, fun _ => rfl⟩
  | schedule => exact ⟨h.suspend _, rfl, by decide, fun _ => rfl⟩
  | yieldTo threadId => exact ⟨h.suspend _, rfl, by decide, fun _ => rfl⟩
  | join h₀ _ hw =>
    refine ⟨hw.core (h.suspend _) h₀, hw.running, by decide, fun h' => ?_⟩
    rw [hw.running] at h'
    exact absurd h' h₀
  | exit h₀ hw =>
    obtain ⟨hc, hr, -⟩ := wakeAll_eq h h₀ hw
    exact ⟨hc.exit (by rw [hr]; exact h₀) _, hr, by decide, fun h' => absurd (hr.symm.trans h') h₀⟩

theorem ContOk.suspend {k : Cont} (hk : ContOk s) (hne : k ≠ .exited) : ContOk (s.suspend k) := by
  intro x hx
  simp only [Sched.suspend, Function.update_apply] at hx
  split_ifs at hx with hxr
  · exact absurd hx hne
  · exact hk x hx

theorem First.contOk (hf : First s c st s₁) (h : Core .running s) (hk : ContOk s) : ContOk s₁ := by
  cases hf with
  | run => exact hk.suspend (by decide)
  | schedule => exact hk.suspend (by decide)
  | yieldTo threadId => exact hk.suspend (by decide)
  | @join threadId _ _ _ hw =>
    intro x hx
    rw [hw.cont] at hx
    obtain ⟨v, hv⟩ := hk.suspend (k := .join threadId) (by simp) x hx
    exact ⟨v, by rw [hw.trace]; exact hv⟩
  | @exit retVal s₀ h₀ hw =>
    obtain ⟨-, hr, hcont, htrace, -⟩ := wakeAll_eq h h₀ hw
    intro x hx
    rw [exited_note]
    have hx' : (s.suspend .exited).cont x = .exited := by
      rw [← hcont]
      exact hx
    simp only [Sched.suspend, Function.update_apply] at hx'
    split_ifs at hx' with hxr
    · exact .inr ⟨_, by rw [hr, hxr]⟩
    · obtain ⟨v, hv⟩ := hk x hx'
      refine .inl ⟨v, ?_⟩
      show _ ∈ s₀.trace
      rw [htrace]
      exact hv

theorem ContOk.create (hk : ContOk s) : ContOk s.petThreadCreate := by
  intro x hx
  rw [cont_petThreadCreate] at hx
  split_ifs at hx
  exact hk x hx

/-- The invariant holds again when user code runs. -/
theorem CallSpec.core (hs : CallSpec s c s') (h : Core .running s) (hk : ContOk s) :
    Core .running s' ∧ ContOk s' := by
  cases hs with
  | create _ =>
    exact ⟨h.create, hk.create⟩
  | joinFails _ _ => exact ⟨h, hk⟩
  | switch hf hm hr =>
    obtain ⟨hc, -, hst, hmaster⟩ := hf.core h
    exact ⟨(hm.core hc hst hmaster).of_resume hr, (hm.contOk (hf.contOk h hk)).resume hr⟩

/-- A call that has done its first half comes to an end. -/
theorem First.finish (hf : First s c st s₁) (h : Core .running s) (hk : ContOk s) {o : Option Sched}
    (hm : ∃ s₂, o = some s₂ ∧ Moved c st s₁ s₂) : ∃ s', o.bind Sched.resume = some s' ∧ CallSpec s c s' := by
  obtain ⟨s₂, rfl, hm⟩ := hm
  obtain ⟨hc, -, hst, hmaster⟩ := hf.core h
  obtain ⟨s', hs'⟩ := (hm.core hc hst hmaster).resume (hm.contOk (hf.contOk h hk))
  exact ⟨s', hs', .switch hf hm hs'⟩

theorem Core.moved (h : Core st s) (hst : st ≠ .ready) : ∃ s', s.petThreadSchedule = some s' ∧ Moved c st s s' := by
  obtain ⟨s', hs', hm⟩ := h.petThreadSchedule hst
  exact ⟨s', hs', hm.moved h⟩

/-- `__quarantine` marks the thread when the loop over its waiters is done. -/
theorem quarantine_eq {retVal : ℕ} (h₀ : s.running ≠ 0)
    (hw : Sched.wakeAll retVal (s.waiting s.running) (s.suspend .exited) = some s₁) (hc : Core .running s₁)
    (hempty : s₁.waiting s₁.running = []) :
    (s.suspend .exited).quarantine retVal =
      some ((s₁.setState s₁.running .stopped).note (.exited s₁.running retVal)) := by
  have hw' : Sched.wakeAll retVal ((s.suspend .exited).thread (s.suspend .exited).running).waitingForMe
    (s.suspend .exited) = some s₁ := hw
  have hempty' : (s₁.thread s₁.running).waitingForMe = [] := hempty
  have hst : (s₁.thread s₁.running).state = .running := hc.runState
  rw [Sched.quarantine, if_neg (by exact h₀), hw', Option.bind_some, if_neg (by simp [hempty', hst])]

/-- **What a call does.** Every permitted call goes through, a join on the master thread
apart: no `assert` fails and no `NULL` is dereferenced. -/
theorem Core.call (h : Core .running s) (hk : ContOk s) (hp : Permitted s c) (hjoin : c ≠ .join 0) :
    ∃ s', s.call c = some s' ∧ CallSpec s c s' := by
  cases c with
  | create => exact ⟨_, rfl, .create rfl⟩
  | run => exact First.run.finish h hk ((h.suspend _).moved (by decide))
  | schedule => exact First.schedule.finish h hk ((h.suspend _).moved (by decide))
  | yieldTo threadId =>
    refine (First.yieldTo threadId).finish h hk ?_
    have hc := h.suspend .sched
    rw [getThread_eq]
    split_ifs with hfound
    · simp only [Sched.yieldTo]
      split_ifs with hready
      · exact hc.moved (by decide)
      · -- of the threads `get_thread` finds, the master thread and those of the ready list can be ready
        have hready' : s.state threadId = .ready := not_not.mp hready
        have ht : Target (s.suspend .sched) threadId := by
          rcases hfound with h₀ | hr | hl | hm | hm
          · refine .inl ⟨h₀, fun hr => ?_⟩
            have hrun := h.runState
            rw [show s.running = threadId from hr.trans h₀.symm, hready'] at hrun
            cases hrun
          · have hrun := h.runState
            rw [hr, hready'] at hrun
            cases hrun
          · have hstop := (h.exited _ (h.last _ hl)).2.2
            rw [hready'] at hstop
            cases hstop
          · exact .inr hm
          · have hblock := (h.blocked _ hm).2.2
            rw [hready'] at hblock
            cases hblock
        obtain ⟨s₂, hs₂, hsw⟩ := hc.threadInvoker (by decide) ht
        exact ⟨s₂, hs₂, .switch ht hsw fun h₀ => .inr (by rw [h₀])⟩
    · exact hc.moved (by decide)
  | join threadId =>
    have h₀ : threadId ≠ 0 := fun h₀ => hjoin (by rw [h₀])
    simp only [Sched.call, getThread_eq]
    split_ifs with hfound
    · obtain ⟨s₁, hs₁, hw⟩ := waitFor_waits (s := s.suspend (.join threadId)) h.runState h₀
      have hf : First s (.join threadId) .blocked s₁ := .join hp h₀ hw
      simp only [hs₁, Option.bind_some]
      exact hf.finish h hk ((hf.core h).1.moved (by decide))
    · exact ⟨s, rfl, .joinFails threadId rfl⟩
  | exit retVal =>
    have hrun : s.running ≠ 0 := hp
    obtain ⟨s₁, hs₁, hc, hr, -, -, -, he, -⟩ := wakeAll_spec (P := fun _ => True)
      (fun _ _ _ _ _ _ _ _ _ => trivial) (h.suspend .exited) hrun rfl trivial
    have hf : First s (.exit retVal) .stopped _ := .exit hrun hs₁
    simp only [Sched.call, quarantine_eq hrun hs₁ hc he, Option.bind_some]
    exact hf.finish h hk ((hf.core h).1.moved (by decide))

/-! ### Whenever user code runs -/

/-- What holds whenever user code runs, in runs in which `main` does not join or exit. -/
structure RunInv (s : Sched) : Prop where
  /-- The scheduler invariant. -/
  core : Core .running s
  /-- Only a thread that has exited is in `__quarantine`. -/
  cont : ContOk s

theorem runInv_petThreadInit : RunInv petThreadInit where
  core := core_petThreadInit
  cont := fun t ht => by simp [petThreadInit] at ht

/-- A join on the master thread does not return. -/
theorem call_join_zero (s : Sched) : s.call (.join 0) = none := by
  simp [Sched.call, Sched.getThread, Sched.waitFor, masterId]

/-- A step is a call that goes through. -/
theorem RunInv.callSpec (h : RunInv s) (hp : Permitted s c) (hstep : Step s c s') : CallSpec s c s' := by
  have hjoin : c ≠ .join 0 := by
    rintro rfl
    rw [Step, call_join_zero] at hstep
    cases hstep
  obtain ⟨s'', hs'', hspec⟩ := h.core.call h.cont hp hjoin
  obtain rfl := Option.some.inj (hstep.symm.trans hs'')
  exact hspec

theorem RunInv.step (h : RunInv s) (hs : CallSpec s c s') : RunInv s' := by
  obtain ⟨hcore, hcont⟩ := hs.core h.core h.cont
  exact ⟨hcore, hcont⟩

theorem runInv_of_run {calls : List Call} (h : Exec (Guard Permitted Step) petThreadInit calls s) : RunInv s :=
  h.inv runInv_petThreadInit fun _ _ _ hI hstep => hI.step (hI.callSpec hstep.1 hstep.2)

end Calls

end PetLab.Threads
