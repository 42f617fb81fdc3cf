import PetLab.Threads.Reclaim

/-!
# When `main` joins

`main` is kept out of the queues in some places: `__thread_invoker` does not take it out of
the ready list when it dispatches it, and does not put it there when it leaves it running. In
others it is not: a join puts it into the blocked list, and the exit of the thread it waits
for moves it to the ready list. So a join of `main` never ends well. It returns at once, and
before the thread has exited, when nobody is ready. Otherwise `main` is away, blocked or in the ready
list (`Out`), and comes back only out of the ready list, where it stays (`Out.step`);
or the ready list runs empty while it is blocked, and the `assert` of `__thread_invoker`
fails.

`mainJoin_never` puts this together: whatever happened before, and whichever thread is joined, the contract
of a join (`MainJoinMeets`) is broken, even if the other threads do nothing but exit.
-/

namespace PetLab.Threads

open PetLab.Lib

/-- A call of another thread while `main` is inside its join. -/
def Meanwhile (s : Sched) (c : Call) : Prop := s.running ≠ 0 ∧ Allowed s c

/-- What `pet_thread_join(t, &r)` in `main` should do, whatever the other threads do meanwhile:
no `assert` fails before it returns, and it returns when `t` has exited, with its value, and with `main`
running and in neither queue. -/
def MainJoinMeets (s : Sched) (t : ℕ) : Prop :=
  ∃ s₁, Step s (.join t) s₁ ∧ ∀ calls s', Exec (Guard Meanwhile Step) s₁ calls s' →
    (∀ c, Meanwhile s' c → ∃ s'', Step s' c s'') ∧
    (s'.running = 0 → (∃ r events, s'.trace = events ++ [.joined 0 t r] ∧ .exited t r ∈ events) ∧
      s'.state 0 = .running ∧ 0 ∉ s'.readyList ∧ 0 ∉ s'.blockedList)

/-- `main` is away: it is blocked, or ready and in the ready list. -/
structure Out (s : Sched) : Prop where
  /-- No thread is given its id. -/
  count : 0 < s.threadIdCount
  away : s.state 0 = .blocked ∨ s.state 0 = .ready ∧ 0 ∈ s.readyList

/-- How many times the threads in the queues can be moved on: from the blocked list to the ready list, and
out of that. -/
def Sched.load (s : Sched) : ℕ := s.readyList.length + 2 * s.blockedList.length

/-- The first half of a call that goes through the scheduler, whoever makes it. -/
inductive Begun (s : Sched) : Call → Sched → Prop where
  /-- `pet_thread_run`. -/
  | run : Begun s .run (s.suspend .run)
  /-- `pet_thread_schedule`. -/
  | schedule : Begun s .schedule (s.suspend .sched)
  /-- `pet_thread_yield_to`. -/
  | yieldTo (threadId : ℕ) : Begun s (.yieldTo threadId) (s.suspend .sched)
  /-- `pet_thread_join`. -/
  | join {t : ℕ} {s₁ : Sched} (waits : (s.suspend (.join t)).waitFor t = some s₁) : Begun s (.join t) s₁
  /-- `__quarantine`. -/
  | exit {retVal : ℕ} {s₁ : Sched} (marked : (s.suspend .exited).quarantine retVal = some s₁) :
      Begun s (.exit retVal) s₁

/-- The second half: through `pet_thread_schedule`, or straight to the thread that the call names. -/
def HandsOver (c : Call) (s₁ s₂ : Sched) : Prop :=
  s₁.petThreadSchedule = some s₂ ∨ ∃ t, c = .yieldTo t ∧ s₁.threadInvoker t = some s₂

section

variable {s s₁ s₂ s' : Sched} {t : ℕ} {c : Call}

/-- **What a step is**, whatever the state it is taken in. -/
theorem step_cases (h : Step s c s') :
    (c = .create ∧ s' = s.petThreadCreate) ∨ (∃ threadId, c = .join threadId ∧ s' = s) ∨
      ∃ s₁ s₂, Begun s c s₁ ∧ HandsOver c s₁ s₂ ∧ s₂.resume = some s' := by
  cases c with
  | create => exact .inl ⟨rfl, (Option.some.inj h).symm⟩
  | run =>
    obtain ⟨s₂, hs₂, hr⟩ := Option.bind_eq_some_iff.mp h
    exact .inr (.inr ⟨_, s₂, .run, .inl hs₂, hr⟩)
  | schedule =>
    obtain ⟨s₂, hs₂, hr⟩ := Option.bind_eq_some_iff.mp h
    exact .inr (.inr ⟨_, s₂, .schedule, .inl hs₂, hr⟩)
  | yieldTo threadId =>
    obtain ⟨s₂, hs₂, hr⟩ := Option.bind_eq_some_iff.mp h
    refine .inr (.inr ⟨_, s₂, .yieldTo threadId, ?_, hr⟩)
    rw [getThread_eq] at hs₂
    unfold Sched.yieldTo at hs₂
    split_ifs at hs₂
    · simp only at hs₂
      split_ifs at hs₂
      · exact .inl hs₂
      · exact .inr ⟨threadId, rfl, hs₂⟩
    · exact .inl hs₂
  | join threadId =>
    simp only [Step, Sched.call, getThread_eq] at h
    split_ifs at h
    · obtain ⟨s₁, hs₁, h⟩ := Option.bind_eq_some_iff.mp h
      obtain ⟨s₂, hs₂, hr⟩ := Option.bind_eq_some_iff.mp h
      exact .inr (.inr ⟨s₁, s₂, .join hs₁, .inl hs₂, hr⟩)
    · exact .inr (.inl ⟨threadId, rfl, (Option.some.inj h).symm⟩)
  | exit retVal =>
    obtain ⟨s₁, hs₁, h⟩ := Option.bind_eq_some_iff.mp h
    obtain ⟨s₂, hs₂, hr⟩ := Option.bind_eq_some_iff.mp h
    exact .inr (.inr ⟨s₁, s₂, .exit hs₁, .inl hs₂, hr⟩)

/-- The thread switched to is in place, and who was freed does not matter here. -/
theorem threadInvoker_switched (h : s.threadInvoker t = some s') :
    ∃ u freed, SwitchedTo s t u ∧ s' = { u with freed := freed } := by
  rw [threadInvoker_eq] at h
  obtain ⟨u, hu, hclean⟩ := Option.bind_eq_some_iff.mp h
  exact ⟨u, _, switchTo_spec hu, petThreadCleanup_spec hclean⟩

/-- **What the second half does**: `main` goes on if nobody is ready, or there is a switch, to the master thread
if nobody is ready, to the first of the ready list or to the thread that the call names. -/
theorem HandsOver.cases (h : HandsOver c s s') :
    (s' = s ∧ s.running = 0 ∧ s.readyList = []) ∨
      ∃ t u freed, SwitchedTo s t u ∧ s' = { u with freed := freed } ∧
        ((t = 0 ∧ s.readyList = [] ∧ s.running ≠ 0) ∨ s.readyList.head? = some t ∨ c = .yieldTo t) := by
  rcases h with hs | ⟨t, hc, hs⟩
  · unfold Sched.petThreadSchedule masterId at hs
    cases hl : s.readyList with
    | nil =>
      simp only [hl] at hs
      split_ifs at hs with h₀
      · obtain ⟨u, freed, hsw, hs'⟩ := threadInvoker_switched hs
        exact .inr ⟨0, u, freed, hsw, hs', .inl ⟨rfl, rfl, h₀⟩⟩
      · exact .inl ⟨(Option.some.inj hs).symm, not_not.mp h₀, rfl⟩
    | cons pos rest =>
      simp only [hl] at hs
      split_ifs at hs
      obtain ⟨u, freed, hsw, hs'⟩ := threadInvoker_switched hs
      exact .inr ⟨pos, u, freed, hsw, hs', .inr (.inl rfl)⟩
  · obtain ⟨u, freed, hsw, hs'⟩ := threadInvoker_switched hs
    exact .inr ⟨t, u, freed, hsw, hs', .inr (.inr hc)⟩

/-- The state of `main` and its place in the ready list decide. -/
theorem Out.congr (h : Out s) (hcount : s'.threadIdCount = s.threadIdCount) (hstate : s'.state 0 = s.state 0)
    (hready : 0 ∈ s.readyList → 0 ∈ s'.readyList) : Out s' :=
  ⟨hcount ▸ h.count, h.away.imp hstate.trans fun ha => ⟨hstate.trans ha.1, hready ha.2⟩⟩

/-! ### Waking -/

theorem listDel_lists (h : s.listDel t = some s₁) :
    s₁.load + 1 ≤ s.load ∧ ∀ x, x ≠ t → x ∈ s.readyList → x ∈ s₁.readyList := by
  unfold Sched.listDel at h
  unfold Sched.load
  split_ifs at h with hr hb
  · obtain rfl := Option.some.inj h
    have hlen := List.length_erase_of_mem hr
    have hpos := List.length_pos_of_mem hr
    exact ⟨by simp only; omega, fun x hx hm => (List.mem_erase_of_ne hx).mpr hm⟩
  · obtain rfl := Option.some.inj h
    have hlen := List.length_erase_of_mem hb
    have hpos := List.length_pos_of_mem hb
    exact ⟨by simp only; omega, fun x _ hm => hm⟩

/-- If `main` is woken, it is in the ready list from then on. -/
theorem Out.wake {retVal waiter : ℕ} (h : Out s) (hrun : s.running ≠ 0) (hw : s.wake retVal waiter = some s') :
    Out s' ∧ s'.load ≤ s.load := by
  have hkept := (wake_quiet hw).2
  unfold Sched.wake at hw
  split_ifs at hw with hblocked
  obtain ⟨s₁, hdel, rfl⟩ := Option.map_eq_some_iff.mp hw
  obtain ⟨hload, hready⟩ := listDel_lists hdel
  have hsame := (listDel_spec hdel).1
  refine ⟨?_, ?_⟩
  · by_cases hmain : waiter = 0
    · subst hmain
      refine ⟨hsame.count ▸ h.count, .inr ⟨?_, List.mem_append.mpr (.inr (List.mem_singleton_self 0))⟩⟩
      rw [state_modify, if_neg (by rw [hsame.running]; exact Ne.symm hrun)]
      show (s₁.thread 0).state = _
      rw [hsame.thread]
      exact (state_modify s 0 0 _).trans (if_pos rfl)
    · refine h.congr hsame.count ?_ fun hm => List.mem_append.mpr (.inl (hready 0 (Ne.symm hmain) hm))
      rw [state_modify, if_neg (by rw [hsame.running]; exact Ne.symm hrun)]
      show (s₁.thread 0).state = _
      rw [hsame.thread]
      exact (state_modify s waiter 0 _).trans (if_neg (Ne.symm hmain))
  · have hload' : s₁.load + 1 ≤ s.load := hload
    unfold Sched.load at hload' ⊢
    show (s₁.readyList ++ [waiter]).length + 2 * s₁.blockedList.length ≤ _
    rw [List.length_append, List.length_singleton]
    omega

theorem Out.wakeAll {retVal : ℕ} {waiters : List ℕ} (h : Out s) (hrun : s.running ≠ 0)
    (hw : Sched.wakeAll retVal waiters s = some s') : Out s' ∧ s'.load ≤ s.load := by
  induction waiters generalizing s with
  | nil =>
    obtain rfl := Option.some.inj hw
    exact ⟨h, le_rfl⟩
  | cons waiter waiters ih =>
    obtain ⟨s₁, hs₁, hw⟩ := Option.bind_eq_some_iff.mp hw
    obtain ⟨h₁, hle⟩ := h.wake hrun hs₁
    obtain ⟨h', hle'⟩ := ih h₁ (by rw [(wake_quiet hs₁).1.1]; exact hrun) hw
    exact ⟨h', hle'.trans hle⟩

/-! ### Calls of the other threads -/

/-- The first half of an exit. -/
theorem Out.quarantine {retVal : ℕ} (h : Out s) (hrun : s.running ≠ 0)
    (hq : (s.suspend .exited).quarantine retVal = some s₁) : Out s₁ ∧ s₁.load ≤ s.load := by
  unfold Sched.quarantine at hq
  split_ifs at hq with h₀
  obtain ⟨s₀, hw, hq⟩ := Option.bind_eq_some_iff.mp hq
  split_ifs at hq
  obtain rfl := Option.some.inj hq
  have hsuspend : Out (s.suspend .exited) := ⟨h.count, h.away⟩
  obtain ⟨hout, hle⟩ := hsuspend.wakeAll hrun hw
  have hr : s₀.running = s.running := (wakeAll_quiet hw).1.1
  refine ⟨hout.congr rfl ?_ id, hle⟩
  rw [state_note, state_setState, if_neg (by rw [hr]; exact Ne.symm hrun)]

/-- The first half of a join. -/
theorem Out.waitFor {k : Cont} (h : Out s) (hrun : s.running ≠ 0) (hw : (s.suspend k).waitFor t = some s₁) :
    Out s₁ := by
  obtain ⟨-, -, hwaits⟩ := waits_of_waitFor hw
  exact h.congr hwaits.count ((hwaits.state 0).trans (if_neg (by exact Ne.symm hrun)))
    fun hm => hwaits.lists.1 ▸ hm

theorem Out.begun (h : Out s) (hrun : s.running ≠ 0) (hb : Begun s c s₁) : Out s₁ ∧ s₁.running = s.running := by
  cases hb with
  | run => exact ⟨⟨h.count, h.away⟩, rfl⟩
  | schedule => exact ⟨⟨h.count, h.away⟩, rfl⟩
  | yieldTo _ => exact ⟨⟨h.count, h.away⟩, rfl⟩
  | join hw => exact ⟨h.waitFor hrun hw, (quiet_waitFor hw).1.running⟩
  | exit hq => exact ⟨(h.quarantine hrun hq).1, (quiet_quarantine hq).1.running⟩

/-- A switch may add the thread left to the ready list, but does not take `main` out. -/
theorem SwitchedTo.keeps_main {u : Sched} (hsw : SwitchedTo s t u) (hm : 0 ∈ s.readyList) : 0 ∈ u.readyList := by
  rw [hsw.readyList]
  refine List.mem_append.mpr (.inl ?_)
  split_ifs with ht
  · exact hm
  · exact (List.mem_erase_of_ne (Ne.symm ht)).mpr hm

/-- A switch: `main` comes back out of the ready list, and stays there, or is still away. -/
theorem Out.handsOver (h : Out s) (hrun : s.running ≠ 0) (hl : HandsOver c s s') :
    (s'.running = 0 ∧ 0 ∈ s'.readyList) ∨ (s'.running ≠ 0 ∧ Out s') := by
  obtain ⟨t, u, freed, hsw, rfl, -⟩ := hl.cases.resolve_left fun hs => hrun hs.2.1
  by_cases ht : t = 0
  · subst ht
    refine .inl ⟨hsw.running, hsw.keeps_main ?_⟩
    rcases h.away with hb | ⟨-, hm⟩
    · rw [hsw.ready] at hb
      cases hb
    · exact hm
  · refine .inr ⟨hsw.running.trans_ne ht, h.congr hsw.count ?_ hsw.keeps_main⟩
    refine (hsw.state 0).trans ?_
    rw [if_neg (Ne.symm ht), if_neg fun h => hrun h.1.symm]

theorem Out.create (h : Out s) : Out s.petThreadCreate := by
  have hstate : s.petThreadCreate.state 0 = s.state 0 := by rw [state_petThreadCreate, if_neg h.count.ne]
  exact ⟨Nat.succ_pos _, h.away.imp hstate.trans fun ha =>
    ⟨hstate.trans ha.1, List.mem_append.mpr (.inl ha.2)⟩⟩

/-- **One call** of another thread: `main` is back and in the ready list, or is still away. -/
theorem Out.step (h : Out s) (hrun : s.running ≠ 0) (hstep : Step s c s') :
    (s'.running = 0 ∧ 0 ∈ s'.readyList) ∨ (s'.running ≠ 0 ∧ Out s') := by
  rcases step_cases hstep with ⟨-, rfl⟩ | ⟨_, -, rfl⟩ | ⟨s₁, s₂, hb, hl, hr⟩
  · exact .inr ⟨hrun, h.create⟩
  · exact .inr ⟨hrun, h⟩
  · obtain ⟨h₁, hr₁⟩ := h.begun hrun hb
    have hcases := h₁.handsOver (by rw [hr₁]; exact hrun) hl
    -- where the thread switched to goes on does not matter
    obtain ⟨-, rfl⟩ := resume_eq_some_iff.mp hr
    exact hcases.imp id fun ho => ⟨ho.1, ho.2.count, ho.2.away⟩

/-- When `main` is back, it is in the ready list. -/
theorem Out.exec {calls : List Call} (h : Out s) (hrun : s.running ≠ 0)
    (he : Exec (Guard Meanwhile Step) s calls s') :
    (s'.running = 0 ∧ 0 ∈ s'.readyList) ∨ (s'.running ≠ 0 ∧ Out s') := by
  refine he.inv (I := fun u => (u.running = 0 ∧ 0 ∈ u.readyList) ∨ (u.running ≠ 0 ∧ Out u)) (.inr ⟨hrun, h⟩)
    fun u c u' hu hstep => ?_
  rcases hu with hback | ⟨hr, hout⟩
  · exact absurd hback.1 hstep.1.1
  · exact hout.step hr hstep.2

/-! ### If the threads only exit -/

/-- An exit that does not bring `main` back leaves less to do. -/
theorem Out.load_exit {retVal : ℕ} (h : Out s) (hrun : s.running ≠ 0) (hstep : Step s (.exit retVal) s')
    (hrun' : s'.running ≠ 0) : s'.load < s.load := by
  obtain ⟨s₁, hs₁, hstep⟩ := Option.bind_eq_some_iff.mp hstep
  obtain ⟨s₂, hs₂, hr⟩ := Option.bind_eq_some_iff.mp hstep
  obtain ⟨hq, hst⟩ := quiet_quarantine hs₁
  have hle := (h.quarantine hrun hs₁).2
  obtain ⟨t, ht⟩ := petThreadSchedule_switches (by rw [hq.running]; exact hrun) hs₂
  rw [threadInvoker_eq] at ht
  obtain ⟨u, hu, hclean⟩ := Option.bind_eq_some_iff.mp ht
  have hsame : s'.load = u.load ∧ s'.running = t := by
    obtain ⟨-, rfl⟩ := resume_eq_some_iff.mp hr
    rw [petThreadCleanup_spec hclean]
    exact ⟨rfl, (switchTo_spec hu).running⟩
  obtain ⟨hload, hrunning⟩ := hsame
  rw [hrunning] at hrun'
  unfold Sched.switchTo masterId at hu
  split_ifs at hu with hassert
  obtain ⟨s₃, hdel, rfl⟩ := Option.map_eq_some_iff.mp hu
  have hlt := (listDel_lists hdel).1
  -- a thread that has exited is not put into a queue
  have hput : (({ s₃ with running := t } : Sched).putOld s₁.running).load = s₃.load := by
    have hst₃ : (s₃.thread s₁.running).state = .stopped := by
      rw [(listDel_spec hdel).1.thread, hq.running]
      exact hst
    simp only [Sched.putOld, hst₃]
    rfl
  have hu' : ((({ s₃ with running := t } : Sched).putOld s₁.running).setState t .running).load = s₃.load := hput
  omega

/-- If every thread exits when it runs, `main` comes back or an `assert` fails. -/
theorem Out.exists_end (h : Out s) (hrun : s.running ≠ 0) :
    ∃ calls s', Exec (Guard Meanwhile Step) s calls s' ∧
      (s'.running = 0 ∨ (s'.running ≠ 0 ∧ s'.call (.exit 0) = none)) := by
  induction hm : s.load using Nat.strongRecOn generalizing s with
  | ind m ih =>
    cases hstep : s.call (.exit 0) with
    | none => exact ⟨[], s, .nil, .inr ⟨hrun, hstep⟩⟩
    | some s' =>
      have hmean : Meanwhile s (.exit 0) := ⟨hrun, hrun, by simp⟩
      by_cases hrun' : s'.running = 0
      · exact ⟨[.exit 0], s', .single ⟨hmean, hstep⟩, .inl hrun'⟩
      · have hout : Out s' := ((h.step hrun hstep).resolve_left fun hb => hrun' hb.1).2
        obtain ⟨calls, s'', he, hend⟩ := ih s'.load (hm ▸ h.load_exit hrun hstep hrun') hout hrun' rfl
        exact ⟨.exit 0 :: calls, s'', exec_cons_iff.mpr ⟨s', ⟨hmean, hstep⟩, he⟩, hend⟩

/-! ### The join -/

/-- The call itself: nobody is ready and it returns at once, or `main` is away. -/
theorem Core.mainJoin_handsOver (h : Core .running s) (h₀ : s.running = 0) (hw : Waits (s.suspend (.join t)) t s₁)
    (hl : HandsOver (.join t) s₁ s₂) : (s₂ = s₁ ∧ s.readyList = []) ∨ (s₂.running ≠ 0 ∧ Out s₂) := by
  have hready : s₁.readyList = s.readyList := hw.lists.1
  have hrun₁ : s₁.running = 0 := hw.running.trans h₀
  have hstate₁ : s₁.state 0 = .blocked := by
    rw [hw.state, if_pos (by exact h₀.symm)]
  rcases hl.cases with ⟨hs₂, -, hempty⟩ | ⟨p, u, freed, hsw, rfl, hto⟩
  · exact .inl ⟨hs₂, hready ▸ hempty⟩
  · have hp : p ∈ s.readyList := by
      rcases hto with hto | hto | hto
      · exact absurd hrun₁ hto.2.2
      · exact hready ▸ List.mem_of_mem_head? hto
      · cases hto
    have hp₀ : p ≠ 0 := Nat.pos_iff_ne_zero.mp (h.ready p hp).1.pos
    refine .inr ⟨hsw.running.trans_ne hp₀, ?_, .inl ?_⟩
    · show 0 < u.threadIdCount
      rw [hsw.count, hw.count]
      exact h.count
    · refine (hsw.state 0).trans ?_
      rw [if_neg (Ne.symm hp₀), if_neg, hstate₁]
      rintro ⟨-, hst⟩
      rw [hrun₁, hstate₁] at hst
      cases hst

/-- So it returns before the thread has exited, or `main` is away. -/
theorem Core.mainJoin (h : Core .running s) (h₀ : s.running = 0) (ht : Live s t) (hstep : Step s (.join t) s₁) :
    (s₁.running = 0 ∧ ¬ Exited s₁ t) ∨ (s₁.running ≠ 0 ∧ Out s₁) := by
  rcases step_cases hstep with ⟨hc, -⟩ | ⟨_, -, rfl⟩ | ⟨s₂, s₃, hb, hl, hr⟩
  · cases hc
  · exact .inl ⟨h₀, ht.unexited⟩
  · cases hb with
    | join hjoin =>
      obtain ⟨-, -, hw⟩ := waits_of_waitFor hjoin
      have hexited := exited_resume hr
      have hcases := h.mainJoin_handsOver h₀ hw hl
      obtain ⟨-, rfl⟩ := resume_eq_some_iff.mp hr
      rcases hcases with ⟨rfl, -⟩ | ⟨hrun, hout⟩
      · refine .inl ⟨hw.running.trans h₀, ?_⟩
        rw [hexited, exited_congr hw.trace]
        exact ht.unexited
      · exact .inr ⟨hrun, hout.count, hout.away⟩

/-- However a join of `main` returns: the thread has not exited, or `main` is in the ready list. -/
theorem Core.mainJoin_returned (h : Core .running s) (h₀ : s.running = 0) (ht : Live s t)
    (hstep : Step s (.join t) s₁) {calls : List Call} (he : Exec (Guard Meanwhile Step) s₁ calls s')
    (hback : s'.running = 0) : ¬ Exited s' t ∨ 0 ∈ s'.readyList := by
  rcases h.mainJoin h₀ ht hstep with ⟨hrun₁, hnot⟩ | ⟨hrun₁, hout⟩
  · -- `main` has not been away
    have hstay : s' = s₁ := he.inv (I := fun u => u = s₁) rfl fun u c u' hu hnext => by
      subst hu
      exact absurd hrun₁ hnext.1.1
    subst hstay
    exact .inl hnot
  · rcases hout.exec hrun₁ he with hb | hb
    · exact .inr hb.2
    · exact absurd hback hb.1

end

/-- **`main` cannot join.** Whatever happened before, as long as `main` has not joined, and whichever created thread
that has not exited it joins: no run in which the call returns meets the contract, since the thread has not exited
or `main` is left in the ready list; and there is a run in which it returns or an `assert` fails. -/
theorem mainJoin_never (calls : List Call) (s : Sched) (t : ℕ) (h : Exec (Guard Permitted Step) petThreadInit calls s)
    (h₀ : s.running = 0) (ht : Live s t) :
    (∀ s₁ calls' s', Step s (.join t) s₁ → Exec (Guard Meanwhile Step) s₁ calls' s' → s'.running = 0 →
      ¬ Exited s' t ∨ 0 ∈ s'.readyList) ∧
    ¬ MainJoinMeets s t := by
  have hI := runInv_of_run h
  have hreturned : ∀ s₁ calls' s', Step s (.join t) s₁ → Exec (Guard Meanwhile Step) s₁ calls' s' → s'.running = 0 →
      ¬ Exited s' t ∨ 0 ∈ s'.readyList := fun s₁ calls' s' hstep he hback =>
    hI.core.mainJoin_returned h₀ ht hstep he hback
  refine ⟨hreturned, ?_⟩
  rintro ⟨s₁, hstep, hmeets⟩
  have hgood : ∀ calls' s', Exec (Guard Meanwhile Step) s₁ calls' s' → s'.running ≠ 0 := by
    intro calls' s' he hback
    obtain ⟨⟨r, events, htrace, hmem⟩, -, hnot, -⟩ := (hmeets calls' s' he).2 hback
    refine (hreturned s₁ calls' s' hstep he hback).elim (fun hex => hex ⟨r, ?_⟩) hnot
    rw [htrace]
    exact List.mem_append.mpr (.inl hmem)
  have hout : Out s₁ := ((hI.core.mainJoin h₀ ht hstep).resolve_left fun hb => hgood [] s₁ .nil hb.1).2
  obtain ⟨calls', s', he, hback | ⟨hrun, hfail⟩⟩ := hout.exists_end (hgood [] s₁ .nil)
  · exact hgood calls' s' he hback
  · obtain ⟨s'', hs''⟩ := (hmeets calls' s' he).1 (.exit 0) ⟨hrun, hrun, by simp⟩
    rw [Step, hfail] at hs''
    cases hs''

/-- Two threads wait for each other and `pet_thread_run` has returned: a join of `main` on one of them cannot
meet the contract. -/
theorem mainJoin_never_deadlock : ∃ s, Exec (Guard Permitted Step) petThreadInit
    [.create, .create, .run, .join 2, .join 1] s ∧ s.running = 0 ∧ Live s 1 ∧ ¬ MainJoinMeets s 1 := by
  have hrun : (guardedRun Permitted Sched.call petThreadInit [.create, .create, .run, .join 2, .join 1]).map
      (fun s => (s.running, decide (Live s 1))) = some (0, true) := by decide +kernel
  obtain ⟨s, hs, he⟩ := Option.map_eq_some_iff.mp hrun
  simp only [Prod.mk.injEq, decide_eq_true_eq] at he
  have hexec := exec_of_guardedRun hs
  exact ⟨s, hexec, he.1, he.2, (mainJoin_never _ s 1 hexec he.1 he.2).2⟩

/-- `main` joins the one thread there is, which exits with 7: the value arrives, but `main` is left in the ready
list. -/
theorem mainJoin_leaves_ready : ∃ s s₁ s', Exec (Guard Permitted Step) petThreadInit [.create] s ∧ Live s 1 ∧
    Step s (.join 1) s₁ ∧ Guard Meanwhile Step s₁ (.exit 7) s' ∧ s'.running = 0 ∧
    s'.trace = [.exited 1 7, .joined 0 1 7] ∧ s'.readyList = [0] ∧ ¬ MainJoinMeets s 1 := by
  have hrun : (guardedRun Permitted Sched.call petThreadInit [.create]).map
      (fun s => (s.running, decide (Live s 1))) = some (0, true) := by decide +kernel
  have hjoin : ((guardedRun Permitted Sched.call petThreadInit [.create]).bind (·.call (.join 1))).map
      Sched.running = some 1 := by decide +kernel
  have hexit : (((guardedRun Permitted Sched.call petThreadInit [.create]).bind (·.call (.join 1))).bind
      (·.call (.exit 7))).map (fun s' => (s'.running, s'.trace, s'.readyList)) =
        some (0, [.exited 1 7, .joined 0 1 7], [0]) := by decide +kernel
  obtain ⟨s, hs, he⟩ := Option.map_eq_some_iff.mp hrun
  rw [hs, Option.bind_some] at hjoin hexit
  obtain ⟨s₁, hs₁, hr₁⟩ := Option.map_eq_some_iff.mp hjoin
  rw [hs₁, Option.bind_some] at hexit
  obtain ⟨s', hs', he'⟩ := Option.map_eq_some_iff.mp hexit
  simp only [Prod.mk.injEq, decide_eq_true_eq] at he he'
  have hexec := exec_of_guardedRun hs
  have hmean : Meanwhile s₁ (.exit 7) := by
    have hne : s₁.running ≠ 0 := by
      rw [hr₁]
      decide
    exact ⟨hne, hne, by simp⟩
  refine ⟨s, s₁, s', hexec, he.2, hs₁, ⟨hmean, hs'⟩, he'.1, he'.2.1, he'.2.2, ?_⟩
  rintro ⟨s₁', hstep, hmeets⟩
  obtain rfl := Option.some.inj (hs₁.symm.trans hstep)
  have hnot := ((hmeets [.exit 7] s' (.single ⟨hmean, hs'⟩)).2 he'.1).2.2.1
  rw [he'.2.2] at hnot
  exact hnot List.mem_cons_self

end PetLab.Threads
