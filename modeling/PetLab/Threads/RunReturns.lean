import PetLab.Threads.MainJoin

/-!
# When `pet_thread_run` returns

`pet_thread_schedule` goes back to `main` as soon as the ready list is empty. That is
right when the caller has blocked or exited. A caller that can still run is put into the
ready list by `__thread_invoker` only afterwards, so `main` returns from `pet_thread_run`
with that thread left behind (`run_leaves_ready`).

`run_finishes_iff` says that this is the only way: `pet_thread_run` finishes the work in
exactly the runs in which no created thread calls `pet_thread_run`, `pet_thread_schedule` or
`pet_thread_yield_to` while the ready list is empty and `main` is ready, inside
`pet_thread_run`. The threads and `main` may call what they like, in any order; only
`pet_thread_yield_to` on the master thread is left to `main`.

When `main` joins, the scheduler invariant is lost, but `pet_thread_run` does not return any
more with work left (`MainLost`). `main` is away until it is the first of the ready list, which it never
leaves; or the join has returned at once, and those who could wake it are blocked as it is, and
never run again.
-/

namespace PetLab.Threads

open PetLab.Lib

/-- The calls of a run: the created threads do not yield to the master thread. -/
def Worker (s : Sched) (c : Call) : Prop := s.running ≠ 0 → c ≠ .yieldTo 0

instance (s : Sched) (c : Call) : Decidable (Worker s c) := inferInstanceAs (Decidable (_ → _))

/-- In this step `pet_thread_run` returns in `main`. -/
def RunReturns (s s' : Sched) : Prop :=
  s'.running = 0 ∧ ∃ events ready, s'.trace = s.trace ++ events ++ [.runReturned ready]

/-- No created thread is left ready: the ready list is empty, and those that have not
exited are blocked. -/
def Finished (s : Sched) : Prop := s.readyList = [] ∧ ∀ t, Live s t → s.state t = .blocked

/-- The calls that leave the caller able to run. -/
def Yields (c : Call) : Prop := c = .run ∨ c = .schedule ∨ ∃ threadId, c = .yieldTo threadId

/-- A created thread that can still run goes through the scheduler while it is the only
one that can, and `main` is ready, inside `pet_thread_run`. -/
def Strands (s : Sched) (c : Call) : Prop :=
  s.running ≠ 0 ∧ s.readyList = [] ∧ s.cont 0 = .run ∧ s.state 0 = .ready ∧ Yields c

/-- `main` has come back out of the ready list, and is still the first of it. -/
structure Back (s : Sched) : Prop where
  /-- No thread is given its id. -/
  count : 0 < s.threadIdCount
  running : s.running = 0
  state : s.state 0 = .running
  head : s.readyList.head? = some 0

/-- `main` joined when nobody was ready, and is blocked while it goes on. The threads there were, those below `n`,
do not run any more. -/
structure Stuck (n : ℕ) (s : Sched) : Prop where
  /-- `main` is one of them. -/
  pos : 0 < n
  count : n ≤ s.threadIdCount
  main : s.state 0 = .blocked
  /-- They do not get ready, -/
  old : ∀ t < n, s.state t ≠ .ready
  /-- and wait if they have not exited. -/
  blocked : ∀ t < n, Live s t → s.state t = .blocked
  /-- New threads run, -/
  running : s.running = 0 ∨ n ≤ s.running
  ready : ∀ t ∈ s.readyList, n ≤ t
  /-- and no old one waits for them. -/
  waiting : ∀ t, n ≤ t → t < s.threadIdCount → ∀ x ∈ s.waiting t, n ≤ x
  /-- As long as `main` runs, they are all in the ready list. -/
  new : s.running = 0 → ∀ t, n ≤ t → t < s.threadIdCount → t ∈ s.readyList

/-- What holds when `main` has joined. -/
inductive MainLost (s : Sched) : Prop where
  /-- It is away, inside another call than `pet_thread_run`. -/
  | away (running : s.running ≠ 0) (out : Out s) (cont : s.cont 0 ≠ .run)
  /-- It is back. -/
  | back (back : Back s)
  /-- The join has returned at once. -/
  | stuck {n : ℕ} (stuck : Stuck n s)

section Step

variable {s s₁ s₂ s' : Sched} {c : Call} {n t : ℕ}

/-! ### The first half of a call -/

theorem Begun.running (hb : Begun s c s₁) : s₁.running = s.running := by
  cases hb with
  | run => rfl
  | schedule => rfl
  | yieldTo _ => rfl
  | join hw => exact (quiet_waitFor hw).1.running
  | exit hq => exact (quiet_quarantine hq).1.running

/-- Where the other threads are, and what is observed. -/
theorem Begun.cont_trace (hb : Begun s c s₁) : (∀ t, t ≠ s.running → s₁.cont t = s.cont t) ∧
    ∃ events, s₁.trace = s.trace ++ events ∧ ∀ ready, .runReturned ready ∉ events := by
  have hsuspend : ∀ k t, t ≠ s.running → (s.suspend k).cont t = s.cont t := fun k t ht => Function.update_of_ne ht _ _
  cases hb with
  | run => exact ⟨hsuspend _, [], by simp [Sched.suspend], by simp⟩
  | schedule => exact ⟨hsuspend _, [], by simp [Sched.suspend], by simp⟩
  | yieldTo _ => exact ⟨hsuspend _, [], by simp [Sched.suspend], by simp⟩
  | @join t _ hw =>
    unfold Sched.waitFor at hw
    split_ifs at hw
    obtain rfl := Option.some.inj hw
    exact ⟨hsuspend _, [], (List.append_nil _).symm, by simp⟩
  | @exit retVal _ hq =>
    unfold Sched.quarantine at hq
    split_ifs at hq
    obtain ⟨s₀, hw, hq⟩ := Option.bind_eq_some_iff.mp hq
    split_ifs at hq
    obtain rfl := Option.some.inj hq
    obtain ⟨⟨-, -, -, -, htrace, hcont⟩, -⟩ := wakeAll_quiet hw
    refine ⟨fun t ht => (congrFun hcont t).trans (hsuspend _ t ht), [.exited s₀.running retVal], ?_, by simp⟩
    show s₀.trace ++ _ = _
    rw [htrace]
    rfl

/-- A call that leaves the caller able to run has changed nothing yet. -/
theorem Begun.eq_suspend (hb : Begun s c s₁) (hc : Yields c) : ∃ k, s₁ = s.suspend k := by
  cases hb with
  | run => exact ⟨_, rfl⟩
  | schedule => exact ⟨_, rfl⟩
  | yieldTo _ => exact ⟨_, rfl⟩
  | join _ => simp [Yields] at hc
  | exit _ => simp [Yields] at hc

/-- The state the caller is left in. -/
theorem Begun.yields_iff (hb : Begun s c s₁) (hrun : s.state s.running = .running) :
    s₁.state s.running = .running ↔ Yields c := by
  cases hb with
  | run => simp [hrun, Yields]
  | schedule => simp [hrun, Yields]
  | yieldTo _ => simp [hrun, Yields]
  | join hw =>
    obtain ⟨-, -, hwaits⟩ := waits_of_waitFor hw
    have hst : s₁.state s.running = .blocked := (hwaits.state _).trans (if_pos rfl)
    simp [hst, Yields]
  | exit hq => simp [(quiet_quarantine hq).2, Yields]

/-! ### When it returns -/

/-- `pet_thread_run` returns in the step in which `main` is resumed in it. -/
theorem runReturns_iff (hb : Begun s c s₁) (hl : HandsOver c s₁ s₂) (hr : s₂.resume = some s') :
    RunReturns s s' ↔ s₂.running = 0 ∧ s₁.cont 0 = .run := by
  obtain ⟨-, events, htrace, hevents⟩ := hb.cont_trace
  obtain ⟨htrace₂, hcont⟩ : s₂.trace = s₁.trace ∧ s₂.cont = s₁.cont := by
    rcases hl.cases with ⟨rfl, -⟩ | ⟨_, u, freed, hsw, rfl, -⟩
    · exact ⟨rfl, rfl⟩
    · exact ⟨hsw.trace, hsw.cont⟩
  obtain ⟨-, hs'⟩ := resume_eq_some_iff.mp hr
  have htrace' : s'.trace = s.trace ++ (events ++ s₂.resumeEvent.toList) := by
    rw [hs', htrace₂, htrace, List.append_assoc]
  have hrunning : s'.running = s₂.running := by
    rw [hs']
    rfl
  unfold RunReturns
  rw [hrunning, ← hcont]
  refine and_congr_right fun h₀ => ⟨?_, fun hrun => ?_⟩
  · rintro ⟨es, ready, he⟩
    rw [htrace', List.append_assoc] at he
    have hmem : .runReturned ready ∈ events ++ s₂.resumeEvent.toList := by
      rw [List.append_cancel_left he]
      exact List.mem_append.mpr (.inr (List.mem_singleton_self _))
    have hev := (List.mem_append.mp hmem).resolve_left (hevents ready)
    unfold Sched.resumeEvent at hev
    rw [h₀] at hev
    split at hev
    · assumption
    · simp at hev
    · simp at hev
  · refine ⟨events, s₂.readyList, ?_⟩
    rw [htrace', List.append_assoc]
    simp [Sched.resumeEvent, h₀, hrun]

/-- It does not if nothing is observed. -/
theorem not_runReturns (h : s'.trace = s.trace) : ¬ RunReturns s s' := by
  rintro ⟨-, events, ready, he⟩
  have := congrArg List.length (h.symm.trans he)
  simp only [List.length_append, List.length_singleton] at this
  omega

/-! ### As long as `main` has not joined -/

/-- With an empty ready list, the threads that have not exited are blocked. -/
theorem Core.finished_iff (h : Core .running s) (h₀ : s.running = 0) : Finished s ↔ s.readyList = [] := by
  refine ⟨And.left, fun hready => ⟨hready, fun t ht => ?_⟩⟩
  have hne : t ≠ s.running := by
    rw [h₀]
    exact Nat.pos_iff_ne_zero.mp ht.pos
  have hm := (h.listed t ht hne).resolve_left (by simp [hready])
  exact (h.blocked t hm).2.2

/-- A step that strands its thread leads to `main`: nobody else is ready. -/
theorem Core.strands_target {u : Sched} (h : Core .running s) (hb : Begun s c s₁) (hs : Strands s c)
    (hsw : SwitchedTo s₁ t u) (hto : t = 0 ∨ s₁.readyList.head? = some t ∨ c = .yieldTo t) : t = 0 := by
  obtain ⟨-, hempty, -, -, hc⟩ := hs
  obtain ⟨k, rfl⟩ := hb.eq_suspend hc
  by_contra ht
  have hready : s.state t = .ready := hsw.ready
  rcases hsw.listed ht with hm | hm
  · rw [show (s.suspend k).readyList = [] from hempty] at hm
    cases hm
  · rw [(h.blocked t hm).2.2] at hready
    cases hready

/-- **One step**: `pet_thread_run` returns with the work done exactly when the step does
not strand its thread. -/
theorem RunInv.finishes_iff (h : RunInv s) (h' : RunInv s') (hw : Worker s c) (hstep : Step s c s') :
    (RunReturns s s' → Finished s') ↔ ¬ Strands s c := by
  rcases step_cases hstep with ⟨rfl, rfl⟩ | ⟨_, rfl, rfl⟩ | ⟨s₁, s₂, hb, hl, hr⟩
  · exact iff_of_true (fun hret => absurd hret (not_runReturns rfl)) (by simp [Strands, Yields])
  · exact iff_of_true (fun hret => absurd hret (not_runReturns rfl)) (by simp [Strands, Yields])
  rw [runReturns_iff hb hl hr]
  have hs' := (resume_eq_some_iff.mp hr).2
  have hready' : s'.readyList = s₂.readyList := by
    rw [hs']
    rfl
  have hrunning' : s'.running = s₂.running := by
    rw [hs']
    rfl
  rcases hl.cases with ⟨rfl, h₀, hempty⟩ | ⟨t, u, freed, hsw, rfl, hto⟩
  · -- `main` calls, and goes on
    have hfin : Finished s' := (h'.core.finished_iff (hrunning'.trans h₀)).mpr (hready'.trans hempty)
    exact iff_of_true (fun _ => hfin) fun hs => hs.1 (hb.running ▸ h₀)
  have hrunning : s'.running = t := hrunning'.trans hsw.running
  have hready : s'.readyList = u.readyList := hready'
  by_cases ht : t = 0
  · -- a created thread calls, and `main` goes on
    subst ht
    have h₀ : s.running ≠ 0 := by
      intro h₀
      have hold := hsw.old
      rw [hb.running, h₀] at hold
      exact hold hsw.ready
    have hempty : s₁.readyList = [] := by
      rcases hto with hto | hto | rfl
      · exact hto.2.1
      · refine absurd ?_ h'.core.master_notMem
        rw [hready]
        exact hsw.keeps_main (List.mem_of_mem_head? hto)
      · exact absurd rfl (hw h₀)
    have hleft : s'.readyList = [] ↔ ¬ Yields c := by
      have hst := hb.yields_iff h.core.runState
      rw [hready, hsw.readyList, if_pos rfl, hempty, hb.running]
      by_cases hc : Yields c
      · simp [hst.mpr hc, h₀, hc]
      · simp [mt hst.mp hc, hc]
    rw [h'.core.finished_iff hrunning, hleft, hb.cont_trace.1 0 (Ne.symm h₀)]
    constructor
    · rintro hfin ⟨-, -, hrun, -, hc⟩
      exact hfin ⟨hsw.running, hrun⟩ hc
    · rintro hs ⟨-, hrun⟩ hc
      obtain ⟨k, rfl⟩ := hb.eq_suspend hc
      exact hs ⟨h₀, hempty, hrun, h.core.master h₀, hc⟩
  · -- another created thread goes on
    refine iff_of_true (fun hret => absurd (hsw.running.symm.trans hret.1) ht) fun hs => ht ?_
    exact h.core.strands_target hb hs hsw (hto.imp And.left id)

/-! ### When `main` has joined -/

theorem SwitchedTo.keeps_head {u : Sched} (hsw : SwitchedTo s t u) (hm : s.readyList.head? = some 0) :
    u.readyList.head? = some 0 := by
  obtain ⟨xs, hxs⟩ := List.head?_eq_some_iff.mp hm
  rw [hsw.readyList, hxs]
  split_ifs with ht
  all_goals try rw [List.erase_cons_tail (by simpa using Ne.symm ht)]
  all_goals rfl

/-- While `main` is away, it comes back only as the first of the ready list. -/
theorem Out.lost (h : Out s) (hrun : s.running ≠ 0) (hcont : s.cont 0 ≠ .run) (hw : Worker s c)
    (hstep : Step s c s') : MainLost s' ∧ ¬ RunReturns s s' := by
  rcases step_cases hstep with ⟨-, rfl⟩ | ⟨_, -, rfl⟩ | ⟨s₁, s₂, hb, hl, hr⟩
  · refine ⟨.away hrun h.create ?_, not_runReturns rfl⟩
    rw [cont_petThreadCreate, if_neg h.count.ne]
    exact hcont
  · exact ⟨.away hrun h hcont, not_runReturns rfl⟩
  obtain ⟨h₁, hr₁⟩ := h.begun hrun hb
  have hcont₁ : s₁.cont 0 ≠ .run := by
    rw [hb.cont_trace.1 0 (Ne.symm hrun)]
    exact hcont
  refine ⟨?_, fun hret => hcont₁ ((runReturns_iff hb hl hr).mp hret).2⟩
  have hrun₁ : s₁.running ≠ 0 := hr₁.trans_ne hrun
  have hout := h₁.handsOver hrun₁ hl
  obtain ⟨-, rfl⟩ := resume_eq_some_iff.mp hr
  obtain ⟨t, u, freed, hsw, rfl, hto⟩ := hl.cases.resolve_left fun hs => hrun₁ hs.2.1
  by_cases ht : t = 0
  · subst ht
    have hmem : 0 ∈ s₁.readyList := by
      refine (h₁.away.resolve_left fun hblocked => ?_).2
      rw [hsw.ready] at hblocked
      cases hblocked
    have hhead : s₁.readyList.head? = some 0 := by
      rcases hto with hto | hto | rfl
      · simp [hto.2.1] at hmem
      · exact hto
      · exact absurd rfl (hw hrun)
    exact .back ⟨hsw.count ▸ h₁.count, hsw.running, (hsw.state 0).trans (if_pos rfl), hsw.keeps_head hhead⟩
  · have hrun' : u.running ≠ 0 := hsw.running.trans_ne ht
    obtain ⟨-, hout⟩ := hout.resolve_left fun hback => hrun' hback.1
    refine .away hrun' ⟨hout.count, hout.away⟩ ?_
    show Function.update u.cont u.running .user 0 ≠ .run
    rw [Function.update_of_ne (Ne.symm hrun'), hsw.cont]
    exact hcont₁

/-- When it is back, no call of the scheduler gets past it. -/
theorem Back.lost (h : Back s) (hstep : Step s c s') : MainLost s' ∧ ¬ RunReturns s s' := by
  rcases step_cases hstep with ⟨-, rfl⟩ | ⟨_, -, rfl⟩ | ⟨s₁, s₂, hb, hl, hr⟩
  · refine ⟨.back ⟨Nat.succ_pos _, h.running, ?_, ?_⟩, not_runReturns rfl⟩
    · rw [state_petThreadCreate, if_neg h.count.ne]
      exact h.state
    · show (s.readyList ++ [s.threadIdCount]).head? = some 0
      rw [List.head?_append, h.head]
      rfl
  · exact ⟨.back h, not_runReturns rfl⟩
  have hrunning := hb.running.trans h.running
  have hhead : s₁.readyList.head? = some 0 ∧ s₁.state 0 ≠ .ready := by
    have hsuspend : ∀ k, (s.suspend k).readyList.head? = some 0 ∧ (s.suspend k).state 0 ≠ .ready := fun k =>
      ⟨h.head, by rw [state_suspend, h.state]; decide⟩
    cases hb with
    | run => exact hsuspend _
    | schedule => exact hsuspend _
    | yieldTo _ => exact hsuspend _
    | join hjoin =>
      obtain ⟨-, -, hwaits⟩ := waits_of_waitFor hjoin
      refine ⟨hwaits.lists.1 ▸ h.head, ?_⟩
      rw [hwaits.state, if_pos (by exact h.running.symm)]
      decide
    | exit hq =>
      obtain ⟨hquiet, hst⟩ := quiet_quarantine hq
      exact absurd h.running (hquiet.thread hst)
  rcases hl.cases with ⟨-, -, hempty⟩ | ⟨t, u, freed, hsw, rfl, hto⟩
  · simp [hempty] at hhead
  have ht : t ≠ 0 := by
    rintro rfl
    exact hhead.2 hsw.ready
  refine ⟨?_, fun hret => ht (hsw.running.symm.trans ((runReturns_iff hb hl hr).mp hret).1)⟩
  have hc : c = .yieldTo t := by
    rcases hto with hto | hto | hto
    · exact absurd hto.1 ht
    · rw [hhead.1] at hto
      exact absurd (Option.some.inj hto).symm ht
    · exact hto
  subst hc
  cases hb
  obtain ⟨-, rfl⟩ := resume_eq_some_iff.mp hr
  have hrun' : u.running ≠ 0 := hsw.running.trans_ne ht
  refine .away hrun' ⟨hsw.count ▸ h.count, .inr ⟨?_, List.mem_of_mem_head? (hsw.keeps_head hhead.1)⟩⟩ ?_
  · refine (hsw.state 0).trans ?_
    rw [if_neg (Ne.symm ht), if_pos ⟨hrunning.symm, by rw [hrunning]; exact h.state⟩]
  · show Function.update u.cont u.running .user 0 ≠ .run
    rw [Function.update_of_ne (Ne.symm hrun'), hsw.cont]
    simp [Sched.suspend, h.running]

/-! ### When the join has returned at once -/

/-- What `Stuck` is about. -/
theorem Stuck.congr (h : Stuck n s) (hcount : s'.threadIdCount = s.threadIdCount) (hrunning : s'.running = s.running)
    (hexited : ∀ x, Exited s x → Exited s' x) (hstate : ∀ x < n, s'.state x = s.state x)
    (hready : s'.readyList = s.readyList) (hwaiting : ∀ x, s'.waiting x = s.waiting x) : Stuck n s' where
  pos := h.pos
  count := hcount ▸ h.count
  main := (hstate 0 h.pos).trans h.main
  old x hx := by rw [hstate x hx]; exact h.old x hx
  blocked x hx hl := by
    rw [hstate x hx]
    exact h.blocked x hx ⟨hl.pos, hcount ▸ hl.created, fun hex => hl.unexited (hexited x hex)⟩
  running := by rw [hrunning]; exact h.running
  ready := by rw [hready]; exact h.ready
  waiting x hx hlt := by rw [hwaiting]; exact h.waiting x hx (hcount ▸ hlt)
  new h₀ x hx hlt := by rw [hready]; exact h.new (hrunning ▸ h₀) x hx (hcount ▸ hlt)

/-- A thread that joins is a new one. -/
theorem Stuck.join {k : Cont} (h : Stuck n s) (hw : (s.suspend k).waitFor t = some s₁) : Stuck n s₁ := by
  obtain ⟨hrun, -, hwaits⟩ := waits_of_waitFor hw
  have hnew : n ≤ s.running := by
    refine h.running.resolve_left fun h₀ => ?_
    rw [h₀, h.main] at hrun
    cases hrun
  have hlive : ∀ x, Live s₁ x ↔ Live s x := live_congr hwaits.count hwaits.trace
  have hstate : ∀ x < n, s₁.state x = s.state x := fun x hx =>
    (hwaits.state x).trans (if_neg (by exact (hx.trans_le hnew).ne))
  have hpos := h.pos
  constructor
  case pos => exact h.pos
  case count => exact hwaits.count ▸ h.count
  case main => exact (hstate 0 h.pos).trans h.main
  case old => exact fun x hx => by rw [hstate x hx]; exact h.old x hx
  case blocked => exact fun x hx hl => by rw [hstate x hx]; exact h.blocked x hx ((hlive x).mp hl)
  case running => exact .inr (hwaits.running ▸ hnew)
  case ready => exact hwaits.lists.1 ▸ h.ready
  case waiting =>
    intro x hx hlt y hy
    have hold : ∀ z ∈ s.waiting x, n ≤ z := h.waiting x hx (hwaits.count ▸ hlt)
    rw [hwaits.waiting] at hy
    split_ifs at hy with hxt
    · subst hxt
      rcases List.mem_append.mp hy with hy | hy
      · exact hold y hy
      · obtain rfl := List.mem_singleton.mp hy
        exact hnew
    · exact hold y hy
  case new =>
    intro h₀
    have hr : s₁.running = s.running := hwaits.running
    omega

/-- What a waiter gets. -/
theorem wake_lists {retVal waiter : ℕ} (hw : s.wake retVal waiter = some s₁) :
    (∀ x, x ≠ waiter → s₁.state x = s.state x) ∧ (∀ x, ∀ y ∈ s₁.waiting x, y ∈ s.waiting x) ∧
      ∀ x ∈ s₁.readyList, x ∈ s.readyList ∨ x = waiter := by
  unfold Sched.wake at hw
  split_ifs at hw with hblocked
  obtain ⟨s₂, hdel, rfl⟩ := Option.map_eq_some_iff.mp hw
  obtain ⟨hsame, hlist, -⟩ := listDel_spec hdel
  have hstate : ∀ x, x ≠ waiter → s₂.state x = s.state x := by
    intro x hx
    unfold Sched.state
    rw [hsame.thread]
    exact (state_modify s waiter x _).trans (if_neg hx)
  have hwaiting : ∀ x, s₂.waiting x = s.waiting x := by
    intro x
    unfold Sched.waiting
    rw [hsame.thread]
    refine (waiting_modify s waiter x _).trans ?_
    split_ifs with hx
    · rw [hx]
    · rfl
  refine ⟨fun x hx => ?_, fun x y hy => ?_, fun x hx => ?_⟩
  · rw [state_modify]
    split_ifs with hr
    · rw [hr] at hx ⊢
      exact hstate _ hx
    · exact hstate x hx
  · rw [waiting_modify] at hy
    rw [← hwaiting]
    split_ifs at hy with hr
    · rw [hr]
      exact List.mem_of_mem_tail hy
    · exact hy
  · rcases List.mem_append.mp hx with hx | hx
    · rw [hlist] at hx
      exact .inl (List.mem_of_mem_erase hx)
    · exact .inr (List.mem_singleton.mp hx)

/-- The waiters of a new thread are new. -/
theorem Stuck.wakeAll {retVal : ℕ} {waiters : List ℕ} (h : Stuck n s) (hrun : n ≤ s.running)
    (hwaiters : ∀ x ∈ waiters, n ≤ x) (hw : Sched.wakeAll retVal waiters s = some s₁) : Stuck n s₁ := by
  induction waiters generalizing s with
  | nil =>
    obtain rfl := Option.some.inj hw
    exact h
  | cons waiter waiters ih =>
    obtain ⟨s₂, hs₂, hw⟩ := Option.bind_eq_some_iff.mp hw
    obtain ⟨⟨hrunning, hcount, -, -, htrace, -⟩, -⟩ := wake_quiet hs₂
    obtain ⟨hstate, hwaiting, hready⟩ := wake_lists hs₂
    have hnew : n ≤ waiter := hwaiters waiter List.mem_cons_self
    have hstate' : ∀ x < n, s₂.state x = s.state x := fun x hx => hstate x (hx.trans_le hnew).ne
    have hlive : ∀ x, Live s₂ x ↔ Live s x := live_congr hcount htrace
    have hpos := h.pos
    have h₂ : Stuck n s₂ := by
      constructor
      case pos => exact h.pos
      case count => exact hcount ▸ h.count
      case main => exact (hstate' 0 h.pos).trans h.main
      case old => exact fun x hx => by rw [hstate' x hx]; exact h.old x hx
      case blocked => exact fun x hx hl => by rw [hstate' x hx]; exact h.blocked x hx ((hlive x).mp hl)
      case running => exact .inr (hrunning ▸ hrun)
      case ready => exact fun x hx => (hready x hx).elim (h.ready x) fun hxw => hxw ▸ hnew
      case waiting => exact fun x hx hlt y hy => h.waiting x hx (hcount ▸ hlt) y (hwaiting x y hy)
      case new =>
        intro h₀
        omega
    exact ih h₂ (hrunning ▸ hrun) (fun x hx => hwaiters x (List.mem_cons_of_mem _ hx)) hw

/-- A thread that exits is a new one. -/
theorem Stuck.exit {retVal : ℕ} (h : Stuck n s) (hlt : s.running < s.threadIdCount)
    (hq : (s.suspend .exited).quarantine retVal = some s₁) : Stuck n s₁ := by
  have hsuspend : Stuck n (s.suspend .exited) := h.congr rfl rfl (fun _ hx => hx) (fun _ _ => rfl) rfl fun _ => rfl
  obtain ⟨hquiet, hst⟩ := quiet_quarantine hq
  have hnew : n ≤ s.running := h.running.resolve_left (hquiet.thread hst)
  unfold Sched.quarantine at hq
  split_ifs at hq
  obtain ⟨s₀, hw, hq⟩ := Option.bind_eq_some_iff.mp hq
  split_ifs at hq
  obtain rfl := Option.some.inj hq
  have h₀ := hsuspend.wakeAll hnew (h.waiting s.running hnew hlt) hw
  have hrunning : s₀.running = s.running := (wakeAll_quiet hw).1.1
  refine h₀.congr rfl rfl (fun x hx => (exited_exit s₀ retVal x).mpr (.inl hx)) (fun x hx => ?_) rfl fun x => ?_
  · rw [state_note, state_setState, if_neg (by rw [hrunning]; exact (hx.trans_le hnew).ne)]
  · rw [waiting_note, waiting_setState]

theorem Stuck.begun (h : Stuck n s) (hlt : s.running < s.threadIdCount) (hb : Begun s c s₁) : Stuck n s₁ := by
  have hsuspend : ∀ k, Stuck n (s.suspend k) := fun k =>
    h.congr rfl rfl (fun _ hx => hx) (fun _ _ => rfl) rfl fun _ => rfl
  cases hb with
  | run => exact hsuspend _
  | schedule => exact hsuspend _
  | yieldTo _ => exact hsuspend _
  | join hw => exact h.join hw
  | exit hq => exact h.exit hlt hq

/-- Only new threads are switched to. -/
theorem Stuck.switched {u : Sched} (h : Stuck n s) (hsw : SwitchedTo s t u) : Stuck n u ∧ n ≤ u.running := by
  have hnew : n ≤ t := by
    by_contra hlt
    exact h.old t (not_le.mp hlt) hsw.ready
  have hold : s.state s.running = .running → n ≤ s.running := by
    intro hrun
    refine h.running.resolve_left fun h₀ => ?_
    rw [h₀, h.main] at hrun
    cases hrun
  have hstate : ∀ x < n, u.state x = s.state x := by
    intro x hx
    rw [hsw.state, if_neg (hx.trans_le hnew).ne, if_neg]
    rintro ⟨rfl, hrun⟩
    exact absurd (hold hrun) (not_le.mpr hx)
  have hlive : ∀ x, Live u x ↔ Live s x := live_congr hsw.count hsw.trace
  have hpos := h.pos
  refine ⟨?_, hsw.running ▸ hnew⟩
  constructor
  case pos => exact h.pos
  case count => exact hsw.count ▸ h.count
  case main => exact (hstate 0 h.pos).trans h.main
  case old => exact fun x hx => by rw [hstate x hx]; exact h.old x hx
  case blocked => exact fun x hx hl => by rw [hstate x hx]; exact h.blocked x hx ((hlive x).mp hl)
  case running => exact .inr (hsw.running ▸ hnew)
  case ready =>
    intro x hx
    rw [hsw.readyList] at hx
    rcases List.mem_append.mp hx with hx | hx
    · split_ifs at hx
      · exact h.ready x hx
      · exact h.ready x (List.mem_of_mem_erase hx)
    · split_ifs at hx with hrun
      · obtain rfl := List.mem_singleton.mp hx
        exact hold hrun.1
      · cases hx
  case waiting =>
    intro x hx hlt
    rw [hsw.waiting]
    exact h.waiting x hx (hsw.count ▸ hlt)
  case new =>
    intro h₀
    have hr := hsw.running
    omega

theorem Stuck.create (h : Stuck n s) : Stuck n s.petThreadCreate := by
  have hcount := h.count
  have hstate : ∀ x < n, s.petThreadCreate.state x = s.state x := fun x hx => by
    rw [state_petThreadCreate, if_neg (hx.trans_le hcount).ne]
  have hlt : ∀ x, x < s.petThreadCreate.threadIdCount → x ≠ s.threadIdCount → x < s.threadIdCount := by
    intro x hx hne
    have hx' : x < s.threadIdCount + 1 := hx
    omega
  constructor
  case pos => exact h.pos
  case count => exact hcount.trans (Nat.le_succ _)
  case main => exact (hstate 0 h.pos).trans h.main
  case old => exact fun x hx => by rw [hstate x hx]; exact h.old x hx
  case blocked =>
    intro x hx hl
    rw [hstate x hx]
    exact h.blocked x hx ⟨hl.pos, hx.trans_le hcount, hl.unexited⟩
  case running => exact h.running
  case ready =>
    intro x hx
    rcases List.mem_append.mp hx with hx | hx
    · exact h.ready x hx
    · obtain rfl := List.mem_singleton.mp hx
      exact hcount
  case waiting =>
    intro x hx hxlt
    rw [waiting_petThreadCreate]
    split_ifs with hnew
    · simp
    · exact h.waiting x hx (hlt x hxlt hnew)
  case new =>
    intro h₀ x hx hxlt
    by_cases hnew : x = s.threadIdCount
    · exact List.mem_append.mpr (.inr (by simp [hnew]))
    · exact List.mem_append.mpr (.inl (h.new h₀ x hx (hlt x hxlt hnew)))

/-- `pet_thread_run` returns at once, if there is nothing to do, or not at all. -/
theorem Stuck.lost (h : Stuck n s) (hF : FreedInv s) (hstep : Step s c s') :
    MainLost s' ∧ (RunReturns s s' → Finished s') := by
  rcases step_cases hstep with ⟨-, rfl⟩ | ⟨_, -, rfl⟩ | ⟨s₁, s₂, hb, hl, hr⟩
  · exact ⟨.stuck h.create, fun hret => absurd hret (not_runReturns rfl)⟩
  · exact ⟨.stuck h, fun hret => absurd hret (not_runReturns rfl)⟩
  have h₁ := h.begun hF.runLt hb
  have hret := runReturns_iff hb hl hr
  have hexited := exited_resume hr
  obtain ⟨-, hs'⟩ := resume_eq_some_iff.mp hr
  have hresume : Stuck n s₂ → Stuck n s' := by
    intro h₂
    subst hs'
    exact h₂.congr rfl rfl (fun x => (hexited x).mpr)
      (fun _ _ => rfl) rfl fun _ => rfl
  rcases hl.cases with ⟨rfl, h₀, hempty⟩ | ⟨t, u, freed, hsw, rfl, -⟩
  · have h' := hresume h₁
    refine ⟨.stuck h', fun _ => ?_⟩
    have hempty' : s'.readyList = [] := by
      rw [hs']
      exact hempty
    refine ⟨hempty', fun x hx => ?_⟩
    by_cases hxn : x < n
    · exact h'.blocked x hxn hx
    · have hmem := h'.new (by rw [hs']; exact h₀) x (not_lt.mp hxn) hx.created
      rw [hempty'] at hmem
      cases hmem
  · obtain ⟨hu, hnew⟩ := h₁.switched hsw
    refine ⟨.stuck (hresume (hu.congr rfl rfl (fun _ hx => hx) (fun _ _ => rfl) rfl fun _ => rfl)), fun hr' => ?_⟩
    have h₀ : u.running = 0 := (hret.mp hr').1
    have := h.pos
    omega

/-! ### Whole runs -/

/-- `main` waits and no thread is ready: every thread has exited or is blocked, and nobody is left to wake `main`. -/
theorem Core.stuck_of_waits (h : Core .running s) (h₀ : s.running = 0) (hw : Waits (s.suspend (.join t)) t s₁)
    (hempty : s.readyList = []) : Stuck s.threadIdCount s₁ := by
  have hstate : ∀ x, s₁.state x = if x = 0 then .blocked else s.state x := fun x => by
    refine (hw.state x).trans ?_
    rw [show (s.suspend (.join t)).running = 0 from h₀]
    rfl
  have hlive : ∀ x, Live s₁ x ↔ Live s x := live_congr hw.count hw.trace
  have hready : s₁.readyList = [] := hw.lists.1.trans hempty
  have hcount : s₁.threadIdCount = s.threadIdCount := hw.count
  have hfin := ((h.finished_iff h₀).mpr hempty).2
  constructor
  case pos => exact h.count
  case count => exact hcount.ge
  case main => exact (hstate 0).trans (if_pos rfl)
  case old =>
    intro x hx
    rw [hstate]
    split_ifs with hx₀
    · decide
    · by_cases hex : Exited s x
      · rw [(h.exited x hex).2.2]
        decide
      · rw [hfin x ⟨Nat.pos_of_ne_zero hx₀, hx, hex⟩]
        decide
  case blocked =>
    intro x _ hl
    rw [hstate, if_neg (Nat.pos_iff_ne_zero.mp hl.pos)]
    exact hfin x ((hlive x).mp hl)
  case running => exact .inl (hw.running.trans h₀)
  case ready => simp [hready]
  case waiting =>
    intro x hx hlt
    omega
  case new =>
    intro _ x hx hlt
    omega

/-- A join of `main` that finds its thread. -/
theorem Core.join_lost (h : Core .running s) (h₀ : s.running = 0)
    (hw : (s.suspend (.join t)).waitFor t = some s₁) (hl : HandsOver (.join t) s₁ s₂) (hr : s₂.resume = some s') :
    MainLost s' ∧ ¬ RunReturns s s' := by
  obtain ⟨-, -, hwaits⟩ := waits_of_waitFor hw
  have hcont : s₁.cont 0 = .join t := by
    rw [hwaits.cont]
    simp [Sched.suspend, h₀]
  have hnot : ¬ RunReturns s s' := fun hret => by
    have hrun := ((runReturns_iff (.join hw) hl hr).mp hret).2
    rw [hcont] at hrun
    cases hrun
  refine ⟨?_, hnot⟩
  have hcases := h.mainJoin_handsOver h₀ hwaits hl
  have hexited := exited_resume hr
  obtain ⟨-, rfl⟩ := resume_eq_some_iff.mp hr
  rcases hcases with ⟨rfl, hempty⟩ | ⟨hrun, hout⟩
  · exact .stuck ((h.stuck_of_waits h₀ hwaits hempty).congr rfl rfl (fun x => (hexited x).mpr)
      (fun _ _ => rfl) rfl fun _ => rfl)
  · refine .away hrun ⟨hout.count, hout.away⟩ ?_
    have hcont₂ : s₂.cont = s₁.cont := by
      rcases hl.cases with ⟨rfl, -⟩ | ⟨_, u, freed, hsw, rfl, -⟩
      · rfl
      · exact hsw.cont
    show Function.update s₂.cont s₂.running .user 0 ≠ .run
    rw [Function.update_of_ne (Ne.symm hrun), hcont₂, hcont]
    simp

/-- A step of a run in which `main` has not joined yet. -/
theorem RunInv.next (h : RunInv s) (hstep : Step s c s') :
    RunInv s' ∨ (s.running = 0 ∧ MainLost s' ∧ ¬ RunReturns s s') := by
  by_cases hp : Permitted s c
  · exact .inl (h.step (h.callSpec hp hstep))
  rcases step_cases hstep with ⟨rfl, -⟩ | ⟨_, -, rfl⟩ | ⟨s₁, s₂, hb, hl, hr⟩
  · exact absurd trivial hp
  · exact .inl h
  · cases hb with
    | run => exact absurd trivial hp
    | schedule => exact absurd trivial hp
    | yieldTo _ => exact absurd trivial hp
    | join hw => exact .inr ⟨not_not.mp hp, h.core.join_lost (not_not.mp hp) hw hl hr⟩
    | exit hq =>
      obtain ⟨hquiet, hst⟩ := quiet_quarantine hq
      exact absurd (not_not.mp hp) (hquiet.thread hst)

theorem MainLost.step (h : MainLost s) (hF : FreedInv s) (hw : Worker s c) (hstep : Step s c s') :
    MainLost s' ∧ (RunReturns s s' → Finished s') := by
  cases h with
  | away hrun hout hcont =>
    obtain ⟨h', hnot⟩ := hout.lost hrun hcont hw hstep
    exact ⟨h', fun hret => absurd hret hnot⟩
  | back hback =>
    obtain ⟨h', hnot⟩ := hback.lost hstep
    exact ⟨h', fun hret => absurd hret hnot⟩
  | stuck hstuck => exact hstuck.lost hF hstep

theorem MainLost.not_strands (h : MainLost s) : ¬ Strands s c := by
  rintro ⟨hrun, -, hcont, hstate, -⟩
  cases h with
  | away _ _ hne => exact hne hcont
  | back hback => exact hrun hback.running
  | stuck hstuck =>
    rw [hstuck.main] at hstate
    cases hstate

end Step

/-- **`pet_thread_run` finishes the work** in exactly the runs whose steps do not strand
their thread: whenever it returns, the ready list is empty, and the threads that have not
exited are blocked in a join. -/
theorem run_finishes_iff (calls : List Call) (s : Sched) :
    Exec (fun s c s' => Guard Worker Step s c s' ∧ (RunReturns s s' → Finished s')) petThreadInit calls s ↔
      Exec (Guard (fun s c => ¬ Strands s c) (Guard Worker Step)) petThreadInit calls s := by
  refine exec_and_iff_guard (I := fun s => FreedInv s ∧ (RunInv s ∨ MainLost s))
    ⟨freedInv_petThreadInit, .inl runInv_petThreadInit⟩ ?_ ?_
  · rintro s c s' ⟨hF, h | h⟩ ⟨hw, hstep⟩
    · exact ⟨hF.step hstep, (h.next hstep).imp id fun h' => h'.2.1⟩
    · exact ⟨hF.step hstep, .inr (h.step hF hw hstep).1⟩
  · rintro s c s' ⟨hF, h | h⟩ ⟨hw, hstep⟩
    · rcases h.next hstep with h' | ⟨h₀, -, hnot⟩
      · exact h.finishes_iff h' hw hstep
      · exact iff_of_true (fun hret => absurd hret hnot) fun hs => hs.1 h₀
    · exact iff_of_true (h.step hF hw hstep).2 h.not_strands

/-- The only created thread calls `pet_thread_schedule`: `pet_thread_run` returns, and the
thread is left ready. -/
theorem run_leaves_ready : ∃ s s', Exec (Guard Worker Step) petThreadInit [.create, .run] s ∧
    Guard Worker Step s .schedule s' ∧ RunReturns s s' ∧ s'.readyList = [1] ∧ s'.state 1 = .ready ∧
    ¬ Finished s' := by
  have hbefore : (guardedRun Worker Sched.call petThreadInit [.create, .run]).map
      (fun s => (s.trace, decide (Worker s .schedule))) = some ([], true) := by decide +kernel
  have hafter : ((guardedRun Worker Sched.call petThreadInit [.create, .run]).bind (·.call .schedule)).map
      (fun s' => ((s'.running, s'.trace), s'.readyList, s'.state 1)) =
        some ((0, [.runReturned [1]]), [1], .ready) := by decide +kernel
  obtain ⟨s, hs, he⟩ := Option.map_eq_some_iff.mp hbefore
  rw [hs, Option.bind_some] at hafter
  obtain ⟨s', hs', he'⟩ := Option.map_eq_some_iff.mp hafter
  simp only [Prod.mk.injEq, decide_eq_true_eq] at he he'
  obtain ⟨htrace, hw⟩ := he
  obtain ⟨⟨hrunning', htrace'⟩, hready, hstate⟩ := he'
  refine ⟨s, s', exec_of_guardedRun hs, ⟨hw, hs'⟩, ⟨hrunning', [], [1], ?_⟩, hready, hstate, ?_⟩
  · rw [htrace, htrace']
    rfl
  · rintro ⟨hempty, -⟩
    rw [hready] at hempty
    cases hempty

end PetLab.Threads
