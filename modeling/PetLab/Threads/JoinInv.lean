import PetLab.Threads.SchedCalls

/-!
# Joins

In runs in which the created threads join created threads that have not exited, and
`main` joins nobody (`Allowed`), a thread inside `pet_thread_join(u, &r)` is blocked in
the waiting list of `u`, which has not exited, or is ready with the value that `u` exited
with in its `return_reciever` (`Joining`). Nothing else writes there: a thread waits for
one thread only, so only that one's exit can wake it, and until it is dispatched it is in
no waiting list.

From this follow the scheduler invariant in full (`sched_inv`) and that every join
delivers the right value (`join_delivers`).
-/

namespace PetLab.Threads

open PetLab.Lib

/-- The calls of a run: `main` does not join or exit, and joins name created threads that
have not exited. -/
def Allowed (s : Sched) (c : Call) : Prop := Permitted s c ∧ ∀ threadId, c = .join threadId → Live s threadId

instance (s : Sched) (c : Call) : Decidable (Allowed s c) :=
  match c with
  | .join threadId => decidable_of_iff (Permitted s (.join threadId) ∧ Live s threadId) <|
      and_congr Iff.rfl ⟨fun h _ he => Call.join.inj he ▸ h, fun h => h threadId rfl⟩
  | .create => decidable_of_iff (Permitted s .create) ⟨fun h => ⟨h, by simp⟩, And.left⟩
  | .run => decidable_of_iff (Permitted s .run) ⟨fun h => ⟨h, by simp⟩, And.left⟩
  | .schedule => decidable_of_iff (Permitted s .schedule) ⟨fun h => ⟨h, by simp⟩, And.left⟩
  | .yieldTo threadId => decidable_of_iff (Permitted s (.yieldTo threadId)) ⟨fun h => ⟨h, by simp⟩, And.left⟩
  | .exit retVal => decidable_of_iff (Permitted s (.exit retVal)) ⟨fun h => ⟨h, by simp⟩, And.left⟩

/-- Where the threads inside `pet_thread_join` are, when `gone u v` says that `u` has
exited with value `v`. -/
structure Joining (gone : ℕ → ℕ → Prop) (s : Sched) : Prop where
  /-- A joiner is blocked and waits for a live thread, or is ready and has the value. -/
  joining : ∀ x u, Live s x → s.cont x = .join u →
    (s.state x = .blocked ∧ x ∈ s.waiting u ∧ Live s u) ∨
      (s.state x = .ready ∧ gone u (s.thread x).returnReciever)
  /-- Only joiners are blocked. -/
  blocked : ∀ x, Live s x → s.state x = .blocked → ∃ u, s.cont x = .join u
  /-- The master thread does not join. -/
  master : ∀ u, s.cont 0 ≠ .join u

/-- What the events say about joins. -/
structure TraceOk (s : Sched) : Prop where
  /-- A join returns the value the thread exited with, after it exited. -/
  returned : ∀ before x u r after, s.trace = before ++ .joined x u r :: after → .exited u r ∈ before
  /-- A thread exits once. -/
  once : ∀ u v w, .exited u v ∈ s.trace → .exited u w ∈ s.trace → v = w

/-- The events say that `u` exited with `v`. -/
def ExitedWith (s : Sched) (u v : ℕ) : Prop := .exited u v ∈ s.trace

section Joining

variable {s s₁ s₂ s' : Sched} {c : Call} {st : RunState} {gone : ℕ → ℕ → Prop}

theorem Joining.create (hj : Joining (ExitedWith s) s) (h : Core .running s) :
    Joining (ExitedWith s.petThreadCreate) s.petThreadCreate := by
  have hlive : ∀ x, x ≠ s.threadIdCount → Live s.petThreadCreate x → Live s x := fun x hx hl =>
    ((h.live_petThreadCreate x).mp hl).resolve_right hx
  refine ⟨fun x u hl hx => ?_, fun x hl hx => ?_, fun u hx => ?_⟩
  · rw [cont_petThreadCreate] at hx
    split_ifs at hx with hnew
    rcases hj.joining x u (hlive x hnew hl) hx with ⟨h₁, h₂, h₃⟩ | hready
    · refine .inl ⟨?_, ?_, (h.live_petThreadCreate u).mpr (.inl h₃)⟩
      · rwa [state_petThreadCreate, if_neg hnew]
      · rwa [waiting_petThreadCreate, if_neg h₃.created.ne]
    · refine .inr ⟨by rw [state_petThreadCreate, if_neg hnew, hready.1], ?_⟩
      rw [show s.petThreadCreate.thread x = s.thread x from Function.update_of_ne hnew ..]
      exact hready.2
  · rw [state_petThreadCreate] at hx
    rw [cont_petThreadCreate]
    split_ifs at hx ⊢ with hnew
    exact hj.blocked x (hlive x hnew hl) hx
  · rw [cont_petThreadCreate, if_neg h.count.ne] at hx
    exact hj.master u hx

/-- The running thread leaves user code, to go on somewhere else than in a join. -/
theorem Joining.suspend {k : Cont} (hj : Joining gone s) (h : Core .running s) (hk : ∀ u, k ≠ .join u) :
    Joining gone (s.suspend k) := by
  have hcont : ∀ x, (s.suspend k).cont x = if x = s.running then k else s.cont x := by
    intro x
    simp only [Sched.suspend, Function.update_apply]
  refine ⟨fun x u hl hx => ?_, fun x hl hx => ?_, fun u hx => ?_⟩
  · rw [hcont] at hx
    split_ifs at hx with hxr
    · exact absurd hx (hk u)
    · exact (hj.joining x u ⟨hl.pos, hl.created, hl.unexited⟩ hx).imp
        (fun hb => ⟨hb.1, hb.2.1, hb.2.2.pos, hb.2.2.created, hb.2.2.unexited⟩) id
  · rw [hcont, if_neg]
    · exact hj.blocked x ⟨hl.pos, hl.created, hl.unexited⟩ hx
    · rintro rfl
      rw [state_suspend, h.runState] at hx
      cases hx
  · rw [hcont] at hx
    split_ifs at hx with hxr
    · exact hk u hx
    · exact hj.master u hx

/-- The running thread joins a live thread. -/
theorem Joining.waits {t : ℕ} (hj : Joining gone s) (h₀ : s.running ≠ 0) (ht : Live s t)
    (hw : Waits (s.suspend (.join t)) t s₁) : Joining gone s₁ := by
  have hcont : ∀ x, s₁.cont x = if x = s.running then .join t else s.cont x := by
    intro x
    rw [hw.cont]
    simp only [Sched.suspend, Function.update_apply]
  have hstate : ∀ x, s₁.state x = if x = s.running then .blocked else s.state x := hw.state
  have hlive : ∀ x, Live s₁ x ↔ Live s x := live_congr hw.count hw.trace
  have hsub : ∀ u x, x ∈ s.waiting u → x ∈ s₁.waiting u := by
    intro u x hx
    rw [hw.waiting]
    split_ifs with hu
    · subst hu
      exact List.mem_append.mpr (.inl hx)
    · exact hx
  refine ⟨fun x u hl hx => ?_, fun x hl hx => ?_, fun u hx => ?_⟩
  · rw [hcont] at hx
    rw [hlive] at hl
    split_ifs at hx with hxr
    · obtain rfl : t = u := by simpa using hx
      refine .inl ⟨by rw [hstate, if_pos hxr], ?_, (hlive t).mpr ht⟩
      rw [hw.waiting, if_pos rfl, hxr]
      exact List.mem_append.mpr (.inr (List.mem_singleton_self _))
    · rw [hstate, if_neg hxr, hw.returnReciever]
      exact (hj.joining x u hl hx).imp (fun h => ⟨h.1, hsub u x h.2.1, (hlive u).mpr h.2.2⟩) id
  · rw [hcont]
    split_ifs with hxr
    · exact ⟨t, rfl⟩
    · rw [hstate, if_neg hxr] at hx
      exact hj.blocked x ((hlive x).mp hl) hx
  · rw [hcont, if_neg h₀.symm] at hx
    exact hj.master u hx

/-- One waiter of the exiting thread gets its value. -/
theorem Joining.woken {x retVal : ℕ} {xs : List ℕ} (hj : Joining gone s) (h : Core .running s)
    (h₀ : s.running ≠ 0) (hwait : s.waiting s.running = x :: xs) (hw : Woken retVal s x s')
    (hexit : gone s.running retVal) : Joining gone s' := by
  have hrun : Live s s.running := h.runLive (by decide) h₀
  obtain ⟨-, hxstate⟩ := h.waiters s.running x hrun (by simp [hwait])
  have hlive := live_congr hw.count hw.trace
  refine ⟨fun y u hl hy => ?_, fun y hl hy => ?_, fun u => by rw [hw.cont]; exact hj.master u⟩
  · rw [hw.cont] at hy
    rw [hlive] at hl
    rw [hw.state, hw.returnReciever, hlive]
    by_cases hyx : y = x
    · -- the thread it waited for is the one that exits
      subst hyx
      rw [if_pos rfl, if_pos rfl]
      rcases hj.joining y u hl hy with ⟨-, hmem, hu⟩ | ⟨hready, -⟩
      · obtain rfl := h.waitsOnce u s.running y hu hrun hmem (by simp [hwait])
        exact .inr ⟨rfl, hexit⟩
      · rw [hxstate] at hready
        cases hready
    · rw [if_neg hyx, if_neg hyx]
      refine (hj.joining y u hl hy).imp (fun hb => ⟨hb.1, ?_, hb.2.2⟩) id
      rw [hw.waiting]
      split_ifs with hur
      · have hmem := hb.2.1
        rw [hur, hwait] at hmem ⊢
        exact (List.mem_cons.mp hmem).resolve_left hyx
      · exact hb.2.1
  · rw [hw.cont]
    rw [hw.state] at hy
    split_ifs at hy with hyx
    exact hj.blocked y ((hlive y).mp hl) hy

/-- The running thread exits: its waiters have its value when it has. -/
theorem Joining.exit {retVal : ℕ} (hj : Joining (ExitedWith s) s) (h : Core .running s) (h₀ : s.running ≠ 0)
    (hw : Sched.wakeAll retVal (s.waiting s.running) (s.suspend .exited) = some s₁) :
    Joining (ExitedWith ((s₁.setState s₁.running .stopped).note (.exited s₁.running retVal)))
      ((s₁.setState s₁.running .stopped).note (.exited s₁.running retVal)) := by
  -- during the loop, the running thread counts as exited with its value
  have hstart : Joining (fun u v => ExitedWith s u v ∨ (u = s.running ∧ v = retVal)) (s.suspend .exited) := by
    have hs := hj.suspend h (k := .exited) (by simp)
    exact ⟨fun x u hl hx => (hs.joining x u hl hx).imp id fun hb => ⟨hb.1, .inl hb.2⟩, hs.blocked, hs.master⟩
  obtain ⟨s', hs', -, -, -, ht, -, he, hrun', hj'⟩ := wakeAll_spec
    (P := fun u => u.running = s.running ∧
      Joining (fun u v => ExitedWith s u v ∨ (u = s.running ∧ v = retVal)) u)
    (fun u x xs u' hc hu₀ hwait hwoken hP => ⟨hwoken.running.trans hP.1,
      hP.2.woken hc hu₀ hwait hwoken (.inr ⟨hP.1, rfl⟩)⟩)
    (h.suspend .exited) h₀ rfl ⟨rfl, hstart⟩
  obtain rfl := Option.some.inj (hw.symm.trans hs')
  set s₂ := (s₁.setState s₁.running .stopped).note (.exited s₁.running retVal) with hs₂
  have hlive : ∀ x, Live s₂ x ↔ Live s₁ x ∧ x ≠ s₁.running := live_exit s₁ retVal
  have hstate : ∀ x, x ≠ s₁.running → s₂.state x = s₁.state x := by
    intro x hx
    rw [hs₂, state_note, state_setState, if_neg hx]
  have hwaiting : ∀ x, s₂.waiting x = s₁.waiting x := by
    intro x
    rw [hs₂, waiting_note, waiting_setState]
  have hret : ∀ x, (s₂.thread x).returnReciever = (s₁.thread x).returnReciever :=
    fun x => returnReciever_setState s₁ s₁.running x .stopped
  have hexit : ∀ u v, ExitedWith s u v ∨ (u = s.running ∧ v = retVal) → ExitedWith s₂ u v := by
    rintro u v (hv | ⟨rfl, rfl⟩)
    · refine List.mem_append.mpr (.inl ?_)
      show _ ∈ s₁.trace
      rw [ht]
      exact hv
    · exact List.mem_append.mpr (.inr (by rw [hrun']; exact List.mem_singleton_self _))
  refine ⟨fun x u hl hx => ?_, fun x hl hx => ?_, hj'.master⟩
  · obtain ⟨hl, hne⟩ := (hlive x).mp hl
    rw [hstate x hne, hwaiting, hret, hlive]
    refine (hj'.joining x u hl hx).imp (fun hb => ⟨hb.1, hb.2.1, hb.2.2, ?_⟩) fun hb => ⟨hb.1, hexit _ _ hb.2⟩
    rintro rfl
    rw [he] at hb
    cases hb.2.1
  · obtain ⟨hl, hne⟩ := (hlive x).mp hl
    rw [hstate x hne] at hx
    exact hj'.blocked x hl hx

/-- A thread that is switched to while it is in a join has the value of the thread it
joined: it was ready. -/
theorem Joining.value_of_moved {u : ℕ} (hj : Joining gone s₁) (hc : Core st s₁) (hm : Moved c st s₁ s₂)
    (hu : s₂.cont s₂.running = .join u) : gone u (s₂.thread s₂.running).returnReciever := by
  cases hm with
  | stay h₀ _ =>
    rw [h₀] at hu
    exact absurd hu (hj.master u)
  | @switch t _ ht hsw _ =>
    rw [hsw.cont, hsw.running] at hu
    rw [hsw.returnReciever, hsw.running]
    have ht₀ : t ≠ 0 := by
      rintro rfl
      exact hj.master u hu
    rcases hj.joining t u (hc.ready t (ht.resolve_left fun h => ht₀ h.1)).1 hu with ⟨hb, -⟩ | ⟨-, hv⟩
    · rw [hc.state_target ht] at hb
      cases hb
    · exact hv

/-- The other threads are where they were, and wait as they did. -/
theorem Joining.moved (hj : Joining gone s₁) (hc : Core st s₁) (hm : Moved c st s₁ s₂) :
    (∀ x u, Live s₂ x → x ≠ s₂.running → s₂.cont x = .join u →
      (s₂.state x = .blocked ∧ x ∈ s₂.waiting u ∧ Live s₂ u) ∨
        (s₂.state x = .ready ∧ gone u (s₂.thread x).returnReciever)) ∧
      ∀ x, Live s₂ x → s₂.state x = .blocked → ∃ u, s₂.cont x = .join u := by
  cases hm with
  | stay h₀ _ => exact ⟨fun x u hl _ hx => hj.joining x u hl hx, hj.blocked⟩
  | @switch t _ ht hsw _ =>
    have hlive := live_congr hsw.count hsw.trace
    -- the thread left keeps its state when it is in a join
    have hstate : ∀ x u, Live s₁ x → x ≠ t → s₁.cont x = .join u → s₂.state x = s₁.state x := by
      intro x u hl hxt hx
      rw [hsw.state, if_neg hxt]
      split_ifs with hxr hrun
      · subst hxr
        rw [hrun] at hc
        rcases hj.joining _ u hl hx with ⟨hb, -⟩ | ⟨hb, -⟩
        · rw [hc.runState] at hb
          cases hb
        · rw [hc.runState] at hb
          cases hb
      · rw [hxr, hc.runState]
      · rfl
    refine ⟨fun x u hl hxt hx => ?_, fun x hl hx => ?_⟩
    · rw [hlive] at hl
      rw [hsw.running] at hxt
      rw [hsw.cont] at hx
      rw [hstate x u hl hxt hx, hsw.waiting, hsw.returnReciever, hlive]
      exact hj.joining x u hl hx
    · rw [hlive] at hl
      rw [hsw.cont]
      apply hj.blocked x hl
      rw [hsw.state] at hx
      split_ifs at hx with hxt hxr hrun
      · rw [hxr, hc.runState]
        exact hx
      · exact hx

/-- The scheduler switches and the thread switched to goes on: if it is in a join, it
has the value of the thread it joined. -/
theorem Joining.resumed (hj : Joining gone s₁) (hc : Core st s₁) (hst : st ≠ .ready)
    (hmaster : s₁.running = 0 → st = .running) (hm : Moved c st s₁ s₂) (hr : s₂.resume = some s') :
    Joining gone s' ∧ ∀ x u r, s₂.resumeEvent = some (.joined x u r) → gone u r := by
  obtain ⟨hne, rfl⟩ := resume_eq_some_iff.mp hr
  obtain ⟨hjoining, hblocked⟩ := hj.moved hc hm
  have hexited := exited_resume hr
  have hlive : ∀ x, Live { s₂.suspend .user with trace := s₂.trace ++ s₂.resumeEvent.toList } x ↔ Live s₂ x := by
    intro x
    simp only [live_iff, hexited]
    rfl
  have hcont : ∀ x, ({ s₂.suspend .user with trace := s₂.trace ++ s₂.resumeEvent.toList } : Sched).cont x =
      if x = s₂.running then .user else s₂.cont x := by
    intro x
    simp only [Sched.suspend, Function.update_apply]
  refine ⟨⟨fun x u hl hx => ?_, fun x hl hx => ?_, fun u hx => ?_⟩, fun x u r he => ?_⟩
  · rw [hcont] at hx
    rw [hlive] at hl
    split_ifs at hx with hxr
    rw [hlive]
    exact hjoining x u hl hxr hx
  · rw [hlive] at hl
    rw [hcont, if_neg]
    · exact hblocked x hl hx
    · rintro rfl
      have hrun := (hm.core hc hst hmaster).runState
      rw [show s₂.state s₂.running = .blocked from hx] at hrun
      cases hrun
  · rw [hcont] at hx
    split_ifs at hx with h₀
    rw [hm.cont_eq] at hx
    exact hj.master u hx
  · unfold Sched.resumeEvent at he
    split at he
    · simp at he
    · rename_i id hid
      simp only [Option.some.injEq, Event.joined.injEq] at he
      obtain ⟨rfl, rfl, rfl⟩ := he
      exact hj.value_of_moved hc hm hid
    · cases he

theorem Joining.mono {gone' : ℕ → ℕ → Prop} (hj : Joining gone s) (h : ∀ u v, gone u v → gone' u v) :
    Joining gone' s :=
  ⟨fun x u hl hx => (hj.joining x u hl hx).imp id fun hb => ⟨hb.1, h _ _ hb.2⟩, hj.blocked, hj.master⟩

/-! ### The events -/

/-- One more event. -/
theorem TraceOk.concat {e : Event} (ht : TraceOk s) (he : s'.trace = s.trace ++ [e])
    (hjoined : ∀ x u r, e = .joined x u r → ExitedWith s u r) (hexited : ∀ u v, e = .exited u v → ¬ Exited s u) :
    TraceOk s' := by
  refine ⟨fun before x u r after hsplit => ?_, fun u v w hv hw => ?_⟩
  · rw [he] at hsplit
    rcases List.eq_nil_or_concat after with rfl | ⟨after, e', rfl⟩
    · obtain ⟨rfl, h'⟩ := List.append_inj' hsplit rfl
      exact hjoined x u r (by simpa using h')
    · rw [List.concat_eq_append, ← List.cons_append, ← List.append_assoc] at hsplit
      exact ht.returned before x u r after (List.append_inj' hsplit rfl).1
  · rw [he, List.mem_append, List.mem_singleton] at hv hw
    rcases hv with hv | rfl
    · rcases hw with hw | rfl
      · exact ht.once u v w hv hw
      · exact absurd ⟨v, hv⟩ (hexited u w rfl)
    · rcases hw with hw | hw
      · exact absurd ⟨w, hw⟩ (hexited u v rfl)
      · simpa using hw.symm

theorem TraceOk.congr (ht : TraceOk s) (he : s'.trace = s.trace) : TraceOk s' :=
  ⟨by rw [he]; exact ht.returned, by rw [he]; exact ht.once⟩

/-! ### Whole calls -/

/-- What holds whenever user code runs. -/
structure JoinInv (s : Sched) : Prop where
  /-- The scheduler invariant. -/
  core : Core .running s
  /-- Only a thread that has exited is in `__quarantine`. -/
  cont : ContOk s
  /-- The joiners are where they should be. -/
  joining : Joining (ExitedWith s) s
  /-- The joins that returned were right. -/
  trace : TraceOk s

/-- The first half of a call. -/
theorem JoinInv.first (h : JoinInv s) (hf : First s c st s₁) (ha : Allowed s c) :
    Joining (ExitedWith s₁) s₁ ∧ TraceOk s₁ := by
  cases hf with
  | run => exact ⟨h.joining.suspend h.core (by simp), h.trace.congr rfl⟩
  | schedule => exact ⟨h.joining.suspend h.core (by simp), h.trace.congr rfl⟩
  | yieldTo _ => exact ⟨h.joining.suspend h.core (by simp), h.trace.congr rfl⟩
  | @join threadId _ h₀ _ hw =>
    refine ⟨(h.joining.waits h₀ (ha.2 threadId rfl) hw).mono fun u v hv => ?_, h.trace.congr hw.trace⟩
    show _ ∈ s₁.trace
    rw [hw.trace]
    exact hv
  | @exit retVal s₀ h₀ hw =>
    obtain ⟨-, hr, -, htrace, -⟩ := wakeAll_eq h.core h₀ hw
    refine ⟨h.joining.exit h.core h₀ hw, h.trace.concat (e := .exited s₀.running retVal) ?_ (by simp) ?_⟩
    · rw [← htrace]
      rfl
    · rintro u v he
      rw [← (Event.exited.inj he).1, hr]
      exact (h.core.runLive (by decide) h₀).unexited

theorem JoinInv.step (h : JoinInv s) (hs : CallSpec s c s') (ha : Allowed s c) : JoinInv s' := by
  obtain ⟨hcore, hcont⟩ := hs.core h.core h.cont
  cases hs with
  | create _ => exact ⟨hcore, hcont, h.joining.create h.core, h.trace.congr rfl⟩
  | joinFails _ _ => exact h
  | @switch st s₁ s₂ _ hf hm hr =>
    obtain ⟨hj, ht⟩ := h.first hf ha
    obtain ⟨hc, -, hst, hmaster⟩ := hf.core h.core
    obtain ⟨hj', hevent⟩ := hj.resumed hc hst hmaster hm hr
    have htrace : s₂.trace = s₁.trace := by
      cases hm with
      | stay _ _ => rfl
      | switch _ hsw _ => exact hsw.trace
    have htrace' : s'.trace = s₁.trace ++ s₂.resumeEvent.toList := by
      rw [(resume_eq_some_iff.mp hr).2, htrace]
    refine ⟨hcore, hcont, hj'.mono fun u v hv => ?_, ?_⟩
    · show _ ∈ s'.trace
      rw [htrace']
      exact List.mem_append.mpr (.inl hv)
    · cases he : s₂.resumeEvent with
      | none =>
        rw [he] at htrace'
        exact ht.congr (by simpa using htrace')
      | some e =>
        rw [he] at htrace'
        refine ht.concat htrace' (fun x u r hxe => hevent x u r (by rw [he, hxe])) fun u v hxe => ?_
        subst hxe
        unfold Sched.resumeEvent at he
        split at he <;> cases he

theorem joinInv_petThreadInit : JoinInv petThreadInit where
  core := core_petThreadInit
  cont := fun t ht => by simp [petThreadInit] at ht
  joining := ⟨fun x u _ hx => by simp [petThreadInit] at hx,
    fun x hl _ => absurd hl.created (by have := hl.pos; simp only [petThreadInit]; omega),
    fun u hu => by simp [petThreadInit] at hu⟩
  trace := ⟨by simp [petThreadInit], by simp [petThreadInit]⟩

/-- A join that is allowed is not one on the master thread. -/
theorem Allowed.ne_join_zero (ha : Allowed s c) : c ≠ .join 0 := by
  rintro rfl
  exact absurd (ha.2 0 rfl).pos (lt_irrefl 0)

theorem joinInv_of_run {calls : List Call} (h : Exec (Guard Allowed Step) petThreadInit calls s) : JoinInv s := by
  refine h.inv joinInv_petThreadInit fun s c s' hI hstep => ?_
  obtain ⟨ha, hstep⟩ := hstep
  obtain ⟨s'', hs'', hspec⟩ := hI.core.call hI.cont ha.1 ha.ne_join_zero
  obtain rfl := Option.some.inj (hstep.symm.trans hs'')
  exact hI.step hspec ha

end Joining

/-! ### The scheduler invariant -/

/-- The scheduler invariant, as it can be observed when user code runs. -/
structure SchedInv (s : Sched) : Prop where
  /-- The running thread is `main` or a created thread that has not exited; its state is
  `RUNNING`, and it is in neither list. -/
  running : (s.running = 0 ∨ Live s s.running) ∧ s.state s.running = .running ∧
    s.running ∉ s.readyList ∧ s.running ∉ s.blockedList
  /-- Every other thread is in one list, once, with the state that belongs to it. -/
  others : ∀ t, Live s t → t ≠ s.running →
    (s.state t = .ready ∧ s.readyList.count t = 1 ∧ t ∉ s.blockedList) ∨
      (s.state t = .blocked ∧ s.blockedList.count t = 1 ∧ t ∉ s.readyList)
  /-- `main` is in neither list. -/
  main : 0 ∉ s.readyList ∧ 0 ∉ s.blockedList ∧ s.state 0 = if s.running = 0 then .running else .ready
  /-- The blocked threads are those that wait for a thread. -/
  blocked : ∀ x, (Live s x ∧ s.state x = .blocked) ↔ ∃ t, Live s t ∧ x ∈ s.waiting t
  /-- And they wait for one thread, once. -/
  once : ∀ t x, Live s t → x ∈ s.waiting t →
    (s.waiting t).count x = 1 ∧ ∀ u, Live s u → u ≠ t → x ∉ s.waiting u

theorem JoinInv.schedInv {s : Sched} (h : JoinInv s) : SchedInv s := by
  have hc := h.core
  refine ⟨⟨?_, hc.runState, fun hm => (hc.ready _ hm).2.1 rfl, fun hm => (hc.blocked _ hm).2.1 rfl⟩, ?_, ?_, ?_, ?_⟩
  · by_cases h₀ : s.running = 0
    · exact .inl h₀
    · exact .inr (hc.runLive (by decide) h₀)
  · intro t ht hne
    rcases hc.listed t ht hne with hm | hm
    · refine .inl ⟨(hc.ready t hm).2.2, List.count_eq_one_of_mem hc.readyNodup hm, fun hb => ?_⟩
      have hst := (hc.blocked t hb).2.2
      rw [(hc.ready t hm).2.2] at hst
      cases hst
    · refine .inr ⟨(hc.blocked t hm).2.2, List.count_eq_one_of_mem hc.blockedNodup hm, fun hb => ?_⟩
      have hst := (hc.blocked t hm).2.2
      rw [(hc.ready t hb).2.2] at hst
      cases hst
  · refine ⟨hc.master_notMem, fun hm => absurd (hc.blocked 0 hm).1.pos (lt_irrefl 0), ?_⟩
    split_ifs with h₀
    · rw [← h₀]
      exact hc.runState
    · exact hc.master h₀
  · intro x
    constructor
    · rintro ⟨hl, hst⟩
      obtain ⟨u, hu⟩ := h.joining.blocked x hl hst
      rcases h.joining.joining x u hl hu with ⟨-, hm, hlu⟩ | ⟨hr, -⟩
      · exact ⟨u, hlu, hm⟩
      · rw [hst] at hr
        cases hr
    · rintro ⟨t, ht, hm⟩
      exact hc.waiters t x ht hm
  · intro t x ht hm
    refine ⟨List.count_eq_one_of_mem (hc.waitingNodup t ht) hm, fun u hu hne hm' => ?_⟩
    exact hne (hc.waitsOnce u t x hu ht hm' hm)

/-- **The scheduler invariant** holds whenever user code runs, and every call goes
through: no `assert` fails. -/
theorem sched_inv (calls : List Call) (s : Sched) (h : Exec (Guard Allowed Step) petThreadInit calls s) :
    SchedInv s ∧ ∀ c, Allowed s c → ∃ s', Step s c s' := by
  have hI := joinInv_of_run h
  refine ⟨hI.schedInv, fun c ha => ?_⟩
  obtain ⟨s', hs', -⟩ := hI.core.call hI.cont ha.1 ha.ne_join_zero
  exact ⟨s', hs'⟩

/-- Thread 1 creates thread 2 and joins it: then 2 runs, and 1 is blocked and waits for it. -/
theorem sched_inv_join : ∃ s, Exec (Guard Allowed Step) petThreadInit [.create, .run, .create, .join 2] s ∧
    SchedInv s ∧ s.running = 2 ∧ s.blockedList = [1] ∧ s.waiting 2 = [1] := by
  have hrun : (guardedRun Allowed Sched.call petThreadInit [.create, .run, .create, .join 2]).map
      (fun s => (s.running, s.blockedList, s.waiting 2)) = some (2, [1], [1]) := by decide +kernel
  obtain ⟨s, hs, he⟩ := Option.map_eq_some_iff.mp hrun
  simp only [Prod.mk.injEq] at he
  have h := exec_of_guardedRun hs
  exact ⟨s, h, (sched_inv _ s h).1, he⟩

/-- **Join delivers the right value.** Whenever `pet_thread_join(u, &r)` has returned `0`,
`u` had exited before with the value `r`, and with no other. -/
theorem join_delivers (calls : List Call) (s : Sched) (h : Exec (Guard Allowed Step) petThreadInit calls s) :
    ∀ before x u r after, s.trace = before ++ .joined x u r :: after →
      .exited u r ∈ before ∧ ∀ v, .exited u v ∈ s.trace → v = r := by
  intro before x u r after hsplit
  have hI := joinInv_of_run h
  have hbefore := hI.trace.returned before x u r after hsplit
  refine ⟨hbefore, fun v hv => hI.trace.once u v r hv ?_⟩
  rw [hsplit]
  exact List.mem_append.mpr (.inl hbefore)

/-- Threads 1 and 2 join thread 3, which exits with value 7: both get it. -/
theorem join_delivers_twice : ∃ s,
    Exec (Guard Allowed Step) petThreadInit
      [.create, .create, .create, .run, .join 3, .join 3, .exit 7, .schedule] s ∧
    s.trace = [.exited 3 7, .joined 1 3 7] ++ .joined 2 3 7 :: [] ∧
    .exited 3 7 ∈ [Event.exited 3 7, .joined 1 3 7] ∧ ∀ v, .exited 3 v ∈ s.trace → v = 7 := by
  have hrun : (guardedRun Allowed Sched.call petThreadInit
      [.create, .create, .create, .run, .join 3, .join 3, .exit 7, .schedule]).map Sched.trace =
        some ([.exited 3 7, .joined 1 3 7] ++ .joined 2 3 7 :: []) := by decide +kernel
  obtain ⟨s, hs, htrace⟩ := Option.map_eq_some_iff.mp hrun
  have h := exec_of_guardedRun hs
  exact ⟨s, h, htrace, join_delivers _ s h _ 2 3 7 _ htrace⟩

end PetLab.Threads
