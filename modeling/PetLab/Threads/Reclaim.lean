import PetLab.Threads.FreedRecords
import PetLab.Threads.JoinInv

/-!
# Every thread that exits is reclaimed once

`__quarantine` only marks the thread `STOPPED`. Its record and its stack are freed by
`pet_thread_cleanup`, which `__switch_to_stack` calls when the stack of the next thread is
already in place, with the id of the thread left; the id is looked up again. So there are
three ways to go wrong: the lookup misses, the thread is found a second time, or it is still
listed somewhere.

`reclaimed_once` says that none occurs, in runs in which `main` does not join or exit and joins
name created threads that have not exited. `Reclaims` is what one call does: an exit
makes one switch, and that switch frees the thread that exited and nobody else, and no other
call frees anything. Nobody waits for a thread that has been freed, or in its waiting list,
because `__quarantine` has emptied it and no join names it later (`ReclaimInv.idle`).
-/

namespace PetLab.Threads

open PetLab.Lib

/-- What a call frees. -/
inductive Reclaims (s : Sched) (c : Call) (s' : Sched) : Prop where
  /-- The running thread exits. Up to the switch to `t`, when the stack of `t` is in use (`u`), it is not freed;
  `pet_thread_cleanup` finds it, and frees it. -/
  | exit {retVal t : ℕ} {s₁ u s₂ : Sched} (call : c = .exit retVal)
      (exited : (s.suspend .exited).quarantine retVal = some s₁ ∧ ¬ Exited s s.running ∧ Exited s₁ s.running)
      (kept : s₁.freed = s.freed)
      (switched : s₁.switchTo t = some u ∧ u.running = t ∧ t ≠ s.running ∧ u.freed = s.freed)
      (cleaned : u.petThreadCleanup s.running = some s₂ ∧ s₂.freed = s.freed ++ [s.running])
      (resumed : s₂.resume = some s') (freed : s'.freed = s.freed ++ [s.running])
  /-- Nobody exits, and nobody is freed. -/
  | other (call : ∀ retVal, c ≠ .exit retVal) (exited : ∀ t, Exited s' t ↔ Exited s t) (freed : s'.freed = s.freed)

/-- What holds whenever user code runs. -/
structure ReclaimInv (s : Sched) : Prop where
  /-- The threads are where they should be. -/
  joins : JoinInv s
  /-- The freed ones are those that exited. -/
  records : FreedInv s
  /-- Each was freed once. -/
  nodup : s.freed.Nodup
  /-- Nobody is in the waiting list of a thread that is not live. -/
  idle : ∀ u, ¬ Live s u → s.waiting u = []

theorem reclaimInv_petThreadInit : ReclaimInv petThreadInit where
  joins := joinInv_petThreadInit
  records := freedInv_petThreadInit
  nodup := .nil
  idle := fun _ _ => rfl

section Step

variable {s s₁ s₂ s' : Sched} {c : Call} {st : RunState}

/-! ### What is freed -/

/-- A created thread always leaves the scheduler by a switch. -/
theorem petThreadSchedule_switches (h₀ : s.running ≠ 0) (h : s.petThreadSchedule = some s') :
    ∃ t, s.threadInvoker t = some s' := by
  unfold Sched.petThreadSchedule masterId at h
  cases hl : s.readyList with
  | nil =>
    simp only [hl, if_pos h₀] at h
    exact ⟨0, h⟩
  | cons pos rest =>
    simp only [hl] at h
    split_ifs at h
    exact ⟨pos, h⟩

theorem resume_freed (h : s.resume = some s') : s'.freed = s.freed := by
  obtain ⟨-, rfl⟩ := resume_eq_some_iff.mp h
  rfl

/-- The second half of a call frees the thread that ran, if it has exited. -/
theorem Quiet.turn_freed {later : List (Sched × ℕ)} (hq : Quiet s s₁) (ht : Turn s₁ later s₂) :
    s₂.freed = if s₁.state s.running = .stopped then s.freed ++ [s.running] else s.freed := by
  cases ht with
  | stay h₀ =>
    rw [hq.running] at h₀
    rw [if_neg fun hst => hq.thread hst h₀, hq.freed]
  | switch hsw hclean =>
    have hold := hsw.state_old
    rw [hq.running] at hold
    rw [hclean]
    simp only [hq.running, hold, hsw.freed, hq.freed]

/-- An exit frees the thread that exits, in its one switch. -/
theorem FreedInv.reclaims_exit {retVal : ℕ} (h : FreedInv s) (hstep : Step s (.exit retVal) s') :
    Reclaims s (.exit retVal) s' := by
  obtain ⟨s₁, hs₁, hstep⟩ := Option.bind_eq_some_iff.mp hstep
  obtain ⟨s₂, hs₂, hr⟩ := Option.bind_eq_some_iff.mp hstep
  obtain ⟨hq, hst⟩ := quiet_quarantine hs₁
  obtain ⟨t, ht⟩ := petThreadSchedule_switches (by rw [hq.running]; exact hq.thread hst) hs₂
  rw [threadInvoker_eq] at ht
  obtain ⟨u, hu, hclean⟩ := Option.bind_eq_some_iff.mp ht
  have hsw := switchTo_spec hu
  have hne : t ≠ s.running := by
    rw [← hq.running]
    rintro rfl
    exact hsw.old hsw.ready
  have hfreed : s₂.freed = s.freed ++ [s.running] := by
    rw [hq.turn_freed (petThreadSchedule_turn hs₂), if_pos hst]
  rw [hq.running] at hclean
  refine .exit rfl ⟨hs₁, ?_, (hq.exited _).mpr (.inr ⟨hst, rfl⟩)⟩ hq.freed
    ⟨hu, hsw.running, hne, hsw.freed.trans hq.freed⟩ ⟨hclean, hfreed⟩ hr ((resume_freed hr).trans hfreed)
  rw [h.exited]
  exact h.running_notMem

theorem FreedInv.reclaims (h : FreedInv s) (hstep : Step s c s') : Reclaims s c s' := by
  by_cases hexit : ∃ retVal, c = .exit retVal
  · obtain ⟨retVal, rfl⟩ := hexit
    exact h.reclaims_exit hstep
  have hcall : ∀ retVal, c ≠ .exit retVal := fun retVal hc => hexit ⟨retVal, hc⟩
  cases h.trip hstep with
  | create _ hs' =>
    subst hs'
    exact .other hcall (fun _ => Iff.rfl) rfl
  | joinFails _ _ _ hs' =>
    subst hs'
    exact .other hcall (fun _ => Iff.rfl) rfl
  | switch hq hexits hturn _ _ _ hr =>
    have hrun := mt hexits.mp hexit
    have hfreed : s'.freed = s.freed := by
      rw [resume_freed hr, hq.turn_freed hturn, if_neg hrun]
    refine .other hcall (fun t => ?_) hfreed
    rw [((h.turn hq hturn).resume hr).exited, hfreed, h.exited]

/-! ### Who is waited for -/

/-- The first half of a call leaves the waiting lists of threads that are not live empty. -/
theorem ReclaimInv.idle_first (h : ReclaimInv s) (hf : First s c st s₁) (ha : Allowed s c) :
    ∀ u, ¬ Live s₁ u → s₁.waiting u = [] := by
  intro u hu
  cases hf with
  | run => exact h.idle u fun hl => hu ⟨hl.pos, hl.created, hl.unexited⟩
  | schedule => exact h.idle u fun hl => hu ⟨hl.pos, hl.created, hl.unexited⟩
  | yieldTo _ => exact h.idle u fun hl => hu ⟨hl.pos, hl.created, hl.unexited⟩
  | @join threadId _ _ _ hw =>
    have hlive : ∀ x, Live s₁ x ↔ Live s x := live_congr hw.count hw.trace
    rw [hlive] at hu
    have hne : u ≠ threadId := by
      rintro rfl
      exact hu (ha.2 u rfl)
    rw [hw.waiting, if_neg hne]
    exact h.idle u hu
  | @exit retVal s₀ h₀ hw =>
    -- the loop over the waiters only changes the list of the thread that exits
    obtain ⟨s₀', hs₀', -, hr, -, ht, hn, he, -, hkept⟩ := wakeAll_spec
      (P := fun v => v.running = s.running ∧ ∀ x, x ≠ s.running → v.waiting x = s.waiting x)
      (fun v x xs v' _ _ _ (hwoken : Woken retVal v x v') hP => ⟨hwoken.running.trans hP.1, fun y hy => by
        rw [hwoken.waiting, if_neg (by rw [hP.1]; exact hy)]
        exact hP.2 y hy⟩)
      (h.joins.core.suspend .exited) h₀ rfl ⟨rfl, fun _ _ => rfl⟩
    obtain rfl := Option.some.inj (hw.symm.trans hs₀')
    rw [waiting_note, waiting_setState]
    by_cases hru : u = s.running
    · rw [hru, ← show s₀.running = s.running from hr]
      exact he
    · rw [hkept u hru]
      refine h.idle u fun hl => hu ?_
      rw [live_exit]
      have hrunning : s₀.running = s.running := hr
      exact ⟨⟨hl.pos, hn ▸ hl.created, fun hex => hl.unexited ((exited_congr ht u).mp hex)⟩, hrunning ▸ hru⟩

theorem ReclaimInv.idle_step (h : ReclaimInv s) (hs : CallSpec s c s') (ha : Allowed s c) :
    ∀ u, ¬ Live s' u → s'.waiting u = [] := by
  intro u hu
  cases hs with
  | create _ =>
    rw [waiting_petThreadCreate]
    split_ifs with hnew
    · rfl
    · exact h.idle u fun hl => hu ⟨hl.pos, Nat.lt_succ_of_lt hl.created, hl.unexited⟩
  | joinFails _ _ => exact h.idle u hu
  | @switch _ s₁ s₂ _ hf hm hr =>
    have hexited := exited_resume hr
    obtain ⟨-, rfl⟩ := resume_eq_some_iff.mp hr
    show s₂.waiting u = []
    have hu₂ : ¬ Live s₂ u := fun hl => hu ⟨hl.pos, hl.created, fun hex => hl.unexited ((hexited u).mp hex)⟩
    cases hm with
    | stay _ _ => exact h.idle_first hf ha u hu₂
    | switch _ hsw _ =>
      rw [hsw.waiting]
      exact h.idle_first hf ha u fun hl => hu₂ ((live_congr hsw.count hsw.trace u).mpr hl)

/-! ### Whole runs -/

theorem Reclaims.nodup (h : Reclaims s c s') (hrun : s.running ∉ s.freed) (hn : s.freed.Nodup) : s'.freed.Nodup := by
  cases h with
  | exit _ _ _ _ _ _ hfreed =>
    rw [hfreed, ← List.concat_eq_append]
    exact hn.concat hrun
  | other _ _ hfreed =>
    rw [hfreed]
    exact hn

theorem ReclaimInv.step (h : ReclaimInv s) (ha : Allowed s c) (hstep : Step s c s') : ReclaimInv s' := by
  obtain ⟨s'', hs'', hspec⟩ := h.joins.core.call h.joins.cont ha.1 ha.ne_join_zero
  obtain rfl := Option.some.inj (hstep.symm.trans hs'')
  exact ⟨h.joins.step hspec ha, h.records.step hstep,
    (h.records.reclaims hstep).nodup h.records.running_notMem h.nodup, h.idle_step hspec ha⟩

theorem reclaimInv_of_run {calls : List Call} (h : Exec (Guard Allowed Step) petThreadInit calls s) : ReclaimInv s :=
  h.inv reclaimInv_petThreadInit fun _ _ _ hI hstep => hI.step hstep.1 hstep.2

/-- A thread that has been freed is in no waiting list: who waits for a live thread is live. -/
theorem ReclaimInv.notMem_waiting (h : ReclaimInv s) {t : ℕ} (ht : t ∈ s.freed) (u : ℕ) : t ∉ s.waiting u := by
  intro hm
  have hexited := (h.records.exited t).mpr ht
  by_cases hu : Live s u
  · exact (h.joins.core.waiters u t hu hm).1.unexited hexited
  · rw [h.idle u hu] at hm
    cases hm

end Step

/-- **Every thread that exits is reclaimed once.** Whenever user code runs, the threads
freed are those that have exited, each once; a thread that has been freed does not run, and is in neither
queue and in no waiting list; and of the calls that may come next, an exit frees the thread that exits, in its
one switch and on the stack of another thread, and the others free nobody. -/
theorem reclaimed_once (calls : List Call) (s : Sched) (h : Exec (Guard Allowed Step) petThreadInit calls s) :
    (∀ t, s.freed.count t = if Exited s t then 1 else 0) ∧
    (∀ t ∈ s.freed, s.running ≠ t ∧ t ∉ s.readyList ∧ t ∉ s.blockedList ∧ ∀ u, t ∉ s.waiting u) ∧
    ∀ c s', Guard Allowed Step s c s' → Reclaims s c s' := by
  have hI := reclaimInv_of_run h
  refine ⟨fun t => ?_, fun t ht => ?_, fun c s' hstep => hI.records.reclaims hstep.2⟩
  · split_ifs with hexited
    · exact List.count_eq_one_of_mem hI.nodup ((hI.records.exited t).mp hexited)
    · exact List.count_eq_zero.mpr fun hm => hexited ((hI.records.exited t).mpr hm)
  · have hexited := (hI.records.exited t).mpr ht
    refine ⟨?_, fun hm => ?_, fun hm => ?_, hI.notMem_waiting ht⟩
    · rintro rfl
      exact hI.records.running_notMem ht
    · exact (hI.joins.core.ready t hm).1.unexited hexited
    · exact (hI.joins.core.blocked t hm).1.unexited hexited

/-- Thread 2 joins thread 3 and thread 1 exits, then thread 3: both are freed, in that order. -/
theorem reclaimed_once_two : ∃ s,
    Exec (Guard Allowed Step) petThreadInit [.create, .create, .create, .run, .exit 5, .join 3, .exit 7] s ∧
    s.freed = [1, 3] ∧ s.freed.count 1 = 1 ∧ ∀ u, 3 ∉ s.waiting u := by
  have hrun : (guardedRun Allowed Sched.call petThreadInit
      [.create, .create, .create, .run, .exit 5, .join 3, .exit 7]).map Sched.freed = some [1, 3] := by decide +kernel
  obtain ⟨s, hs, hfreed⟩ := Option.map_eq_some_iff.mp hrun
  have h := exec_of_guardedRun hs
  obtain ⟨-, hnot, -⟩ := reclaimed_once _ s h
  exact ⟨s, h, hfreed, by rw [hfreed]; decide, (hnot 3 (by simp [hfreed])).2.2.2⟩

end PetLab.Threads
