import PetLab.SyncProject.LfEnqueue

/-!
# After `lf_queue_init`

`lf_queue_init` gives `queue->head` and `queue->tail` a node each. The chain that
`lf_enqueue` builds starts at the node of `queue->tail`, and nothing ever links the node
`h` of `queue->head` to it: every call of `lf_dequeue` finds `h->next == NULL` and returns
`0`, however many values have been enqueued (`lf_dequeue_misses`).

So the queue behaves like one only as long as there is nothing to deliver:
`initRun_fifo_iff` says that it does so in exactly the runs in which all calls of
`lf_dequeue` that have returned began before the first value was linked.
-/

namespace PetLab.SyncProject

open PetLab.Lib

/-- The values delivered by the calls of `lf_dequeue` that returned `1`. -/
def QShared.delivered (g : QShared) : List (BitVec 32) := (g.returned.filter fun r => r.result = 1).map Return.val

/-- First in, first out: the values delivered are the first ones linked, and a call returns
`0` only if there was nothing left to deliver at some moment during the call. -/
structure Fifo (g : QShared) : Prop where
  /-- What is delivered. -/
  delivered : g.delivered <+: g.linked.map Prod.snd
  /-- When nothing is. -/
  empty : ∀ r ∈ g.returned, r.result = 0 → r.sawEmpty = true

/-- What holds of the shared state: `h` is the node of `queue->head`, and `d` the one that
`queue->tail` started at. -/
structure InitInv (h d : ℕ) (g : QShared) : Prop where
  /-- The chain from `d` is in memory. -/
  tail : TailInv d g.queue g.linked
  /-- `queue->head` stays where it is. -/
  head : g.queue.head = some h
  /-- Its node points nowhere. -/
  next : (g.queue.node h).next = none
  /-- It is not on the chain. -/
  off : h ∉ chain d g.linked
  /-- It is allocated. -/
  alloc : h < g.queue.fresh
  /-- No swap was made. -/
  swapped : g.swapped = []
  /-- All calls have returned `0`, and those that saw the queue empty did so from the start. -/
  returned : ∀ r ∈ g.returned, r.result = 0 ∧ (r.sawEmpty = true ↔ r.linkedAtCall = 0)

/-- What holds of a thread. -/
structure InitThread (h d t : ℕ) (g : QShared) (l : QThread) : Prop where
  /-- In `lf_enqueue`. -/
  enqueue : Enqueuer d g l
  /-- The node of `queue->head` is not its own. -/
  mine : l.mine ≠ some h
  /-- In `lf_dequeue` it gets as far as the test of `p->next`. -/
  dequeue : ∀ pc, l.pc = .dequeue pc → pc = .loadHead ∨ pc = .test (some h) ∨ pc = .ret 0
  /-- Values are linked, never taken back. -/
  linkedAtCall : (∃ pc, l.pc = .dequeue pc) → l.linkedAtCall ≤ g.linked.length
  /-- It has seen the queue empty if it was so from the start. -/
  saw : (∃ pc, l.pc = .dequeue pc) → (g.sawEmpty t = true ↔ l.linkedAtCall = 0)

section

variable {h d t u : ℕ} {g g' : QShared} {l l' k : QThread}

/-- What a thread has seen, when no swap was made. -/
theorem sawEmpty_observe_iff (hswapped : g.swapped = []) {n : ℕ} (hn : n ≤ g.linked.length)
    (hsaw : g.sawEmpty t = true ↔ n = 0) : g.observe.sawEmpty t = true ↔ n = 0 := by
  have hempty : g.Empty ↔ g.linked.length = 0 := by
    rw [QShared.Empty, hswapped]
    exact eq_comm
  simp only [QShared.observe, Bool.or_eq_true, decide_eq_true_eq, hempty, hsaw]
  omega

/-- `lf_dequeue` gets as far as the test of `p->next`, and returns `0`. -/
theorem InitThread.dequeue_cases {pc pc' : DeqPc} {queue : LfQueue} {val : BitVec 32} (hok : InitThread h d t g l)
    (hinv : InitInv h d g) (hpc : l.pc = .dequeue pc) (hstep : g.queue.lfDequeue l.val pc = some (queue, val, pc')) :
    queue = g.queue ∧ g.queue.swaps pc = [] ∧ (pc' = .test (some h) ∨ pc' = .ret 0) := by
  rcases hok.dequeue pc hpc with rfl | rfl | rfl
  · simp only [LfQueue.lfDequeue, Option.some.injEq, Prod.mk.injEq] at hstep
    obtain ⟨rfl, -, rfl⟩ := hstep
    exact ⟨rfl, rfl, .inl (congrArg _ hinv.head)⟩
  · simp only [LfQueue.lfDequeue, Option.map_some, hinv.next, if_true, Option.some.injEq, Prod.mk.injEq] at hstep
    obtain ⟨rfl, -, rfl⟩ := hstep
    exact ⟨rfl, rfl, .inr rfl⟩
  · cases hstep

/-- A step changes neither `queue->head` nor the swaps, and a call that returns, returns
`0`. -/
theorem QMove.init (hm : QMove t g l g' l') (hinv : InitInv h d g) (hok : InitThread h d t g l) :
    g'.queue.head = g.queue.head ∧ g'.swapped = g.swapped ∧
      (∀ r ∈ g'.returned, r.result = 0 ∧ (r.sawEmpty = true ↔ r.linkedAtCall = 0)) ∧
      (∀ pc, l'.pc = .dequeue pc → pc = .loadHead ∨ pc = .test (some h) ∨ pc = .ret 0) := by
  cases hm with
  | callEnqueue _ _ => exact ⟨rfl, rfl, hinv.returned, nofun⟩
  | callDequeue _ _ => exact ⟨rfl, rfl, hinv.returned, fun pc hpc => .inl (Pc.dequeue.inj hpc).symm⟩
  | enqueue hpc hstep => exact ⟨((hok.enqueue _ hpc).step hinv.tail hstep).head, rfl, hinv.returned, nofun⟩
  | enqueueReturns _ => exact ⟨rfl, rfl, hinv.returned, nofun⟩
  | dequeue hpc hstep =>
    obtain ⟨rfl, hswaps, hpc'⟩ := hok.dequeue_cases hinv hpc hstep
    refine ⟨rfl, ?_, hinv.returned, fun pc h => ?_⟩
    · rw [hswaps, List.append_nil]
    · obtain rfl := Pc.dequeue.inj h
      exact .inr hpc'
  | dequeueReturns hpc =>
    refine ⟨rfl, rfl, fun r hr => ?_, nofun⟩
    rcases List.mem_append.mp hr with hr | hr
    · exact hinv.returned r hr
    · rw [List.mem_singleton.mp hr]
      refine ⟨?_, hok.saw ⟨_, hpc⟩⟩
      rcases hok.dequeue _ hpc with hpc | hpc | hpc
      · cases hpc
      · cases hpc
      · exact DeqPc.ret.inj hpc

/-- What the thread that moves has seen. -/
theorem QMove.initSaw (hm : QMove t g l g' l') (hinv : InitInv h d g) (hok : InitThread h d t g l)
    (hdeq : ∃ pc, l'.pc = .dequeue pc) :
    l'.linkedAtCall ≤ g'.linked.length ∧ (g'.observe.sawEmpty t = true ↔ l'.linkedAtCall = 0) := by
  have hswapped := (hm.init hinv hok).2.1.trans hinv.swapped
  obtain ⟨pc, hpc⟩ := hdeq
  cases hm with
  | callDequeue val _ =>
    refine ⟨Nat.le_refl _, ?_⟩
    have hempty : (g.swapped.length = g.linked.length) ↔ g.linked.length = 0 := by
      rw [hinv.swapped]
      exact eq_comm
    simp [QShared.observe, QShared.Empty, hempty]
  | dequeue hpc' hstep =>
    have hle := hok.linkedAtCall ⟨_, hpc'⟩
    exact ⟨hle, sawEmpty_observe_iff hswapped hle (hok.saw ⟨_, hpc'⟩)⟩
  | _ => cases hpc

theorem QMove.initInv (hm : QMove t g l g' l') (hinv : InitInv h d g) (hok : InitThread h d t g l) :
    InitInv h d g'.observe := by
  have ht := hm.tailEffect hinv.tail hok.enqueue
  obtain ⟨hhead, hswapped, hreturned, -⟩ := hm.init hinv hok
  refine ⟨ht.inv, hhead.trans hinv.head, ?_, ht.frame.off h hinv.alloc hinv.off hok.mine,
    Nat.lt_of_lt_of_le hinv.alloc ht.frame.fresh, hswapped.trans hinv.swapped, hreturned⟩
  show (g'.queue.node h).next = none
  rw [ht.frame.node h hinv.alloc hinv.off hok.mine]
  exact hinv.next

/-- The thread that makes a step. -/
theorem QMove.initOwn (hm : QMove t g l g' l') (hinv : InitInv h d g) (hok : InitThread h d t g l) :
    InitThread h d t g'.observe l' where
  enqueue := (hm.tailEffect hinv.tail hok.enqueue).own
  mine := fun hmine => by
    rcases (hm.tailEffect hinv.tail hok.enqueue).mine h hmine with hl | hfresh
    · exact hok.mine hl
    · exact absurd hinv.alloc (by omega)
  dequeue := (hm.init hinv hok).2.2.2
  linkedAtCall := fun hdeq => (hm.initSaw hinv hok hdeq).1
  saw := fun hdeq => (hm.initSaw hinv hok hdeq).2

/-- Another thread. -/
theorem QMove.initOther (hm : QMove t g l g' l') (hinv : InitInv h d g) (hok : InitThread h d t g l) (hu : u ≠ t)
    (hk : InitThread h d u g k) (happ : NodesApart l k) : InitThread h d u g'.observe k := by
  have ht := hm.tailEffect hinv.tail hok.enqueue
  have hle : (∃ pc, k.pc = .dequeue pc) → k.linkedAtCall ≤ g'.linked.length := fun hdeq =>
    Nat.le_trans (hk.linkedAtCall hdeq) ht.frame.grows.length_le
  refine ⟨ht.other hinv.tail hk.enqueue happ, hk.mine, hk.dequeue, hle, fun hdeq => ?_⟩
  refine sawEmpty_observe_iff ((hm.init hinv hok).2.1.trans hinv.swapped) (hle hdeq) ?_
  rw [hm.sawEmpty_eq hu]
  exact hk.saw hdeq

end

/-- The threads do not interfere with each other. -/
theorem nonInterfering_init (h d : ℕ) : NonInterfering QShared.step (InitInv h d) (InitThread h d) NodesApart where
  own := fun hinv hok hstep => by
    obtain ⟨g₁, hm, rfl⟩ := qMove_of_step hstep
    exact ⟨hm.initInv hinv hok, hm.initOwn hinv hok⟩
  other := fun htu hinv hok hk happ hstep => by
    obtain ⟨g₁, hm, rfl⟩ := qMove_of_step hstep
    exact ⟨hm.initOther hinv hok htu.symm hk happ, (hm.tailEffect hinv.tail hok.enqueue).apart hk.enqueue happ⟩
  symm := fun h q hk hl => h q hl hk

theorem inv_lfQueueInit (node : ℕ → Node) (fresh : ℕ) :
    (lfQueueInit node fresh).start.Inv (InitInv fresh (fresh + 1)) (InitThread fresh (fresh + 1)) NodesApart where
  shared := by
    have hnext : ∀ x, x = fresh ∨ x = fresh + 1 → ((lfQueueInit node fresh).node x).next = none := by
      rintro x (rfl | rfl)
      · simp [lfQueueInit]
      · simp [lfQueueInit]
    refine ⟨⟨?_, List.nodup_singleton _, ?_, ⟨_, List.mem_singleton_self _, rfl⟩, nofun⟩, rfl, hnext _ (.inl rfl), ?_,
      ?_, rfl, nofun⟩
    · intro x hx
      rw [List.mem_singleton.mp hx]
      exact Nat.lt_succ_self _
    · intro i x hi
      cases i with
      | zero =>
        obtain rfl : fresh + 1 = x := Option.some.inj hi
        exact hnext _ (.inr rfl)
      | succ i => cases hi
    · intro hmem
      have := List.mem_singleton.mp hmem
      omega
    · exact Nat.lt_add_of_pos_right Nat.two_pos
  each := fun t => ⟨nofun, nofun, nofun, nofun, nofun⟩
  apart := fun t u _ => nofun

/-- After `lf_queue_init` every call of `lf_dequeue` returns `0`. -/
theorem InitInv.delivered {h d : ℕ} {g : QShared} (hinv : InitInv h d g) : g.delivered = [] := by
  have : (g.returned.filter fun r => r.result = 1) = [] := by
    rw [List.filter_eq_nil_iff]
    intro r hr
    simp [(hinv.returned r hr).1]
  rw [QShared.delivered, this, List.map_nil]

/-- **The queue after `lf_queue_init`** is first in, first out in exactly those runs in
which every call of `lf_dequeue` that has returned began before a value was linked. -/
theorem initRun_fifo_iff {node : ℕ → Node} {fresh : ℕ} {acts : List (ℕ × QAct)} {c : QSys}
    (hrun : Exec QStep (lfQueueInit node fresh).start acts c) :
    Fifo c.shared ↔ ∀ r ∈ c.shared.returned, r.linkedAtCall = 0 := by
  have hinv := ((nonInterfering_init _ _).run (inv_lfQueueInit node fresh) hrun).shared
  constructor
  · intro hfifo r hr
    obtain ⟨h₀, hsaw⟩ := hinv.returned r hr
    exact hsaw.mp (hfifo.empty r hr h₀)
  · intro hzero
    refine ⟨?_, fun r hr _ => (hinv.returned r hr).2.mpr (hzero r hr)⟩
    rw [hinv.delivered]
    exact List.nil_prefix

/-- A call of `lf_dequeue` returns before a value is enqueued. -/
theorem initRun_fifo_early : ∃ acts c, Exec QStep (lfQueueInit (fun _ => ⟨0, none⟩) 0).start acts c ∧
    c.shared.linked = [(2, 5)] ∧ c.shared.returned.map Return.linkedAtCall = [0] ∧ Fifo c.shared := by
  let acts : List (ℕ × QAct) :=
    [(1, QAct.dequeue 0)] ++ List.replicate 3 (1, QAct.run) ++ [(0, QAct.enqueue 5)] ++
    List.replicate 8 (0, QAct.run)
  have hrun : (Conc.run QShared.step (lfQueueInit (fun _ => ⟨0, none⟩) 0).start acts).map
      (fun c => (c.shared.linked, c.shared.returned.map Return.linkedAtCall)) = some ([(2, 5)], [0]) := by
    decide +kernel
  obtain ⟨c, hc, he⟩ := Option.map_eq_some_iff.mp hrun
  obtain ⟨hlinked, hreturned⟩ := Prod.mk.inj he
  have hexec := Conc.exec_of_run hc
  refine ⟨acts, c, hexec, hlinked, hreturned, (initRun_fifo_iff hexec).mpr fun r hr => ?_⟩
  have hmem := List.mem_map_of_mem (f := Return.linkedAtCall) hr
  rw [hreturned] at hmem
  exact List.mem_singleton.mp hmem

/-- After `lf_queue_init` a value is enqueued, and a call of `lf_dequeue` that begins later
returns `0` all the same. -/
theorem lf_dequeue_misses : ∃ acts c, Exec QStep (lfQueueInit (fun _ => ⟨0, none⟩) 0).start acts c ∧
    c.shared.linked = [(2, 5)] ∧ c.shared.returned = [⟨0, 0, none, 1, false⟩] ∧ ¬ Fifo c.shared := by
  let acts : List (ℕ × QAct) :=
    [(0, QAct.enqueue 5)] ++ List.replicate 8 (0, QAct.run) ++ [(1, QAct.dequeue 0)] ++
    List.replicate 3 (1, QAct.run)
  have hrun : (Conc.run QShared.step (lfQueueInit (fun _ => ⟨0, none⟩) 0).start acts).map
      (fun c => (c.shared.linked, c.shared.returned)) = some ([(2, 5)], [⟨0, 0, none, 1, false⟩]) := by decide +kernel
  obtain ⟨c, hc, he⟩ := Option.map_eq_some_iff.mp hrun
  obtain ⟨hlinked, hreturned⟩ := Prod.mk.inj he
  refine ⟨acts, c, Conc.exec_of_run hc, hlinked, hreturned, fun hfifo => ?_⟩
  have hsaw := hfifo.empty ⟨0, 0, none, 1, false⟩ (by simp [hreturned]) rfl
  cases hsaw

end PetLab.SyncProject
