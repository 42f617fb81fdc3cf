import Mathlib.Data.List.FinRange
import Mathlib.Data.List.Pairwise
import PetLab.SyncProject.LfEnqueue

/-!
# Several producers, several consumers

`queue->head` and `queue->tail` start at one shared node. Then the queue is correct for any
number of threads in `lf_enqueue` and any number in `lf_dequeue`, which answers the
question in the source (`queueRun_correct`): the swaps of `queue->head` take out the nodes
in the order they were linked, each by one call, which returns its value, and a call
returns `0` only if it saw the queue empty. No value is taken out and dropped: every swap is that of
a call that has returned its value or is still under way (`accounted_of_run`), so that the values
delivered are the first ones enqueued (`exists_delivered`).

The success of a swap is not taken from what the compare-and-swap returns, but from
`oldhead->next == p->next`. That is the same on a chain without repetitions, as `p->next`
was seen not to be `NULL` (`DeqAt.step_load`, the case of `loadOld`).
-/

namespace PetLab.SyncProject

open PetLab.Lib

/-! ### The invariant -/

/-- Node `p` is on the chain, and not the last one. -/
structure Inner (d : ℕ) (g : QShared) (p : ℕ) : Prop where
  /-- It is on the chain. -/
  mem : p ∈ chain d g.linked
  /-- It points to the next one. -/
  next : (g.queue.node p).next ≠ none

/-- The call has swapped `queue->head` to `n`. -/
def Took (g : QShared) (l : QThread) (n : Ptr) : Prop := ∃ i, l.swap = some i ∧ g.swapped[i]? = some n

/-- What a thread in `lf_dequeue` knows. -/
def DeqAt (d t : ℕ) (g : QShared) (l : QThread) : DeqPc → Prop
  | .loadHead => l.swap = none
  | .test p => l.swap = none ∧ ∃ x, p = some x ∧ ∃ i ≤ g.swapped.length, (chain d g.linked)[i]? = some x
  | .loadNext p => l.swap = none ∧ Inner d g p
  | .swap p next => l.swap = none ∧ Inner d g p ∧ next = (g.queue.node p).next
  | .loadOld p oldhead => Inner d g p ∧
    ((oldhead = some p ∧ Took g l (g.queue.node p).next) ∨
      (l.swap = none ∧ ∃ y ∈ chain d g.linked, oldhead = some y ∧ y ≠ p))
  | .compare p oldNext => Inner d g p ∧
    ((oldNext = (g.queue.node p).next ∧ Took g l (g.queue.node p).next) ∨
      (l.swap = none ∧ oldNext ≠ (g.queue.node p).next))
  | .loadNode p succ => Inner d g p ∧
    ((succ = true ∧ Took g l (g.queue.node p).next) ∨ (l.swap = none ∧ succ = false))
  | .loadValue n succ => (∃ y ∈ chain d g.linked, n = some y) ∧
    ((succ = true ∧ Took g l n) ∨ (l.swap = none ∧ succ = false))
  | .ret result => (result = 0 ∧ l.swap = none ∧ g.sawEmpty t = true) ∨
    (result = 1 ∧ ∃ i x, l.swap = some i ∧ g.swapped[i]? = some (some x) ∧ g.linked[i]? = some (x, l.val))

/-- `queue->head` is where the swaps have brought it. -/
structure HeadInv (d : ℕ) (g : QShared) : Prop where
  /-- The swaps follow the links. -/
  taken : g.swapped <+: g.linked.map fun e => some e.1
  /-- `queue->head` is on the chain, behind the nodes taken out. -/
  head : g.queue.head = (chain d g.linked)[g.swapped.length]?

section

variable {d t : ℕ} {g g' : QShared} {l l' : QThread} {mine : Option ℕ} {pc pc' : DeqPc} {queue : LfQueue}
  {val : BitVec 32}

/-- At most the values linked have been taken out. -/
theorem HeadInv.length_le (h : HeadInv d g) : g.swapped.length ≤ g.linked.length := by
  simpa using h.taken.length_le

theorem HeadInv.exists_head (h : HeadInv d g) :
    ∃ x, g.queue.head = some x ∧ (chain d g.linked)[g.swapped.length]? = some x := by
  have hlt : g.swapped.length < (chain d g.linked).length := by
    rw [chain, List.length_cons, List.length_map]
    exact Nat.lt_succ_of_le h.length_le
  rw [h.head, List.getElem?_eq_getElem hlt]
  exact ⟨_, rfl, rfl⟩

/-- What a swap has put into `queue->head` was linked at the same place. -/
theorem HeadInv.linked_of_swapped (h : HeadInv d g) {i x : ℕ} (hi : g.swapped[i]? = some (some x)) :
    ∃ v, g.linked[i]? = some (x, v) := by
  have hmap := getElem?_of_isPrefix h.taken hi
  rw [List.getElem?_map] at hmap
  obtain ⟨e, he, hx⟩ := Option.map_eq_some_iff.mp hmap
  refine ⟨e.2, ?_⟩
  rw [he, ← Option.some.inj hx]

/-- A successful swap takes out the next node. -/
theorem HeadInv.swap (h : HeadInv d g) (hlinks : Linked (fun x => (g.queue.node x).next) (chain d g.linked)) {p : ℕ}
    (hp : g.queue.head = some p) (hne : (g.queue.node p).next ≠ none) :
    HeadInv d { g with queue := { g.queue with head := (g.queue.node p).next },
                       swapped := g.swapped ++ [(g.queue.node p).next] } := by
  have hnext : (g.queue.node p).next = (g.linked.map Prod.fst)[g.swapped.length]? :=
    hlinks g.swapped.length p (h.head.symm.trans hp)
  obtain ⟨x, hx⟩ := Option.ne_none_iff_exists'.mp hne
  constructor
  · obtain ⟨rest, hrest⟩ := h.taken
    rw [hx, List.getElem?_map] at hnext
    obtain ⟨e, he, rfl⟩ := Option.map_eq_some_iff.mp hnext.symm
    have hget : (g.linked.map fun e => some e.1)[g.swapped.length]? = some (some e.1) := by
      rw [List.getElem?_map, he]
      rfl
    rw [← hrest, List.getElem?_append_right (Nat.le_refl _), Nat.sub_self] at hget
    cases rest with
    | nil => cases hget
    | cons y ys =>
      rw [List.getElem?_cons_zero] at hget
      refine ⟨ys, ?_⟩
      rw [← hrest, hx, ← Option.some.inj hget, List.append_assoc]
      rfl
  · show (g.queue.node p).next = (chain d g.linked)[(g.swapped ++ [(g.queue.node p).next]).length]?
    rw [hnext, List.length_append]
    rfl

/-! ### The accesses of `lf_dequeue` -/

/-- The compare-and-swap of `queue->head`. -/
theorem DeqAt.step_swap {p : ℕ} {next : Ptr} (h : DeqAt d t g l (.swap p next))
    (htail : TailInv d g.queue g.linked) (hhead : HeadInv d g)
    (hswap : l'.swap = if g.queue.swaps (.swap p next) = [] then l.swap else some g.swapped.length)
    (hg : g' = { g with queue := { g.queue with head := (compareAndSwapPtr g.queue.head (some p) next).2 },
                        swapped := g.swapped ++ g.queue.swaps (.swap p next) }) :
    HeadInv d g' ∧ DeqAt d t g' l' (.loadOld p g.queue.head) := by
  obtain ⟨hnone, hp, rfl⟩ := h
  by_cases heq : g.queue.head = some p
  · -- it succeeds
    have hswaps : g.queue.swaps (.swap p (g.queue.node p).next) = [(g.queue.node p).next] := by
      simp [LfQueue.swaps, heq]
    rw [hswaps] at hswap hg
    simp only [compareAndSwapPtr, heq, if_true] at hg
    subst hg
    refine ⟨hhead.swap htail.links heq hp.next, ⟨hp.mem, hp.next⟩, .inl ⟨heq, g.swapped.length, ?_, ?_⟩⟩
    · simpa using hswap
    · simp
  · -- another thread was faster
    have hswaps : g.queue.swaps (.swap p (g.queue.node p).next) = [] := by
      simp [LfQueue.swaps, heq]
    rw [hswaps] at hswap hg
    simp only [compareAndSwapPtr, heq, if_false, List.append_nil] at hg
    subst hg
    obtain ⟨y, hy, hget⟩ := hhead.exists_head
    refine ⟨hhead, hp, .inr ⟨?_, y, List.mem_of_getElem? hget, hy, ?_⟩⟩
    · rw [hswap, if_pos rfl, hnone]
    · rintro rfl
      exact heq hy

/-- The loads. -/
theorem DeqAt.step_load (h : DeqAt d t g l pc) (htail : TailInv d g.queue g.linked) (hhead : HeadInv d g)
    (hempty : g.Empty → g.sawEmpty t = true) (hpc : ∀ p next, pc ≠ .swap p next)
    (hstep : g.queue.lfDequeue l.val pc = some (queue, val, pc')) (hval : l'.val = val) (hswap : l'.swap = l.swap) :
    DeqAt d t g l' pc' := by
  cases pc with
  | swap p next => exact absurd rfl (hpc p next)
  | loadHead =>
    simp only [LfQueue.lfDequeue, Option.some.injEq, Prod.mk.injEq] at hstep
    obtain ⟨-, -, rfl⟩ := hstep
    obtain ⟨x, hx, hget⟩ := hhead.exists_head
    exact ⟨hswap.trans h, x, hx, g.swapped.length, Nat.le_refl _, hget⟩
  | test p =>
    obtain ⟨hnone, x, rfl, i, hi, hget⟩ := h
    simp only [LfQueue.lfDequeue, Option.map_some, Option.some.injEq, Prod.mk.injEq] at hstep
    obtain ⟨-, -, rfl⟩ := hstep
    split
    · -- `p` is the last node, so `queue->head` has not gone past it
      rename_i hnext
      have hlen := htail.links.last_of_next hget hnext
      rw [chain, List.length_cons, List.length_map] at hlen
      have hle := hhead.length_le
      exact .inl ⟨rfl, hswap.trans hnone, hempty (show g.swapped.length = g.linked.length by omega)⟩
    · rename_i hnext
      exact ⟨hswap.trans hnone, List.mem_of_getElem? hget, hnext⟩
  | loadNext p =>
    simp only [LfQueue.lfDequeue, Option.some.injEq, Prod.mk.injEq] at hstep
    obtain ⟨-, -, rfl⟩ := hstep
    exact ⟨hswap.trans h.1, h.2, rfl⟩
  | loadOld p oldhead =>
    obtain ⟨hp, ⟨rfl, i, hi, hget⟩ | ⟨hnone, y, hy, rfl, hne⟩⟩ := h
    · simp only [LfQueue.lfDequeue, Option.map_some, Option.some.injEq, Prod.mk.injEq] at hstep
      obtain ⟨-, -, rfl⟩ := hstep
      exact ⟨hp, .inl ⟨rfl, i, hswap.trans hi, hget⟩⟩
    · -- different nodes of the chain point to different nodes
      simp only [LfQueue.lfDequeue, Option.map_some, Option.some.injEq, Prod.mk.injEq] at hstep
      obtain ⟨-, -, rfl⟩ := hstep
      refine ⟨hp, .inr ⟨hswap.trans hnone, fun heq => hne ?_⟩⟩
      exact (htail.links.inj htail.nodup hp.mem hy hp.next heq.symm).symm
  | compare p oldNext =>
    simp only [LfQueue.lfDequeue, Option.some.injEq, Prod.mk.injEq] at hstep
    obtain ⟨-, -, rfl⟩ := hstep
    obtain ⟨hp, ⟨rfl, i, hi, hget⟩ | ⟨hnone, hne⟩⟩ := h
    · exact ⟨hp, .inl ⟨beq_self_eq_true _, i, hswap.trans hi, hget⟩⟩
    · exact ⟨hp, .inr ⟨hswap.trans hnone, beq_eq_false_iff_ne.mpr hne⟩⟩
  | loadNode p succ =>
    simp only [LfQueue.lfDequeue, Option.some.injEq, Prod.mk.injEq] at hstep
    obtain ⟨-, -, rfl⟩ := hstep
    obtain ⟨hp, ⟨rfl, i, hi, hget⟩ | ⟨hnone, hsucc⟩⟩ := h
    · exact ⟨htail.exists_next hp.mem hp.next, .inl ⟨rfl, i, hswap.trans hi, hget⟩⟩
    · exact ⟨htail.exists_next hp.mem hp.next, .inr ⟨hswap.trans hnone, hsucc⟩⟩
  | loadValue n succ =>
    obtain ⟨⟨y, hy, rfl⟩, h⟩ := h
    simp only [LfQueue.lfDequeue, Option.map_some, Option.some.injEq, Prod.mk.injEq] at hstep
    obtain ⟨-, rfl, rfl⟩ := hstep
    obtain ⟨rfl, i, hi, hget⟩ | ⟨hnone, rfl⟩ := h
    · obtain ⟨v, hv⟩ := hhead.linked_of_swapped hget
      refine .inr ⟨rfl, i, y, hswap.trans hi, hget, ?_⟩
      rw [hval, htail.value _ (List.mem_of_getElem? hv)]
      exact hv
    · exact hswap.trans hnone
  | ret result => cases hstep

/-- **Every access of `lf_dequeue`** keeps `queue->head` on the chain and what its thread
knows. -/
theorem DeqAt.step (h : DeqAt d t g l pc) (l' : QThread) (htail : TailInv d g.queue g.linked) (hhead : HeadInv d g)
    (hempty : g.Empty → g.sawEmpty t = true) (hstep : g.queue.lfDequeue l.val pc = some (queue, val, pc'))
    (hval : l'.val = val) (hswap : l'.swap = if g.queue.swaps pc = [] then l.swap else some g.swapped.length)
    (hg : g' = { g with queue := queue, swapped := g.swapped ++ g.queue.swaps pc }) :
    HeadInv d g' ∧ DeqAt d t g' l' pc' := by
  by_cases hpc : ∃ p next, pc = .swap p next
  · obtain ⟨p, next, rfl⟩ := hpc
    simp only [LfQueue.lfDequeue, Option.some.injEq, Prod.mk.injEq] at hstep
    obtain ⟨rfl, rfl, rfl⟩ := hstep
    exact h.step_swap htail hhead hswap hg
  · have hload : ∀ p next, pc ≠ .swap p next := fun p next heq => hpc ⟨p, next, heq⟩
    obtain ⟨rfl, hswaps⟩ := lfDequeue_load hload hstep
    rw [hswaps, if_pos rfl] at hswap
    rw [hswaps, List.append_nil] at hg
    subst hg
    exact ⟨hhead, h.step_load htail hhead hempty hload hstep hval hswap⟩

/-! ### Interference -/

theorem Inner.stable {p : ℕ} (h : Inner d g p) (htail : TailInv d g.queue g.linked)
    (htail' : TailInv d g'.queue g'.linked) (hf : Frame d mine g.queue g.linked g'.queue g'.linked) :
    Inner d g' p ∧ (g'.queue.node p).next = (g.queue.node p).next := by
  have hnext := htail.next_eq htail' hf h.mem h.next
  refine ⟨⟨hf.mem_chain h.mem, ?_⟩, hnext⟩
  rw [hnext]
  exact h.next

/-- What a thread in `lf_dequeue` knows, the accesses of others do not change. -/
theorem DeqAt.stable (h : DeqAt d t g l pc) (htail : TailInv d g.queue g.linked)
    (htail' : TailInv d g'.queue g'.linked) (hf : Frame d mine g.queue g.linked g'.queue g'.linked)
    (hswapped : g.swapped <+: g'.swapped) (hsaw : g.sawEmpty t = true → g'.sawEmpty t = true) :
    DeqAt d t g' l pc := by
  have htook : ∀ {n}, Took g l n → Took g' l n := fun {n} ⟨i, hi, hget⟩ => ⟨i, hi, getElem?_of_isPrefix hswapped hget⟩
  cases pc with
  | loadHead => exact h
  | test p =>
    obtain ⟨hnone, x, hx, i, hi, hget⟩ := h
    exact ⟨hnone, x, hx, i, Nat.le_trans hi hswapped.length_le, getElem?_of_isPrefix hf.chain_isPrefix hget⟩
  | loadNext p => exact ⟨h.1, (h.2.stable htail htail' hf).1⟩
  | swap p next =>
    obtain ⟨hnone, hp, rfl⟩ := h
    obtain ⟨hp', hnext⟩ := hp.stable htail htail' hf
    exact ⟨hnone, hp', hnext.symm⟩
  | loadOld p oldhead =>
    obtain ⟨hp, h⟩ := h
    obtain ⟨hp', hnext⟩ := hp.stable htail htail' hf
    refine ⟨hp', h.imp (fun h => ⟨h.1, ?_⟩) fun ⟨hnone, y, hy, h⟩ => ⟨hnone, y, hf.mem_chain hy, h⟩⟩
    rw [hnext]
    exact htook h.2
  | compare p oldNext =>
    obtain ⟨hp, h⟩ := h
    obtain ⟨hp', hnext⟩ := hp.stable htail htail' hf
    refine ⟨hp', ?_⟩
    rw [hnext]
    exact h.imp_left fun h => ⟨h.1, htook h.2⟩
  | loadNode p succ =>
    obtain ⟨hp, h⟩ := h
    obtain ⟨hp', hnext⟩ := hp.stable htail htail' hf
    refine ⟨hp', ?_⟩
    rw [hnext]
    exact h.imp_left fun h => ⟨h.1, htook h.2⟩
  | loadValue n succ =>
    obtain ⟨⟨y, hy, hn⟩, h⟩ := h
    exact ⟨⟨y, hf.mem_chain hy, hn⟩, h.imp_left fun h => ⟨h.1, htook h.2⟩⟩
  | ret result =>
    obtain ⟨hr, hnone, h⟩ | ⟨hr, i, x, hi, hget, hlink⟩ := h
    · exact .inl ⟨hr, hnone, hsaw h⟩
    · exact .inr ⟨hr, i, x, hi, getElem?_of_isPrefix hswapped hget, getElem?_of_isPrefix hf.grows hlink⟩

end

/-! ### The system -/

/-- What a call that has returned has done: it took out the value it returns, or saw the
queue empty. -/
def Return.Ok (g : QShared) (r : Return) : Prop :=
  (r.result = 0 ∧ r.swap = none ∧ r.sawEmpty = true) ∨
    (r.result = 1 ∧ ∃ i x, r.swap = some i ∧ g.swapped[i]? = some (some x) ∧ g.linked[i]? = some (x, r.val))

/-- What holds of the shared state. -/
structure QInv (d : ℕ) (g : QShared) : Prop where
  /-- The chain is in memory. -/
  tail : TailInv d g.queue g.linked
  /-- `queue->head` is on it. -/
  head : HeadInv d g
  /-- The calls that have returned did what they should. -/
  returned : ∀ r ∈ g.returned, r.Ok g
  /-- No two of them made the same swap. -/
  once : (g.returned.filterMap Return.swap).Nodup

/-- What holds of a thread. -/
structure QThreadOk (d t : ℕ) (g : QShared) (l : QThread) : Prop where
  /-- In `lf_enqueue`. -/
  enqueue : Enqueuer d g l
  /-- In `lf_dequeue`. -/
  dequeue : ∀ pc, l.pc = .dequeue pc → DeqAt d t g l pc
  /-- The swap of a call is made in `lf_dequeue`. -/
  noSwap : (∀ pc, l.pc ≠ .dequeue pc) → l.swap = none
  /-- No call that has returned made it. -/
  swap : ∀ i, l.swap = some i → i < g.swapped.length ∧ ∀ r ∈ g.returned, r.swap ≠ some i
  /-- If the queue is empty, the thread has seen it. -/
  empty : g.Empty → g.sawEmpty t = true

/-- Two threads have different nodes and different swaps. -/
structure QApart (l k : QThread) : Prop where
  /-- The nodes. -/
  nodes : NodesApart l k
  /-- The swaps. -/
  swap : ∀ i, l.swap = some i → k.swap ≠ some i

/-- What a step of a thread does to the swaps and the calls that have returned. -/
structure HeadEffect (d t : ℕ) (g : QShared) (l : QThread) (g' : QShared) (l' : QThread) : Prop where
  /-- `queue->head` is on the chain. -/
  head : HeadInv d g'
  /-- The calls that have returned did what they should. -/
  ok : ∀ r ∈ g'.returned, r.Ok g'
  /-- No two of them made the same swap. -/
  once : (g'.returned.filterMap Return.swap).Nodup
  /-- The thread is as it should be in `lf_dequeue`. -/
  own : ∀ pc, l'.pc = .dequeue pc → DeqAt d t g' l' pc
  /-- It is only there that it makes a swap. -/
  noSwap : (∀ pc, l'.pc ≠ .dequeue pc) → l'.swap = none
  /-- The swaps made stay. -/
  swapped : g.swapped <+: g'.swapped
  /-- A call that returns is the thread's own. -/
  returned : ∀ r ∈ g'.returned, r ∈ g.returned ∨ (r.swap = l.swap ∧ l'.swap = none)
  /-- The swap of the thread stays the same, or is new. -/
  swap : ∀ i, l'.swap = some i → (l.swap = some i ∨ i = g.swapped.length) ∧ i < g'.swapped.length
  /-- A call that has returned stays. -/
  kept : ∀ r ∈ g.returned, r ∈ g'.returned
  /-- A new swap is the thread's; and the swap it had is still its own, or its call has returned. -/
  accounted : ∀ i < g'.swapped.length, l'.swap = some i ∨
    (i < g.swapped.length ∧ (l.swap = some i → ∃ r ∈ g'.returned, r.swap = some i))

section

variable {d t u : ℕ} {g g' : QShared} {l l' k : QThread}

theorem Return.Ok.mono {r : Return} (h : r.Ok g) (hswapped : g.swapped <+: g'.swapped)
    (hlinked : g.linked <+: g'.linked) : r.Ok g' := by
  obtain ⟨hr, hnone, hsaw⟩ | ⟨hr, i, x, hi, hget, hlink⟩ := h
  · exact .inl ⟨hr, hnone, hsaw⟩
  · exact .inr ⟨hr, i, x, hi, getElem?_of_isPrefix hswapped hget, getElem?_of_isPrefix hlinked hlink⟩

/-- The chain grows behind `queue->head`. -/
theorem HeadInv.grow (h : HeadInv d g) (hhead : g'.queue.head = g.queue.head) (hswapped : g'.swapped = g.swapped)
    (hlinked : g.linked <+: g'.linked) : HeadInv d g' := by
  obtain ⟨x, hx, hget⟩ := h.exists_head
  constructor
  · rw [hswapped]
    exact h.taken.trans (hlinked.map _)
  · rw [hhead, hswapped, hx]
    exact (getElem?_of_isPrefix ((List.prefix_cons_inj d).mpr (hlinked.map Prod.fst)) hget).symm

/-- A step that neither makes a swap nor returns from `lf_dequeue`. -/
theorem QInv.headEffect_of_same (hinv : QInv d g) (hhead : g'.queue.head = g.queue.head)
    (hlinked : g.linked <+: g'.linked) (hswapped : g'.swapped = g.swapped) (hreturned : g'.returned = g.returned)
    (hbefore : l.swap = none) (hnone : l'.swap = none) (hpc : ∀ pc, l'.pc = .dequeue pc → pc = .loadHead) :
    HeadEffect d t g l g' l' where
  head := hinv.head.grow hhead hswapped hlinked
  ok := fun r hr => by
    rw [hreturned] at hr
    exact (hinv.returned r hr).mono (hswapped ▸ List.prefix_rfl) hlinked
  once := by
    rw [hreturned]
    exact hinv.once
  own := fun pc h => by
    rw [hpc pc h]
    exact hnone
  noSwap := fun _ => hnone
  swapped := hswapped ▸ List.prefix_rfl
  returned := fun r hr => by
    rw [hreturned] at hr
    exact .inl hr
  swap := fun i hi => by
    rw [hnone] at hi
    cases hi
  kept := fun r hr => by
    rw [hreturned]
    exact hr
  accounted := fun i hi => by
    rw [hswapped] at hi
    refine .inr ⟨hi, fun hl => ?_⟩
    rw [hbefore] at hl
    cases hl

/-- A call of `lf_dequeue` returns. -/
theorem QInv.headEffect_return {result : ℕ} (hinv : QInv d g) (hok : QThreadOk d t g l)
    (hpc : l.pc = .dequeue (.ret result)) :
    HeadEffect d t g l { g with returned := g.returned ++ [⟨result, l.val, l.swap, l.linkedAtCall, g.sawEmpty t⟩] }
      { l with pc := .idle, swap := none } := by
  have hmem : ∀ {r : Return}, r ∈ g.returned ++ [⟨result, l.val, l.swap, l.linkedAtCall, g.sawEmpty t⟩] →
      r ∈ g.returned ∨ r = ⟨result, l.val, l.swap, l.linkedAtCall, g.sawEmpty t⟩ := fun hr =>
    (List.mem_append.mp hr).imp_right List.mem_singleton.mp
  refine ⟨⟨hinv.head.taken, hinv.head.head⟩, fun r hr => ?_, ?_, nofun, fun _ => rfl, List.prefix_rfl, fun r hr => ?_,
    nofun, fun r hr => List.mem_append_left _ hr, fun i hi => .inr ⟨hi, fun hl => ?_⟩⟩
  · rcases hmem hr with hr | rfl
    · exact hinv.returned r hr
    · exact hok.dequeue _ hpc
  · show ((g.returned ++ [_]).filterMap Return.swap).Nodup
    rw [List.filterMap_append]
    cases hs : l.swap with
    | none => simpa [List.filterMap_cons, hs] using hinv.once
    | some i =>
      refine List.nodup_append.mpr ⟨hinv.once, by simp, fun j hj j' hj' => ?_⟩
      obtain ⟨r, hr, hrj⟩ := List.mem_filterMap.mp hj
      obtain rfl : j' = i := by simpa [List.filterMap_cons] using hj'
      rintro rfl
      exact (hok.swap _ hs).2 r hr hrj
  · rcases hmem hr with hr | rfl
    · exact .inl hr
    · exact .inr ⟨rfl, rfl⟩
  · exact ⟨_, List.mem_append_right _ (List.mem_singleton_self _), hl⟩

/-- A call makes its swap once. -/
theorem DeqAt.swap_eq_none {pc : DeqPc} (h : DeqAt d t g l pc) (hs : g.queue.swaps pc ≠ []) :
    l.swap = none ∧ (g.queue.swaps pc).length = 1 := by
  cases pc with
  | swap p next =>
    refine ⟨h.1, ?_⟩
    by_cases hhead : g.queue.head = some p
    · simp [LfQueue.swaps, hhead]
    · simp [LfQueue.swaps, hhead] at hs
  | _ => exact absurd rfl hs

/-- An access of `lf_dequeue`. -/
theorem QInv.headEffect_dequeue {pc pc' : DeqPc} {queue : LfQueue} {val : BitVec 32} (hinv : QInv d g)
    (hok : QThreadOk d t g l) (hpc : l.pc = .dequeue pc)
    (hstep : g.queue.lfDequeue l.val pc = some (queue, val, pc')) :
    HeadEffect d t g l { g with queue := queue, swapped := g.swapped ++ g.queue.swaps pc }
      { l with pc := .dequeue pc', val := val,
               swap := if g.queue.swaps pc = [] then l.swap else some g.swapped.length } := by
  obtain ⟨hhead, hat⟩ := (hok.dequeue pc hpc).step ⟨.dequeue pc', val, _, l.linkedAtCall⟩ hinv.tail hinv.head
    hok.empty hstep rfl rfl rfl
  refine ⟨hhead, fun r hr => (hinv.returned r hr).mono (List.prefix_append _ _) List.prefix_rfl, hinv.once,
    fun pc hpc => ?_, fun h => absurd rfl (h pc'), List.prefix_append _ _, fun r hr => .inl hr, fun i hi => ?_,
    fun r hr => hr, fun i hi => ?_⟩
  · obtain rfl := Pc.dequeue.inj hpc
    exact hat
  · simp only [List.length_append]
    simp only at hi
    split_ifs at hi with hs
    · exact ⟨.inl hi, Nat.lt_add_right _ (hok.swap i hi).1⟩
    · obtain rfl := Option.some.inj hi
      exact ⟨.inr rfl, Nat.lt_add_of_pos_right (List.length_pos_iff.mpr hs)⟩
  · simp only [List.length_append] at hi
    by_cases hs : g.queue.swaps pc = []
    · rw [if_pos hs]
      by_cases hl : l.swap = some i
      · exact .inl hl
      · exact .inr ⟨by simpa [hs] using hi, fun h => absurd h hl⟩
    · obtain ⟨hnone, hone⟩ := (hok.dequeue pc hpc).swap_eq_none hs
      rw [if_neg hs, hnone]
      rw [hone] at hi
      rcases Nat.lt_succ_iff_lt_or_eq.mp hi with hi | rfl
      · exact .inr ⟨hi, nofun⟩
      · exact .inl rfl

theorem QMove.headEffect (hm : QMove t g l g' l') (hinv : QInv d g) (hok : QThreadOk d t g l) :
    HeadEffect d t g l g' l' := by
  cases hm with
  | callEnqueue val hpc =>
    have hnone := hok.noSwap (by simp [hpc])
    exact hinv.headEffect_of_same rfl List.prefix_rfl rfl rfl hnone hnone nofun
  | callDequeue val hpc =>
    have hnone := hok.noSwap (by simp [hpc])
    exact hinv.headEffect_of_same rfl List.prefix_rfl rfl rfl hnone rfl fun pc h => (Pc.dequeue.inj h).symm
  | enqueue hpc hstep =>
    have hs := (hok.enqueue _ hpc).step hinv.tail hstep
    have hnone := hok.noSwap (by simp [hpc])
    exact hinv.headEffect_of_same hs.head hs.frame.grows rfl rfl hnone hnone nofun
  | enqueueReturns hpc =>
    have hnone := hok.noSwap (by simp [hpc])
    exact hinv.headEffect_of_same rfl List.prefix_rfl rfl rfl hnone hnone nofun
  | dequeue hpc hstep => exact hinv.headEffect_dequeue hok hpc hstep
  | dequeueReturns hpc => exact hinv.headEffect_return hok hpc

theorem sawEmpty_observe (h : g.sawEmpty u = true) : g.observe.sawEmpty u = true := by
  simp [QShared.observe, h]

theorem sawEmpty_of_empty (u : ℕ) (h : g.observe.Empty) : g.observe.sawEmpty u = true := by
  have : g.Empty := h
  simp [QShared.observe, this]

/-- The swaps of the calls that have returned are among those made. -/
theorem QInv.swap_lt (h : QInv d g) {r : Return} {i : ℕ} (hr : r ∈ g.returned) (hi : r.swap = some i) :
    i < g.swapped.length := by
  obtain ⟨-, hnone, -⟩ | ⟨-, j, x, hj, hget, -⟩ := h.returned r hr
  · rw [hnone] at hi
    cases hi
  · rw [Option.some.inj (hi.symm.trans hj)]
    exact (List.getElem?_eq_some_iff.mp hget).1

/-- The thread that makes a step. -/
theorem HeadEffect.ownOk (hh : HeadEffect d t g l g' l') (ht : TailEffect d g l g' l') (hinv : QInv d g)
    (hok : QThreadOk d t g l) : QThreadOk d t g'.observe l' where
  enqueue := ht.own
  dequeue := fun pc hpc => by
    have hframe : Frame d none g'.queue g'.linked g'.queue g'.linked := .refl
    exact (hh.own pc hpc).stable ht.inv ht.inv hframe List.prefix_rfl sawEmpty_observe
  noSwap := hh.noSwap
  swap := fun i hi => by
    refine ⟨(hh.swap i hi).2, fun r hr hri => ?_⟩
    rcases hh.returned r hr with hr | ⟨-, hnone⟩
    · rcases (hh.swap i hi).1 with hl | rfl
      · exact (hok.swap i hl).2 r hr hri
      · exact Nat.lt_irrefl _ (hinv.swap_lt hr hri)
    · rw [hnone] at hi
      cases hi
  empty := sawEmpty_of_empty t

/-- Another thread. -/
theorem HeadEffect.otherOk (hh : HeadEffect d t g l g' l') (ht : TailEffect d g l g' l') (hinv : QInv d g)
    (hsaw : g'.sawEmpty u = g.sawEmpty u) (hk : QThreadOk d u g k) (happ : QApart l k) :
    QThreadOk d u g'.observe k where
  enqueue := ht.other hinv.tail hk.enqueue happ.nodes
  dequeue := fun pc hpc => by
    refine (hk.dequeue pc hpc).stable hinv.tail ht.inv ht.frame hh.swapped fun h => sawEmpty_observe ?_
    rw [hsaw]
    exact h
  noSwap := hk.noSwap
  swap := fun i hi => by
    refine ⟨Nat.lt_of_lt_of_le (hk.swap i hi).1 hh.swapped.length_le, fun r hr hri => ?_⟩
    rcases hh.returned r hr with hr | ⟨hl, -⟩
    · exact (hk.swap i hi).2 r hr hri
    · exact happ.swap i (hl.symm.trans hri) hi
  empty := sawEmpty_of_empty u

theorem HeadEffect.apart (hh : HeadEffect d t g l g' l') (ht : TailEffect d g l g' l') (hk : QThreadOk d u g k)
    (happ : QApart l k) : QApart l' k := by
  refine ⟨ht.apart hk.enqueue happ.nodes, fun i hi hki => ?_⟩
  rcases (hh.swap i hi).1 with hl | rfl
  · exact happ.swap i hl hki
  · exact Nat.lt_irrefl _ (hk.swap _ hki).1

end

/-- The threads of the queue do not interfere with each other. -/
theorem nonInterfering_queue (d : ℕ) : NonInterfering QShared.step (QInv d) (QThreadOk d) QApart where
  own := fun hinv hok hstep => by
    obtain ⟨g₁, hm, rfl⟩ := qMove_of_step hstep
    have ht := hm.tailEffect hinv.tail hok.enqueue
    have hh := hm.headEffect hinv hok
    exact ⟨⟨ht.inv, ⟨hh.head.taken, hh.head.head⟩, hh.ok, hh.once⟩, hh.ownOk ht hinv hok⟩
  other := fun htu hinv hok hk happ hstep => by
    obtain ⟨g₁, hm, rfl⟩ := qMove_of_step hstep
    have ht := hm.tailEffect hinv.tail hok.enqueue
    have hh := hm.headEffect hinv hok
    exact ⟨hh.otherOk ht hinv (hm.sawEmpty_eq htu.symm) hk happ, hh.apart ht hk happ⟩
  symm := fun h => ⟨fun q hk hl => h.nodes q hl hk, fun i hk hl => h.swap i hl hk⟩

/-! ### Whose the swaps are -/

/-- The swap is that of a call that has returned, or of one that is under way. -/
def Accounted (c : QSys) (i : ℕ) : Prop :=
  (∃ r ∈ c.shared.returned, r.swap = some i) ∨ ∃ t, (c.thread t).swap = some i

/-- **One step** keeps account of the swaps. -/
theorem accounted_of_step {d : ℕ} {c c' : QSys} {a : ℕ × QAct} (hinv : c.Inv (QInv d) (QThreadOk d) QApart)
    (h : ∀ i < c.shared.swapped.length, Accounted c i) (hstep : QStep c a c') :
    ∀ i < c'.shared.swapped.length, Accounted c' i := by
  obtain ⟨t, a⟩ := a
  obtain ⟨g, l, hf, rfl⟩ := Conc.step_iff.mp hstep
  obtain ⟨g₁, hm, rfl⟩ := qMove_of_step hf
  have hh := hm.headEffect hinv.shared (hinv.each t)
  intro i hi
  rcases hh.accounted i hi with hl | ⟨hlt, hown⟩
  · exact .inr ⟨t, (congrArg QThread.swap (Function.update_self ..)).trans hl⟩
  · rcases h i hlt with ⟨r, hr, hri⟩ | ⟨u, hu⟩
    · exact .inl ⟨r, hh.kept r hr, hri⟩
    · by_cases hut : u = t
      · subst hut
        exact .inl (hown hu)
      · exact .inr ⟨u, (congrArg QThread.swap (Function.update_of_ne hut ..)).trans hu⟩

/-- **No value is dropped**: every swap is accounted for. -/
theorem accounted_of_run {d : ℕ} {c c' : QSys} {acts : List (ℕ × QAct)}
    (hinv : c.Inv (QInv d) (QThreadOk d) QApart) (h : ∀ i < c.shared.swapped.length, Accounted c i)
    (hrun : Exec QStep c acts c') : ∀ i < c'.shared.swapped.length, Accounted c' i := by
  have hboth : c'.Inv (QInv d) (QThreadOk d) QApart ∧ ∀ i < c'.shared.swapped.length, Accounted c' i := by
    refine hrun.inv (I := fun c => c.Inv (QInv d) (QThreadOk d) QApart ∧ ∀ i < c.shared.swapped.length, Accounted c i)
      ⟨hinv, h⟩ ?_
    rintro c a c' ⟨hI, hacc⟩ hstep
    exact ⟨(nonInterfering_queue d).step hI hstep, accounted_of_step hI hacc hstep⟩
  exact hboth.2

/-! ### Correctness -/

/-- `queue->head` and `queue->tail` point at one shared node, which is the only one. -/
structure OneNode (d : ℕ) (queue : LfQueue) : Prop where
  /-- The node is allocated. -/
  alloc : d < queue.fresh
  /-- Its `next` is `NULL`. -/
  next : (queue.node d).next = none
  /-- `queue->head`. -/
  head : queue.head = some d
  /-- `queue->tail`. -/
  tail : queue.tail = some d

theorem OneNode.inv {d : ℕ} {queue : LfQueue} (h : OneNode d queue) :
    queue.start.Inv (QInv d) (QThreadOk d) QApart where
  shared := by
    refine ⟨⟨?_, List.nodup_singleton d, ?_, ⟨d, List.mem_singleton_self d, h.tail⟩, nofun⟩, ⟨?_, h.head⟩, nofun, ?_⟩
    · intro x hx
      rw [List.mem_singleton.mp hx]
      exact h.alloc
    · intro i x hi
      cases i with
      | zero =>
        obtain rfl : d = x := Option.some.inj hi
        exact h.next
      | succ i => cases hi
    · exact List.nil_prefix
    · exact List.nodup_nil
  each := fun t => ⟨nofun, nofun, fun _ => rfl, nofun, fun _ => rfl⟩
  apart := fun t u _ => ⟨nofun, nofun⟩

/-- If every swap is that of a call that has delivered its value, these calls have, in the order of their swaps,
delivered the values enqueued first. -/
theorem exists_delivered {g : QShared} (hbound : g.swapped.length ≤ g.linked.length)
    (hdelivers : ∀ r ∈ g.returned, r.result = 1 →
      ∃ i x, r.swap = some i ∧ g.swapped[i]? = some (some x) ∧ g.linked[i]? = some (x, r.val))
    (honce : g.returned.Pairwise fun r r' => r.result = 1 → r'.result = 1 → r.swap ≠ r'.swap)
    (htaken : ∀ i < g.swapped.length, ∃ r ∈ g.returned, r.result = 1 ∧ r.swap = some i) :
    ∃ rs : List Return, rs.Perm (g.returned.filter fun r => r.result = 1) ∧
      rs.map Return.swap = (List.range g.swapped.length).map some ∧
      rs.map Return.val = (g.linked.take g.swapped.length).map Prod.snd := by
  have htaken' : ∀ i : Fin g.swapped.length, ∃ r ∈ g.returned, r.result = 1 ∧ r.swap = some i.1 := fun i => htaken i i.2
  choose f hmem hone hswap using htaken'
  refine ⟨List.ofFn f, (List.perm_ext_iff_of_nodup ?_ ?_).mpr fun r => ?_, ?_, ?_⟩
  · refine List.nodup_ofFn.mpr fun i j hij => Fin.ext (Option.some.inj ?_)
    rw [← hswap i, ← hswap j, hij]
  · refine List.pairwise_filter.mpr (honce.imp fun {r r'} hne h₁ h₁' heq => ?_)
    exact hne (by simpa using h₁) (by simpa using h₁') (congrArg Return.swap heq)
  · rw [List.mem_ofFn, List.mem_filter, decide_eq_true_eq]
    constructor
    · rintro ⟨i, rfl⟩
      exact ⟨hmem i, hone i⟩
    · rintro ⟨hr, h₁⟩
      obtain ⟨i, x, hi, hget, -⟩ := hdelivers r hr h₁
      have hlt := (List.getElem?_eq_some_iff.mp hget).1
      have hsymm : Std.Symm fun r r' : Return => r.result = 1 → r'.result = 1 → r.swap ≠ r'.swap :=
        ⟨fun r r' hne h₁ h₁' heq => hne h₁' h₁ heq.symm⟩
      refine ⟨⟨i, hlt⟩, not_not.mp fun hne => ?_⟩
      exact honce.forall (hmem ⟨i, hlt⟩) hr hne (hone ⟨i, hlt⟩) h₁ ((hswap ⟨i, hlt⟩).trans hi.symm)
  · refine List.ext_getElem (by simp) fun i hi _ => ?_
    simp [hswap]
  · refine List.ext_getElem (by simp [hbound]) fun i hi hi' => ?_
    have hlt : i < g.swapped.length := by simpa using hi
    obtain ⟨j, x, hj, -, hlink⟩ := hdelivers _ (hmem ⟨i, hlt⟩) (hone ⟨i, hlt⟩)
    obtain rfl : i = j := Option.some.inj ((hswap ⟨i, hlt⟩).symm.trans hj)
    obtain ⟨_, hval⟩ := List.getElem?_eq_some_iff.mp hlink
    simp [hval]

/-- The queue is correct. -/
structure QueueCorrect (d : ℕ) (c : QSys) : Prop where
  /-- The nodes linked form one chain from `d`, -/
  chain : Linked (fun x => (c.shared.queue.node x).next) (chain d c.shared.linked)
  /-- which does not come back to itself. -/
  acyclic : (SyncProject.chain d c.shared.linked).Nodup
  /-- `queue->head` lies on it. -/
  head : ∃ x ∈ SyncProject.chain d c.shared.linked, c.shared.queue.head = some x
  /-- `queue->tail` lies on it. -/
  tail : ∃ x ∈ SyncProject.chain d c.shared.linked, c.shared.queue.tail = some x
  /-- The swaps of `queue->head` take out the nodes in the order they were linked. -/
  order : c.shared.swapped <+: c.shared.linked.map fun e => some e.1
  /-- A call returns `0` or `1`. -/
  result : ∀ r ∈ c.shared.returned, r.result = 0 ∨ r.result = 1
  /-- A call that returns `1` has made a swap, and delivers the value enqueued with the node
  it took out. -/
  delivers : ∀ r ∈ c.shared.returned, r.result = 1 →
    ∃ i x, r.swap = some i ∧ c.shared.swapped[i]? = some (some x) ∧ c.shared.linked[i]? = some (x, r.val)
  /-- No value is delivered twice. -/
  once : c.shared.returned.Pairwise fun r r' => r.result = 1 → r'.result = 1 → r.swap ≠ r'.swap
  /-- A call returns `0` only if the queue was empty at some moment during the call, -/
  empty : ∀ r ∈ c.shared.returned, r.result = 0 → r.sawEmpty = true
  /-- and has then made no swap. -/
  keeps : ∀ r ∈ c.shared.returned, r.result = 0 → r.swap = none
  /-- A call that has made its swap does not come to the compare-and-swap again. -/
  single : ∀ t p next, (c.thread t).pc = .dequeue (.swap p next) → (c.thread t).swap = none
  /-- Every swap is that of a call that has delivered its value, or is still under way: none is dropped. -/
  taken : ∀ i < c.shared.swapped.length, (∃ r ∈ c.shared.returned, r.result = 1 ∧ r.swap = some i) ∨
    ∃ t pc, (c.thread t).pc = .dequeue pc ∧ (c.thread t).swap = some i
  /-- So when no call is under way, those that returned `1` have, in the order of their swaps, delivered the values
  enqueued first. -/
  delivered : (∀ t pc, (c.thread t).pc ≠ .dequeue pc) → ∃ rs : List Return,
    rs.Perm (c.shared.returned.filter fun r => r.result = 1) ∧
    rs.map Return.swap = (List.range c.shared.swapped.length).map some ∧
    rs.map Return.val = (c.shared.linked.take c.shared.swapped.length).map Prod.snd

theorem queueCorrect_of_inv {d : ℕ} {c : QSys} (h : c.Inv (QInv d) (QThreadOk d) QApart)
    (hacc : ∀ i < c.shared.swapped.length, Accounted c i) : QueueCorrect d c := by
  have hI := h.shared
  have hdelivers : ∀ r ∈ c.shared.returned, r.result = 1 →
      ∃ i x, r.swap = some i ∧ c.shared.swapped[i]? = some (some x) ∧ c.shared.linked[i]? = some (x, r.val) := by
    intro r hr h₁
    obtain ⟨h₀, -⟩ | ⟨-, hr⟩ := hI.returned r hr
    · omega
    · exact hr
  have hzero : ∀ r ∈ c.shared.returned, r.result = 0 → r.swap = none ∧ r.sawEmpty = true := by
    intro r hr h₀
    obtain ⟨-, hr⟩ | ⟨h₁, -⟩ := hI.returned r hr
    · exact hr
    · omega
  have hresult : ∀ r ∈ c.shared.returned, r.result = 0 ∨ r.result = 1 := fun r hr =>
    (hI.returned r hr).imp And.left And.left
  have honce : c.shared.returned.Pairwise fun r r' => r.result = 1 → r'.result = 1 → r.swap ≠ r'.swap := by
    refine (List.pairwise_filterMap.mp hI.once).imp_of_mem fun {r r'} hr hr' hne h₁ h₁' heq => ?_
    obtain ⟨i, -, hi, -⟩ := hdelivers r hr h₁
    exact hne i hi i (heq.symm.trans hi) rfl
  have htaken : ∀ i < c.shared.swapped.length, (∃ r ∈ c.shared.returned, r.result = 1 ∧ r.swap = some i) ∨
      ∃ t pc, (c.thread t).pc = .dequeue pc ∧ (c.thread t).swap = some i := by
    intro i hi
    rcases hacc i hi with ⟨r, hr, hri⟩ | ⟨t, ht⟩
    · refine .inl ⟨r, hr, (hresult r hr).resolve_left fun h₀ => ?_, hri⟩
      rw [(hzero r hr h₀).1] at hri
      cases hri
    · refine .inr ⟨t, not_forall_not.mp fun hnot => ?_⟩
      have hnone : (c.thread t).swap = none := (h.each t).noSwap fun pc hpc => hnot pc ⟨hpc, ht⟩
      rw [hnone] at ht
      cases ht
  constructor
  case chain => exact hI.tail.links
  case acyclic => exact hI.tail.nodup
  case head =>
    obtain ⟨x, hx, hget⟩ := hI.head.exists_head
    exact ⟨x, List.mem_of_getElem? hget, hx⟩
  case tail => exact hI.tail.tail
  case order => exact hI.head.taken
  case result => exact hresult
  case delivers => exact hdelivers
  case once => exact honce
  case empty => exact fun r hr h₀ => (hzero r hr h₀).2
  case keeps => exact fun r hr h₀ => (hzero r hr h₀).1
  case single => exact fun t p next hpc => ((h.each t).dequeue _ hpc).1
  case taken => exact htaken
  case delivered =>
    exact fun hidle => exists_delivered hI.head.length_le hdelivers honce fun i hi =>
      (htaken i hi).resolve_right fun ⟨t, pc, hpc, _⟩ => hidle t pc hpc

/-- **The queue is correct** for any number of threads that enqueue and any number that
dequeue, after every interleaving of their accesses. -/
theorem queueRun_correct {d : ℕ} {queue : LfQueue} {acts : List (ℕ × QAct)} {c : QSys} (h : OneNode d queue)
    (hrun : Exec QStep queue.start acts c) : QueueCorrect d c :=
  queueCorrect_of_inv ((nonInterfering_queue d).run h.inv hrun) (accounted_of_run h.inv nofun hrun)

/-- A value is taken out before `queue->tail` has moved on to its node, and a second consumer
finds the queue empty. -/
theorem queueRun_correct_tail_lags :
    ∃ acts c, Exec QStep (LfQueue.start ⟨some 0, some 0, fun _ => ⟨0, none⟩, 1⟩) acts c ∧
      c.shared.returned.map (fun r => (r.result, r.val)) = [(0, 0), (1, 5)] ∧ QueueCorrect 0 c := by
  let acts : List (ℕ × QAct) :=
    [(0, QAct.enqueue 5)] ++ List.replicate 6 (0, QAct.run) ++ [(1, QAct.dequeue 0), (2, QAct.dequeue 0)] ++
    List.replicate 4 (1, QAct.run) ++ List.replicate 3 (2, QAct.run) ++ List.replicate 5 (1, QAct.run)
  have hrun : (Conc.run QShared.step (LfQueue.start ⟨some 0, some 0, fun _ => ⟨0, none⟩, 1⟩) acts).map
      (fun c => c.shared.returned.map fun r => (r.result, r.val)) = some [(0, 0), (1, 5)] := by decide +kernel
  obtain ⟨c, hc, hret⟩ := Option.map_eq_some_iff.mp hrun
  have hexec := Conc.exec_of_run hc
  exact ⟨acts, c, hexec, hret, queueRun_correct ⟨Nat.one_pos, rfl, rfl, rfl⟩ hexec⟩

end PetLab.SyncProject
