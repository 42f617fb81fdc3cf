import Mathlib.Data.Nat.Notation
import PetLab.Lib.Conc

/-!
# The lock-free queue

`lf_enqueue` and `lf_dequeue` of `locking.c`, one access to shared memory at a time.

## The model

A node is named by a number; `malloc` counts up, and nothing is freed, as in the source
(`lf_queue_deinit` is empty). What `malloc` returns is not initialised, so a node that is
not allocated yet holds anything. An out-of-memory `NULL` from `malloc` is not modelled.
`p->next` faults when `p` is `NULL`: the thread then has no step.

`EnqPc` and `DeqPc` say which access of its function a thread is at, with the values of the
local variables that are still needed. Each access is one step, so a run of the system is
a sequentially consistent interleaving of the accesses. Where C leaves open which of two
loads in an expression comes first, the left one does: the right one reads a link that is
set, and links that are set do not change.

`linked`, `swapped` and `returned` keep what happened: the successful links of `p->next`
with the value enqueued, the successful swaps of `queue->head` with the pointer put there,
and the calls of `lf_dequeue` that returned. No step of the code looks at them.
-/

namespace PetLab.SyncProject

open PetLab.Lib

/-- `struct node *`: `none` is `NULL`. -/
abbrev Ptr := Option ℕ

/-- `struct node`. -/
structure Node where
  /-- `value`. -/
  value : BitVec 32
  /-- `next`. -/
  next : Ptr
  deriving DecidableEq, Repr

/-- `struct lf_queue`, with the nodes it points into. -/
structure LfQueue where
  /-- `head`. -/
  head : Ptr
  /-- `tail`. -/
  tail : Ptr
  /-- The nodes. -/
  node : ℕ → Node
  /-- The nodes from here on are not allocated. -/
  fresh : ℕ

/-- `compare_and_swap_ptr`: what it returns, and what `*ptr` holds afterwards. -/
def compareAndSwapPtr (ptr expected new : Ptr) : Ptr × Ptr := (ptr, if ptr = expected then new else ptr)

/-- A store to a node. -/
def LfQueue.setNode (queue : LfQueue) (p : ℕ) (f : Node → Node) : LfQueue :=
  { queue with node := Function.update queue.node p (f (queue.node p)) }

/-- `lf_queue_init`, in a memory where the nodes from `fresh` on are not allocated. -/
def lfQueueInit (node : ℕ → Node) (fresh : ℕ) : LfQueue :=
  (({ head := some fresh, tail := some (fresh + 1), node := node, fresh := fresh + 2 } : LfQueue).setNode fresh
    fun n => { n with next := none }).setNode (fresh + 1) fun n => { n with next := none }

/-! ### The functions, access by access -/

/-- Where a call of `lf_enqueue` is. -/
inductive EnqPc where
  /-- `q = malloc(sizeof(struct node))`. -/
  | malloc
  /-- `q->value = val`. -/
  | storeValue (q : ℕ)
  /-- `q->next = NULL`. -/
  | storeNext (q : ℕ)
  /-- `p = queue->tail`. -/
  | loadTail (q : ℕ)
  /-- `compare_and_swap_ptr(&(p->next), NULL, q)`. -/
  | link (q : ℕ) (p : Ptr)
  /-- `succ = (q == p->next)`. -/
  | check (q p : ℕ)
  /-- The load of `p->next` for the next access. -/
  | loadNext (q p : ℕ)
  /-- `compare_and_swap_ptr(&(queue->tail), p, p->next)`. -/
  | help (q p : ℕ) (next : Ptr)
  /-- `compare_and_swap_ptr(&(queue->tail), p, q)`. -/
  | swing (q p : ℕ)
  /-- `return`. -/
  | ret
  deriving DecidableEq, Repr

/-- One access of `lf_enqueue(queue, val)`. -/
def LfQueue.lfEnqueue (queue : LfQueue) (val : BitVec 32) : EnqPc → Option (LfQueue × EnqPc)
  | .malloc => some ({ queue with fresh := queue.fresh + 1 }, .storeValue queue.fresh)
  | .storeValue q => some (queue.setNode q fun n => { n with value := val }, .storeNext q)
  | .storeNext q => some (queue.setNode q fun n => { n with next := none }, .loadTail q)
  | .loadTail q => some (queue, .link q queue.tail)
  | .link q p => p.map fun p =>
    (queue.setNode p fun n => { n with next := (compareAndSwapPtr n.next none (some q)).2 }, .check q p)
  | .check q p => some (queue, if (queue.node p).next = some q then .swing q p else .loadNext q p)
  | .loadNext q p => some (queue, .help q p (queue.node p).next)
  | .help q p next => some ({ queue with tail := (compareAndSwapPtr queue.tail (some p) next).2 }, .loadTail q)
  | .swing q p => some ({ queue with tail := (compareAndSwapPtr queue.tail (some p) (some q)).2 }, .ret)
  | .ret => none

/-- Where a call of `lf_dequeue` is. -/
inductive DeqPc where
  /-- `p = queue->head`. -/
  | loadHead
  /-- `p->next == NULL`. -/
  | test (p : Ptr)
  /-- The load of `p->next` for the next access. -/
  | loadNext (p : ℕ)
  /-- `oldhead = compare_and_swap_ptr(&(queue->head), p, p->next)`. -/
  | swap (p : ℕ) (next : Ptr)
  /-- The load of `oldhead->next`. -/
  | loadOld (p : ℕ) (oldhead : Ptr)
  /-- `succ = (oldhead->next == p->next)`. -/
  | compare (p : ℕ) (oldNext : Ptr)
  /-- The load of `p->next` for the next access. -/
  | loadNode (p : ℕ) (succ : Bool)
  /-- `*val = p->next->value`, and the test of `while(succ==0)`. -/
  | loadValue (n : Ptr) (succ : Bool)
  /-- `return result`. -/
  | ret (result : ℕ)
  deriving DecidableEq, Repr

/-- One access of `lf_dequeue(queue, &val)`, where `val` is a variable of the caller. -/
def LfQueue.lfDequeue (queue : LfQueue) (val : BitVec 32) : DeqPc → Option (LfQueue × BitVec 32 × DeqPc)
  | .loadHead => some (queue, val, .test queue.head)
  | .test p => p.map fun p => (queue, val, if (queue.node p).next = none then .ret 0 else .loadNext p)
  | .loadNext p => some (queue, val, .swap p (queue.node p).next)
  | .swap p next =>
    let r := compareAndSwapPtr queue.head (some p) next
    some ({ queue with head := r.2 }, val, .loadOld p r.1)
  | .loadOld p oldhead => oldhead.map fun y => (queue, val, .compare p (queue.node y).next)
  | .compare p oldNext => some (queue, val, .loadNode p (oldNext == (queue.node p).next))
  | .loadNode p succ => some (queue, val, .loadValue (queue.node p).next succ)
  | .loadValue n succ => n.map fun n => (queue, (queue.node n).value, if succ then .ret 1 else .loadHead)
  | .ret _ => none

/-! ### The system -/

/-- Where a thread is. -/
inductive Pc where
  /-- In none of the two functions. -/
  | idle
  /-- In `lf_enqueue`. -/
  | enqueue (pc : EnqPc)
  /-- In `lf_dequeue`. -/
  | dequeue (pc : DeqPc)
  deriving DecidableEq, Repr

/-- A thread. -/
structure QThread where
  /-- Where it is. -/
  pc : Pc
  /-- The `val` of its call: the value to enqueue, or the variable to dequeue into. -/
  val : BitVec 32
  /-- How many swaps of `queue->head` came before the one its call made, if it made one. -/
  swap : Option ℕ
  /-- How many values had been linked when its call began. -/
  linkedAtCall : ℕ

/-- A call of `lf_dequeue` that has returned. -/
structure Return where
  /-- What it returned. -/
  result : ℕ
  /-- What it left in `*val`. -/
  val : BitVec 32
  /-- How many swaps of `queue->head` came before its own, if it made one. -/
  swap : Option ℕ
  /-- How many values had been linked when it began. -/
  linkedAtCall : ℕ
  /-- Whether the queue was empty at some moment during the call. -/
  sawEmpty : Bool
  deriving DecidableEq, Repr

/-- What the threads share. -/
structure QShared where
  /-- The queue. -/
  queue : LfQueue
  /-- The nodes linked, with the values enqueued, the last one last. -/
  linked : List (ℕ × BitVec 32)
  /-- What `queue->head` was swapped to, the last one last. -/
  swapped : List Ptr
  /-- The calls of `lf_dequeue` that have returned, the last one last. -/
  returned : List Return
  /-- Whether the queue was empty at some moment since the thread's call began. -/
  sawEmpty : ℕ → Bool

/-- Every value linked so far has been taken out by a swap of `queue->head`. -/
def QShared.Empty (g : QShared) : Prop := g.swapped.length = g.linked.length

instance (g : QShared) : Decidable g.Empty := inferInstanceAs (Decidable (_ = _))

/-- The threads in a call see the queue as it now is. -/
def QShared.observe (g : QShared) : QShared := { g with sawEmpty := fun t => g.sawEmpty t || decide g.Empty }

/-- The node that an access of `lf_enqueue` links. -/
def LfQueue.links (queue : LfQueue) : EnqPc → List ℕ
  | .link q (some p) => if (queue.node p).next = none then [q] else []
  | _ => []

/-- What an access of `lf_dequeue` swaps `queue->head` to. -/
def LfQueue.swaps (queue : LfQueue) : DeqPc → List Ptr
  | .swap p next => if queue.head = some p then [next] else []
  | _ => []

/-- What a thread can be told to do. -/
inductive QAct where
  /-- Call `lf_enqueue(queue, val)`. -/
  | enqueue (val : BitVec 32)
  /-- Call `lf_dequeue(queue, &v)`, where `v` holds `val`. -/
  | dequeue (val : BitVec 32)
  /-- Go on with the call it is in. -/
  | run
  deriving DecidableEq, Repr

/-- One access of a call of `lf_enqueue`, or its return. -/
def QShared.runEnqueue (g : QShared) (l : QThread) (pc : EnqPc) : Option (QShared × QThread) :=
  if pc = .ret then some (g, { l with pc := .idle })
  else (g.queue.lfEnqueue l.val pc).map fun r =>
    ({ g with queue := r.1, linked := g.linked ++ (g.queue.links pc).map fun q => (q, l.val) },
      { l with pc := .enqueue r.2 })

/-- One access of a call of `lf_dequeue` by thread `t`, or its return. -/
def QShared.runDequeue (g : QShared) (t : ℕ) (l : QThread) (pc : DeqPc) : Option (QShared × QThread) :=
  match pc with
  | .ret result =>
    some ({ g with returned := g.returned ++ [⟨result, l.val, l.swap, l.linkedAtCall, g.sawEmpty t⟩] },
      { l with pc := .idle, swap := none })
  | pc => (g.queue.lfDequeue l.val pc).map fun r =>
    ({ g with queue := r.1, swapped := g.swapped ++ g.queue.swaps pc },
      { l with pc := .dequeue r.2.2, val := r.2.1,
               swap := if g.queue.swaps pc = [] then l.swap else some g.swapped.length })

/-- A step of thread `t`. -/
def QShared.step (t : ℕ) (a : QAct) (g : QShared) (l : QThread) : Option (QShared × QThread) :=
  Option.map (fun r => (r.1.observe, r.2)) <|
    match a, l.pc with
    | .enqueue val, .idle => some (g, { l with pc := .enqueue .malloc, val := val })
    | .dequeue val, .idle =>
      some ({ g with sawEmpty := Function.update g.sawEmpty t false }, ⟨.dequeue .loadHead, val, none, g.linked.length⟩)
    | .run, .enqueue pc => g.runEnqueue l pc
    | .run, .dequeue pc => g.runDequeue t l pc
    | _, _ => none

/-- The queue and its threads. -/
abbrev QSys := Conc ℕ QShared QThread

/-- One step of one thread. -/
abbrev QStep : QSys → ℕ × QAct → QSys → Prop := Conc.Step QShared.step

/-- A system in which nothing has happened yet. -/
def LfQueue.start (queue : LfQueue) : QSys where
  shared := ⟨queue, [], [], [], fun _ => true⟩
  thread _ := ⟨.idle, 0, none, 0⟩

/-! ### What a step can do -/

/-- A step of thread `t`, before the other threads see what it did. -/
inductive QMove (t : ℕ) (g : QShared) (l : QThread) : QShared → QThread → Prop where
  /-- It calls `lf_enqueue`. -/
  | callEnqueue (val : BitVec 32) : l.pc = .idle → QMove t g l g { l with pc := .enqueue .malloc, val := val }
  /-- It calls `lf_dequeue`. -/
  | callDequeue (val : BitVec 32) : l.pc = .idle →
      QMove t g l { g with sawEmpty := Function.update g.sawEmpty t false }
        ⟨.dequeue .loadHead, val, none, g.linked.length⟩
  /-- It goes on in `lf_enqueue`. -/
  | enqueue {pc pc' : EnqPc} {queue : LfQueue} : l.pc = .enqueue pc → g.queue.lfEnqueue l.val pc = some (queue, pc') →
      QMove t g l { g with queue := queue, linked := g.linked ++ (g.queue.links pc).map fun q => (q, l.val) }
        { l with pc := .enqueue pc' }
  /-- It returns from `lf_enqueue`. -/
  | enqueueReturns : l.pc = .enqueue .ret → QMove t g l g { l with pc := .idle }
  /-- It goes on in `lf_dequeue`. -/
  | dequeue {pc pc' : DeqPc} {queue : LfQueue} {val : BitVec 32} : l.pc = .dequeue pc →
      g.queue.lfDequeue l.val pc = some (queue, val, pc') →
      QMove t g l { g with queue := queue, swapped := g.swapped ++ g.queue.swaps pc }
        { l with pc := .dequeue pc', val := val,
                 swap := if g.queue.swaps pc = [] then l.swap else some g.swapped.length }
  /-- It returns from `lf_dequeue`. -/
  | dequeueReturns {result : ℕ} : l.pc = .dequeue (.ret result) →
      QMove t g l { g with returned := g.returned ++ [⟨result, l.val, l.swap, l.linkedAtCall, g.sawEmpty t⟩] }
        { l with pc := .idle, swap := none }

theorem qMove_of_step {t : ℕ} {a : QAct} {g g' : QShared} {l l' : QThread}
    (h : QShared.step t a g l = some (g', l')) : ∃ g₁, QMove t g l g₁ l' ∧ g' = g₁.observe := by
  obtain ⟨⟨g₁, l₁⟩, hr, he⟩ := Option.map_eq_some_iff.mp h
  obtain ⟨rfl, rfl⟩ := Prod.mk.inj he
  refine ⟨g₁, ?_, rfl⟩
  clear h he
  split at hr
  · rename_i val hpc
    obtain ⟨rfl, rfl⟩ := Prod.mk.inj (Option.some.inj hr)
    exact .callEnqueue val hpc
  · rename_i val hpc
    obtain ⟨rfl, rfl⟩ := Prod.mk.inj (Option.some.inj hr)
    exact .callDequeue val hpc
  · rename_i pc hpc
    unfold QShared.runEnqueue at hr
    split_ifs at hr with hret
    · subst hret
      obtain ⟨rfl, rfl⟩ := Prod.mk.inj (Option.some.inj hr)
      exact .enqueueReturns hpc
    · obtain ⟨⟨queue, pc'⟩, hq, he⟩ := Option.map_eq_some_iff.mp hr
      obtain ⟨rfl, rfl⟩ := Prod.mk.inj he
      exact .enqueue hpc hq
  · rename_i pc hpc
    unfold QShared.runDequeue at hr
    split at hr
    · obtain ⟨rfl, rfl⟩ := Prod.mk.inj (Option.some.inj hr)
      exact .dequeueReturns hpc
    · obtain ⟨⟨queue, val, pc'⟩, hq, he⟩ := Option.map_eq_some_iff.mp hr
      obtain ⟨rfl, rfl⟩ := Prod.mk.inj he
      exact .dequeue hpc hq
  · cases hr

/-- What the other threads have seen before stays. -/
theorem QMove.sawEmpty_eq {t u : ℕ} {g g' : QShared} {l l' : QThread} (hm : QMove t g l g' l') (hu : u ≠ t) :
    g'.sawEmpty u = g.sawEmpty u := by
  cases hm with
  | callDequeue _ _ => exact Function.update_of_ne hu _ _
  | _ => rfl

end PetLab.SyncProject
