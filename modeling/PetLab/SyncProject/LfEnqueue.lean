import Mathlib.Data.List.Nodup
import PetLab.Lib.LinkChain
import PetLab.SyncProject.LfQueue

/-!
# Enqueueing

The nodes linked so far form one chain that starts at a node `d`, the one `queue->tail`
pointed at when the queue was set up: `TailInv`. `EnqOk` is what a thread in
`lf_enqueue` knows at each of its accesses: whether its node is still its own, and that
the `p` it works with is on the chain. Both are kept by the accesses of all threads
(`EnqOk.step`, `EnqOk.stable`), whatever `queue->head` is.
-/

namespace PetLab.SyncProject

open PetLab.Lib

/-- The chain from `d`. -/
def chain (d : ℕ) (linked : List (ℕ × BitVec 32)) : List ℕ := d :: linked.map Prod.fst

/-- The node a call of `lf_enqueue` has allocated. -/
def EnqPc.mine : EnqPc → Option ℕ
  | .malloc | .ret => none
  | .storeValue q | .storeNext q | .loadTail q | .link q _ | .check q _ | .loadNext q _ | .help q _ _ | .swing q _ =>
    some q

/-- The node a thread has allocated in `lf_enqueue`. -/
def QThread.mine (l : QThread) : Option ℕ :=
  match l.pc with
  | .enqueue pc => pc.mine
  | _ => none

/-- The chain is in memory. -/
structure TailInv (d : ℕ) (queue : LfQueue) (linked : List (ℕ × BitVec 32)) : Prop where
  /-- Its nodes are allocated. -/
  alloc : ∀ x ∈ chain d linked, x < queue.fresh
  /-- It does not come back to itself. -/
  nodup : (chain d linked).Nodup
  /-- Its nodes point to one another. -/
  links : Linked (fun x => (queue.node x).next) (chain d linked)
  /-- `queue->tail` points into it. -/
  tail : ∃ x ∈ chain d linked, queue.tail = some x
  /-- Its nodes hold the values enqueued. -/
  value : ∀ e ∈ linked, (queue.node e.1).value = e.2

/-- Node `q` holds `val` and is not linked yet. -/
structure Unlinked (d : ℕ) (queue : LfQueue) (linked : List (ℕ × BitVec 32)) (val : BitVec 32) (q : ℕ) : Prop where
  /-- It is not on the chain. -/
  off : q ∉ chain d linked
  /-- It holds the value. -/
  value : (queue.node q).value = val
  /-- It points nowhere. -/
  next : (queue.node q).next = none

/-- What a thread in `lf_enqueue` knows. -/
def EnqAt (d : ℕ) (queue : LfQueue) (linked : List (ℕ × BitVec 32)) (val : BitVec 32) : EnqPc → Prop
  | .malloc | .ret => True
  | .storeValue q => q ∉ chain d linked
  | .storeNext q => q ∉ chain d linked ∧ (queue.node q).value = val
  | .loadTail q => Unlinked d queue linked val q
  | .link q p => Unlinked d queue linked val q ∧ ∃ x ∈ chain d linked, p = some x
  | .check q p => p ∈ chain d linked ∧
    ((Unlinked d queue linked val q ∧ (queue.node p).next ≠ none) ∨ (queue.node p).next = some q)
  | .loadNext q p => Unlinked d queue linked val q ∧ p ∈ chain d linked ∧ (queue.node p).next ≠ none
  | .help q _ next => Unlinked d queue linked val q ∧ ∃ y ∈ chain d linked, next = some y
  | .swing q _ => q ∈ chain d linked

/-- What holds of a thread in `lf_enqueue`. -/
structure EnqOk (d : ℕ) (queue : LfQueue) (linked : List (ℕ × BitVec 32)) (val : BitVec 32) (pc : EnqPc) : Prop where
  /-- Its node is allocated. -/
  alloc : ∀ q, pc.mine = some q → q < queue.fresh
  /-- What it knows where it is. -/
  now : EnqAt d queue linked val pc

/-- What an access of a thread leaves as it is, when `mine` is the node the thread has
allocated. -/
structure Frame (d : ℕ) (mine : Option ℕ) (queue : LfQueue) (linked : List (ℕ × BitVec 32)) (queue' : LfQueue)
    (linked' : List (ℕ × BitVec 32)) : Prop where
  /-- Nothing is freed. -/
  fresh : queue.fresh ≤ queue'.fresh
  /-- The chain only grows. -/
  grows : linked <+: linked'
  /-- The nodes of other threads are not linked. -/
  off : ∀ x < queue.fresh, x ∉ chain d linked → mine ≠ some x → x ∉ chain d linked'
  /-- They are not written to either. -/
  node : ∀ x < queue.fresh, x ∉ chain d linked → mine ≠ some x → queue'.node x = queue.node x

section

variable {d q x : ℕ} {queue queue' : LfQueue} {linked linked' : List (ℕ × BitVec 32)} {val : BitVec 32}
  {mine : Option ℕ} {pc pc' : EnqPc}

theorem mem_chain_of_mem {e : ℕ × BitVec 32} (h : e ∈ linked) : e.1 ∈ chain d linked :=
  List.mem_cons_of_mem _ (List.mem_map_of_mem h)

theorem chain_append (d : ℕ) (linked : List (ℕ × BitVec 32)) (q : ℕ) (val : BitVec 32) :
    chain d (linked ++ [(q, val)]) = chain d linked ++ [q] := by
  simp [chain]

theorem Frame.refl : Frame d mine queue linked queue linked :=
  ⟨Nat.le_refl _, List.prefix_rfl, fun _ _ h _ => h, fun _ _ _ _ => rfl⟩

/-- The chain only grows. -/
theorem Frame.chain_isPrefix (h : Frame d mine queue linked queue' linked') : chain d linked <+: chain d linked' := by
  obtain ⟨l, rfl⟩ := h.grows
  exact ⟨l.map Prod.fst, by simp [chain]⟩

theorem Frame.mem_chain (h : Frame d mine queue linked queue' linked') (hx : x ∈ chain d linked) :
    x ∈ chain d linked' :=
  h.chain_isPrefix.subset hx

@[simp] theorem setNode_node (queue : LfQueue) (p : ℕ) (f : Node → Node) :
    (queue.setNode p f).node = Function.update queue.node p (f (queue.node p)) := rfl

/-! ### What the accesses do to the chain -/

/-- A link of the chain stays. -/
theorem TailInv.next_eq (h : TailInv d queue linked) (h' : TailInv d queue' linked')
    (hf : Frame d mine queue linked queue' linked') (hx : x ∈ chain d linked) (hne : (queue.node x).next ≠ none) :
    (queue'.node x).next = (queue.node x).next := by
  obtain ⟨y, hy⟩ := Option.ne_none_iff_exists'.mp hne
  rw [hy]
  exact h.links.next_of_isPrefix h'.links hf.chain_isPrefix hx hy

/-- What a node of the chain points to is on the chain. -/
theorem TailInv.exists_next (h : TailInv d queue linked) (hx : x ∈ chain d linked)
    (hne : (queue.node x).next ≠ none) : ∃ y ∈ chain d linked, (queue.node x).next = some y := by
  obtain ⟨y, hy⟩ := Option.ne_none_iff_exists'.mp hne
  exact ⟨y, h.links.mem_of_next hx hy, hy⟩

/-- `malloc`. -/
theorem TailInv.malloc (h : TailInv d queue linked) : TailInv d { queue with fresh := queue.fresh + 1 } linked :=
  ⟨fun x hx => Nat.lt_succ_of_lt (h.alloc x hx), h.nodup, h.links, h.tail, h.value⟩

/-- A store to a node that is not on the chain. -/
theorem TailInv.setNode (h : TailInv d queue linked) (hq : q ∉ chain d linked) (f : Node → Node) :
    TailInv d (queue.setNode q f) linked := by
  have hnode : ∀ x ∈ chain d linked, (queue.setNode q f).node x = queue.node x := by
    intro x hx
    apply Function.update_of_ne
    rintro rfl
    exact hq hx
  refine ⟨h.alloc, h.nodup, h.links.congr fun x hx => ?_, h.tail, fun e he => ?_⟩
  · rw [hnode x hx]
  · rw [hnode _ (mem_chain_of_mem he)]
    exact h.value e he

/-- `queue->tail` moves along the chain. -/
theorem TailInv.casTail (h : TailInv d queue linked) (hx : x ∈ chain d linked) (expected : Ptr) :
    TailInv d { queue with tail := (compareAndSwapPtr queue.tail expected (some x)).2 } linked := by
  refine ⟨h.alloc, h.nodup, h.links, ?_, h.value⟩
  show ∃ y ∈ chain d linked, (if queue.tail = expected then some x else queue.tail) = some y
  split
  · exact ⟨x, hx, rfl⟩
  · exact h.tail

/-- A node is linked behind the last one. -/
theorem TailInv.link (h : TailInv d queue linked) (hq : Unlinked d queue linked val q) (hlt : q < queue.fresh)
    (hx : x ∈ chain d linked) (hnone : (queue.node x).next = none) :
    TailInv d (queue.setNode x fun n => { n with next := some q }) (linked ++ [(q, val)]) := by
  have hnext : (fun y => ((queue.setNode x fun n => { n with next := some q }).node y).next) =
      Function.update (fun y => (queue.node y).next) x (some q) := by
    funext y
    by_cases hy : y = x
    · subst hy
      simp
    · simp [hy]
  have hvalue : ∀ y, ((queue.setNode x fun n => { n with next := some q }).node y).value = (queue.node y).value := by
    intro y
    by_cases hy : y = x
    · subst hy
      simp
    · simp [hy]
  constructor
  · intro y hy
    rw [chain_append] at hy
    rcases List.mem_append.mp hy with hy | hy
    · exact h.alloc y hy
    · rw [List.mem_singleton.mp hy]
      exact hlt
  · rw [chain_append]
    exact List.nodup_append.mpr ⟨h.nodup, List.nodup_singleton q, fun y hy z hz => by
      rw [List.mem_singleton.mp hz]
      rintro rfl
      exact hq.off hy⟩
  · rw [chain_append, hnext]
    exact h.links.concat h.nodup hx hnone hq.off hq.next
  · obtain ⟨y, hy, htail⟩ := h.tail
    refine ⟨y, ?_, htail⟩
    rw [chain_append]
    exact List.mem_append_left _ hy
  · intro e he
    rw [hvalue]
    rcases List.mem_append.mp he with he | he
    · exact h.value e he
    · rw [List.mem_singleton.mp he]
      exact hq.value

/-- `queue->head` is not part of it. -/
theorem TailInv.setHead (h : TailInv d queue linked) (head : Ptr) : TailInv d { queue with head := head } linked :=
  ⟨h.alloc, h.nodup, h.links, h.tail, h.value⟩

/-! ### Interference -/

theorem Unlinked.stable (h : Unlinked d queue linked val q) (hf : Frame d mine queue linked queue' linked')
    (hlt : q < queue.fresh) (hq : mine ≠ some q) : Unlinked d queue' linked' val q := by
  have hnode := hf.node q hlt h.off hq
  refine ⟨hf.off q hlt h.off hq, ?_, ?_⟩
  · rw [hnode]
    exact h.value
  · rw [hnode]
    exact h.next

/-- What a thread in `lf_enqueue` knows, the accesses of others do not change. -/
theorem EnqOk.stable (h : EnqOk d queue linked val pc) (hinv : TailInv d queue linked)
    (hinv' : TailInv d queue' linked') (hf : Frame d mine queue linked queue' linked')
    (hmine : ∀ q, pc.mine = some q → mine ≠ some q) : EnqOk d queue' linked' val pc := by
  refine ⟨fun q hq => Nat.lt_of_lt_of_le (h.alloc q hq) hf.fresh, ?_⟩
  have hunlinked : ∀ {q}, pc.mine = some q → Unlinked d queue linked val q → Unlinked d queue' linked' val q :=
    fun {q} hq hu => hu.stable hf (h.alloc q hq) (hmine q hq)
  have hnow := h.now
  cases pc with
  | malloc => trivial
  | ret => trivial
  | storeValue q => exact hf.off q (h.alloc q rfl) hnow (hmine q rfl)
  | storeNext q =>
    refine ⟨hf.off q (h.alloc q rfl) hnow.1 (hmine q rfl), ?_⟩
    rw [hf.node q (h.alloc q rfl) hnow.1 (hmine q rfl)]
    exact hnow.2
  | loadTail q => exact hunlinked rfl hnow
  | link q p =>
    obtain ⟨hu, x, hx, hp⟩ := hnow
    exact ⟨hunlinked rfl hu, x, hf.mem_chain hx, hp⟩
  | check q p =>
    obtain ⟨hp, ⟨hu, hne⟩ | hnext⟩ := hnow
    · refine ⟨hf.mem_chain hp, .inl ⟨hunlinked rfl hu, ?_⟩⟩
      rw [hinv.next_eq hinv' hf hp hne]
      exact hne
    · refine ⟨hf.mem_chain hp, .inr ?_⟩
      rw [hinv.next_eq hinv' hf hp (by simp [hnext])]
      exact hnext
  | loadNext q p =>
    obtain ⟨hu, hp, hne⟩ := hnow
    refine ⟨hunlinked rfl hu, hf.mem_chain hp, ?_⟩
    rw [hinv.next_eq hinv' hf hp hne]
    exact hne
  | help q p next =>
    obtain ⟨hu, y, hy, hnext⟩ := hnow
    exact ⟨hunlinked rfl hu, y, hf.mem_chain hy, hnext⟩
  | swing q p => exact hf.mem_chain hnow

/-! ### The accesses of `lf_enqueue` -/

/-- What an access of `lf_enqueue` does. -/
structure EnqStep (d : ℕ) (queue : LfQueue) (linked : List (ℕ × BitVec 32)) (val : BitVec 32) (pc : EnqPc)
    (queue' : LfQueue) (linked' : List (ℕ × BitVec 32)) (pc' : EnqPc) : Prop where
  /-- The chain is in memory. -/
  inv : TailInv d queue' linked'
  /-- The thread knows what it should at its next access. -/
  ok : EnqOk d queue' linked' val pc'
  /-- The nodes of other threads are left as they are. -/
  frame : Frame d pc.mine queue linked queue' linked'
  /-- So is `queue->head`. -/
  head : queue'.head = queue.head
  /-- The node of the thread stays the same, or is new. -/
  mine : ∀ q, pc'.mine = some q → pc.mine = some q ∨ q = queue.fresh

/-- An access that changes neither nodes nor the chain. -/
theorem EnqOk.step_same (h : EnqOk d queue linked val pc) (hinv : TailInv d queue' linked)
    (hfresh : queue'.fresh = queue.fresh) (hnode : queue'.node = queue.node) (hhead : queue'.head = queue.head)
    (hmine : ∀ q, pc'.mine = some q → pc.mine = some q) (hnow : EnqAt d queue' linked val pc') :
    EnqStep d queue linked val pc queue' linked pc' := by
  have hframe : Frame d pc.mine queue linked queue' linked :=
    ⟨Nat.le_of_eq hfresh.symm, List.prefix_rfl, fun _ _ hx _ => hx, fun x _ _ _ => congrFun hnode x⟩
  refine ⟨hinv, ⟨fun q hq => ?_, hnow⟩, hframe, hhead, fun q hq => .inl (hmine q hq)⟩
  rw [hfresh]
  exact h.alloc q (hmine q hq)

/-- A store of a thread to its own node, which is not linked. -/
theorem EnqOk.step_own (h : EnqOk d queue linked val pc) (hinv : TailInv d queue linked) (hmine : pc.mine = some q)
    (hoff : q ∉ chain d linked) (f : Node → Node) (hmine' : pc'.mine = some q)
    (hnow : EnqAt d (queue.setNode q f) linked val pc') :
    EnqStep d queue linked val pc (queue.setNode q f) linked pc' := by
  refine ⟨hinv.setNode hoff f, ⟨fun r hr => ?_, hnow⟩,
    ⟨Nat.le_refl _, List.prefix_rfl, fun _ _ hx _ => hx, fun x _ _ hx => ?_⟩, rfl, fun r hr => ?_⟩
  · rw [← Option.some.inj (hmine'.symm.trans hr)]
    exact h.alloc q hmine
  · apply Function.update_of_ne
    rintro rfl
    exact hx hmine
  · exact .inl (hmine.trans (hmine'.symm.trans hr))

/-- The compare-and-swap of `p->next` on a node of the chain. -/
theorem EnqOk.step_link {x : ℕ} (h : EnqOk d queue linked val (.link q (some x))) (hinv : TailInv d queue linked) :
    EnqStep d queue linked val (.link q (some x))
      (queue.setNode x fun n => { n with next := (compareAndSwapPtr n.next none (some q)).2 })
      (linked ++ (queue.links (.link q (some x))).map fun q => (q, val)) (.check q x) := by
  obtain ⟨hu, y, hx, hy⟩ := h.now
  obtain rfl := Option.some.inj hy
  by_cases hnone : (queue.node x).next = none
  · -- it succeeds
    have hset : (queue.setNode x fun n => { n with next := (compareAndSwapPtr n.next none (some q)).2 }) =
        queue.setNode x fun n => { n with next := some q } := by
      simp [LfQueue.setNode, compareAndSwapPtr, hnone]
    have hlinked : (linked ++ (queue.links (.link q (some x))).map fun q => (q, val)) = linked ++ [(q, val)] := by
      simp [LfQueue.links, hnone]
    rw [hset, hlinked]
    have hmem : ∀ z, z ∈ chain d (linked ++ [(q, val)]) ↔ z ∈ chain d linked ∨ z = q := by
      intro z
      rw [chain_append]
      simp
    refine ⟨hinv.link hu (h.alloc q rfl) hx hnone, ⟨h.alloc, (hmem x).mpr (.inl hx), .inr ?_⟩,
      ⟨Nat.le_refl _, List.prefix_append _ _, fun z _ hz hne => ?_, fun z _ hz _ => ?_⟩, rfl, fun r hr => .inl hr⟩
    · simp
    · rw [hmem]
      rintro (hz' | rfl)
      · exact hz hz'
      · exact hne rfl
    · apply Function.update_of_ne
      rintro rfl
      exact hz hx
  · -- another thread was faster
    have hset : (queue.setNode x fun n => { n with next := (compareAndSwapPtr n.next none (some q)).2 }) = queue := by
      simp [LfQueue.setNode, compareAndSwapPtr, hnone]
    have hlinked : (linked ++ (queue.links (.link q (some x))).map fun q => (q, val)) = linked := by
      simp [LfQueue.links, hnone]
    rw [hset, hlinked]
    exact h.step_same hinv rfl rfl rfl (fun r hr => hr) ⟨hx, .inl ⟨hu, hnone⟩⟩

/-- **Every access of `lf_enqueue`** keeps the chain and what its thread knows. -/
theorem EnqOk.step (h : EnqOk d queue linked val pc) (hinv : TailInv d queue linked)
    (hstep : queue.lfEnqueue val pc = some (queue', pc')) :
    EnqStep d queue linked val pc queue' (linked ++ (queue.links pc).map fun q => (q, val)) pc' := by
  have hnow := h.now
  cases pc with
  | malloc =>
    obtain ⟨rfl, rfl⟩ := Prod.mk.inj (Option.some.inj hstep)
    simp only [LfQueue.links, List.map_nil, List.append_nil]
    refine ⟨hinv.malloc, ⟨fun q hq => ?_, fun hmem => Nat.lt_irrefl _ (hinv.alloc _ hmem)⟩,
      ⟨Nat.le_succ _, List.prefix_rfl, fun _ _ hx _ => hx, fun _ _ _ _ => rfl⟩, rfl, fun q hq => ?_⟩
    · rw [← Option.some.inj hq]
      exact Nat.lt_succ_self _
    · exact .inr (Option.some.inj hq).symm
  | storeValue q =>
    obtain ⟨rfl, rfl⟩ := Prod.mk.inj (Option.some.inj hstep)
    simp only [LfQueue.links, List.map_nil, List.append_nil]
    exact h.step_own hinv rfl hnow _ rfl ⟨hnow, by simp⟩
  | storeNext q =>
    obtain ⟨rfl, rfl⟩ := Prod.mk.inj (Option.some.inj hstep)
    simp only [LfQueue.links, List.map_nil, List.append_nil]
    exact h.step_own hinv rfl hnow.1 _ rfl ⟨hnow.1, by simpa using hnow.2, by simp⟩
  | loadTail q =>
    obtain ⟨rfl, rfl⟩ := Prod.mk.inj (Option.some.inj hstep)
    simp only [LfQueue.links, List.map_nil, List.append_nil]
    exact h.step_same hinv rfl rfl rfl (fun r hr => hr) ⟨hnow, hinv.tail⟩
  | link q p =>
    obtain ⟨x, rfl, hx⟩ := Option.map_eq_some_iff.mp hstep
    obtain ⟨rfl, rfl⟩ := Prod.mk.inj hx
    exact h.step_link hinv
  | check q p =>
    obtain ⟨rfl, rfl⟩ := Prod.mk.inj (Option.some.inj hstep)
    simp only [LfQueue.links, List.map_nil, List.append_nil]
    obtain ⟨hp, hq⟩ := hnow
    split
    · rename_i hnext
      exact h.step_same hinv rfl rfl rfl (fun r hr => hr) (hinv.links.mem_of_next hp hnext)
    · rename_i hnext
      obtain ⟨hu, hne⟩ := hq.resolve_right hnext
      exact h.step_same hinv rfl rfl rfl (fun r hr => hr) ⟨hu, hp, hne⟩
  | loadNext q p =>
    obtain ⟨rfl, rfl⟩ := Prod.mk.inj (Option.some.inj hstep)
    simp only [LfQueue.links, List.map_nil, List.append_nil]
    obtain ⟨hu, hp, hne⟩ := hnow
    exact h.step_same hinv rfl rfl rfl (fun r hr => hr) ⟨hu, hinv.exists_next hp hne⟩
  | help q p next =>
    obtain ⟨rfl, rfl⟩ := Prod.mk.inj (Option.some.inj hstep)
    simp only [LfQueue.links, List.map_nil, List.append_nil]
    obtain ⟨hu, y, hy, rfl⟩ := hnow
    exact h.step_same (hinv.casTail hy _) rfl rfl rfl (fun r hr => hr) ⟨hu.off, hu.value, hu.next⟩
  | swing q p =>
    obtain ⟨rfl, rfl⟩ := Prod.mk.inj (Option.some.inj hstep)
    simp only [LfQueue.links, List.map_nil, List.append_nil]
    exact h.step_same (hinv.casTail hnow _) rfl rfl rfl (fun r hr => by cases hr) trivial
  | ret => cases hstep

/-! ### The steps of the system -/

/-- What holds of a thread as far as it enqueues. -/
def Enqueuer (d : ℕ) (g : QShared) (l : QThread) : Prop :=
  ∀ pc, l.pc = .enqueue pc → EnqOk d g.queue g.linked l.val pc

/-- Two threads have different nodes. -/
def NodesApart (l k : QThread) : Prop := ∀ q, l.mine = some q → k.mine ≠ some q

variable {t : ℕ} {g g' : QShared} {l l' k : QThread}

theorem QThread.mine_of_enqueue (h : l.pc = .enqueue pc) : l.mine = pc.mine := by
  simp [QThread.mine, h]

/-- The node of a thread is allocated. -/
theorem Enqueuer.mine_lt (h : Enqueuer d g l) (hq : l.mine = some q) : q < g.queue.fresh := by
  unfold QThread.mine at hq
  split at hq
  · rename_i pc hpc
    exact (h pc hpc).alloc q hq
  · cases hq

/-- Only the compare-and-swap of `lf_dequeue` is not a load. -/
theorem lfDequeue_load {val' : BitVec 32} {pc pc' : DeqPc} (hpc : ∀ p next, pc ≠ .swap p next)
    (h : queue.lfDequeue val pc = some (queue', val', pc')) : queue' = queue ∧ queue.swaps pc = [] := by
  cases pc with
  | swap p next => exact absurd rfl (hpc p next)
  | test p =>
    obtain ⟨x, -, hx⟩ := Option.map_eq_some_iff.mp h
    exact ⟨(Prod.mk.inj hx).1.symm, rfl⟩
  | loadOld p oldhead =>
    obtain ⟨x, -, hx⟩ := Option.map_eq_some_iff.mp h
    exact ⟨(Prod.mk.inj hx).1.symm, rfl⟩
  | loadValue n succ =>
    obtain ⟨x, -, hx⟩ := Option.map_eq_some_iff.mp h
    exact ⟨(Prod.mk.inj hx).1.symm, rfl⟩
  | ret result => cases h
  | _ => exact ⟨(Prod.mk.inj (Option.some.inj h)).1.symm, rfl⟩

/-- An access of `lf_dequeue` changes at most `queue->head`. -/
theorem lfDequeue_queue {val' : BitVec 32} {pc pc' : DeqPc}
    (h : queue.lfDequeue val pc = some (queue', val', pc')) : queue' = { queue with head := queue'.head } := by
  by_cases hpc : ∃ p next, pc = .swap p next
  · obtain ⟨p, next, rfl⟩ := hpc
    obtain ⟨rfl, -⟩ := Prod.mk.inj (Option.some.inj h)
    rfl
  · rw [(lfDequeue_load (fun p next heq => hpc ⟨p, next, heq⟩) h).1]

/-- What a step does to the chain. -/
structure TailEffect (d : ℕ) (g : QShared) (l : QThread) (g' : QShared) (l' : QThread) : Prop where
  /-- The chain is in memory. -/
  inv : TailInv d g'.queue g'.linked
  /-- The thread is as it should be. -/
  own : Enqueuer d g' l'
  /-- The nodes of other threads are left as they are. -/
  frame : Frame d l.mine g.queue g.linked g'.queue g'.linked
  /-- The node of the thread stays the same, or is new. -/
  mine : ∀ q, l'.mine = some q → l.mine = some q ∨ q = g.queue.fresh

/-- A step of a thread that does not enqueue. -/
theorem TailInv.effect_of_mine_eq_none (hinv : TailInv d g.queue g.linked)
    (hqueue : g'.queue = { g.queue with head := g'.queue.head }) (hlinked : g'.linked = g.linked)
    (hmine : l'.mine = none) (hown : Enqueuer d g' l') : TailEffect d g l g' l' := by
  refine ⟨?_, hown, ?_, fun q hq => ?_⟩
  · rw [hqueue, hlinked]
    exact hinv.setHead _
  · rw [hqueue, hlinked]
    exact ⟨Nat.le_refl _, List.prefix_rfl, fun _ _ hx _ => hx, fun _ _ _ _ => rfl⟩
  · rw [hmine] at hq
    cases hq

theorem QMove.tailEffect (hm : QMove t g l g' l') (hinv : TailInv d g.queue g.linked) (hok : Enqueuer d g l) :
    TailEffect d g l g' l' := by
  cases hm with
  | callEnqueue val _ =>
    refine hinv.effect_of_mine_eq_none rfl rfl rfl fun pc hpc => ?_
    obtain rfl := Pc.enqueue.inj hpc
    exact ⟨nofun, trivial⟩
  | callDequeue val _ => exact hinv.effect_of_mine_eq_none rfl rfl rfl nofun
  | enqueue hpc hstep =>
    have hs := (hok _ hpc).step hinv hstep
    refine ⟨hs.inv, fun pc hpc' => ?_, ?_, ?_⟩
    · obtain rfl := Pc.enqueue.inj hpc'
      exact hs.ok
    · rw [QThread.mine_of_enqueue hpc]
      exact hs.frame
    · rw [QThread.mine_of_enqueue hpc]
      exact hs.mine
  | enqueueReturns _ => exact hinv.effect_of_mine_eq_none rfl rfl rfl nofun
  | dequeue _ hstep => exact hinv.effect_of_mine_eq_none (lfDequeue_queue hstep) rfl rfl nofun
  | dequeueReturns _ => exact hinv.effect_of_mine_eq_none rfl rfl rfl nofun

/-- Another thread stays as it was. -/
theorem TailEffect.other (he : TailEffect d g l g' l') (hinv : TailInv d g.queue g.linked) (hk : Enqueuer d g k)
    (happ : NodesApart l k) : Enqueuer d g' k := by
  intro pc hpc
  refine (hk pc hpc).stable hinv he.inv he.frame fun q hq hl => happ q hl ?_
  rw [QThread.mine_of_enqueue hpc]
  exact hq

theorem TailEffect.apart (he : TailEffect d g l g' l') (hk : Enqueuer d g k) (happ : NodesApart l k) :
    NodesApart l' k := by
  intro q hq hkq
  rcases he.mine q hq with hl | rfl
  · exact happ q hl hkq
  · exact Nat.lt_irrefl _ (hk.mine_lt hkq)

end

end PetLab.SyncProject
