import PetLab.VMproject.FreeWalk

/-!
# Closing the device

`petmem_release` calls `petmem_deinit_process`, which goes through the nodes of the map,
frees what is allocated with `petmem_free_vspace`, unlinks the node and gives it back with
`kfree`. But `petmem_free_vspace` unlinks nodes too: the node it frees goes into the free
node after it, if there is one. The teardown then calls `list_del` on a node that is in no
list, and writes through the pointers the first `list_del` has poisoned.

An allocated node is never the last one of the map, and the last node is free. So the
teardown comes to an allocated node with a free one behind it whenever there is an
allocated node at all (`Shut.not_ok`): it goes through exactly when nothing is allocated any
more (`deinit_tears_down_iff`).

## The model

`Teardown` is the process with a log of what is done to the nodes. A `list_del` of a node
that is in no list is an oops, as is the use of a node that has left the list. The
cursor `next` is read before the body of the loop runs, as `list_for_each_entry_safe`
does. One bound serves for the loop and for the walks of `petmem_free_vspace` in it.
-/

namespace PetLab.VMproject

open PetLab.Lib

/-- Go on with what a call returned. -/
def Outcome.bind {α β : Type} (o : Outcome α) (f : α → Outcome β) : Outcome β :=
  match o with
  | .ok a => f a
  | .oops => .oops
  | .timeout => .timeout

theorem Outcome.bind_eq_ok {α β : Type} {o : Outcome α} {f : α → Outcome β} {b : β} (h : o.bind f = .ok b) :
    ∃ a, o = .ok a ∧ f a = .ok b := by
  cases o with
  | ok a => exact ⟨a, rfl, h⟩
  | oops => cases h
  | timeout => cases h

/-- What the teardown does. -/
inductive NodeEvent where
  /-- The loop comes to a node. -/
  | visit (ptr : ℕ)
  /-- `list_del`. -/
  | listDel (ptr : ℕ)
  /-- `kfree`. -/
  | kfree (ptr : ℕ)
  /-- `petmem_free_vspace`. -/
  | release (vaddr : ℕ)
  deriving DecidableEq, Repr

/-- The node an event uses. -/
def NodeEvent.node : NodeEvent → Option ℕ
  | .visit ptr | .listDel ptr | .kfree ptr => some ptr
  | .release _ => none

/-- The node an event unlinks. -/
def NodeEvent.unlinked : NodeEvent → Option ℕ
  | .listDel ptr => some ptr
  | _ => none

/-- The allocation an event releases. -/
def NodeEvent.released : NodeEvent → Option ℕ
  | .release vaddr => some vaddr
  | _ => none

/-- The process, and what was done so far. -/
structure Teardown where
  /-- The process. -/
  st : Process
  /-- The events, the last one last. -/
  log : List NodeEvent

/-- Record an event. -/
def Teardown.note (td : Teardown) (e : NodeEvent) : Teardown := { td with log := td.log ++ [e] }

/-- The pointer `list.next` of the node at `ptr`, `none` when it is the head's. -/
def nextOf (ptr : ℕ) : List MemMap → Option ℕ
  | [] => none
  | n :: nodes => if n.ptr = ptr then nodes.head?.map MemMap.ptr else nextOf ptr nodes

/-- The nodes that the two `if`s of `petmem_free_vspace` unlink. -/
def Place.unlinks (p : Place) (map : MapHead) : List ℕ :=
  let freed : Place := { p with cursor := { p.cursor with allocated := 0 } }
  (if (p.prev map).allocated = 0 ∧ (p.prev map).head = 0 then [p.cursor.ptr] else []) ++
    if (p.next map).allocated = 0 ∧ (p.next map).ptr ≠ (p.prev map).ptr then [(freed.combinePrev map).cursor.ptr]
    else []

/-- The call of `petmem_free_vspace`. -/
def Teardown.freeVspace (fuel : ℕ) (td : Teardown) (vaddr : ℕ) : Outcome Teardown :=
  (petmemFreeVspace fuel td.st vaddr).bind fun st =>
    .ok { st := st, log := td.log ++ .release vaddr ::
      ((freeLoop vaddr td.st.map.nodes).elim [] (·.unlinks td.st.map)).map .listDel }

/-- `list_del(&cursor->list)`. -/
def Teardown.listDel (td : Teardown) (ptr : ℕ) : Outcome Teardown :=
  if ptr ∈ td.st.map.nodes.map MemMap.ptr then
    .ok { st := { td.st with map := { td.st.map with nodes := td.st.map.nodes.eraseP (·.ptr = ptr) } },
          log := td.log ++ [.listDel ptr] }
  else .oops

/-- The body of the loop. -/
def Teardown.body (fuel : ℕ) (td : Teardown) (cursor : ℕ) : Outcome Teardown :=
  match td.st.map.nodes.find? (·.ptr = cursor) with
  | none => .oops
  | some c =>
    let td := td.note (.visit cursor)
    (if c.allocated = 1 then td.freeVspace fuel c.start else .ok td).bind fun td =>
      (td.listDel cursor).bind fun td => .ok (td.note (.kfree cursor))

/-- The loop `list_for_each_entry_safe`, with a bound on the number of iterations. -/
def deinitLoop (fuel : ℕ) : ℕ → Option ℕ → Teardown → Outcome Teardown
  | _, none, td => .ok td
  | 0, some _, _ => .timeout
  | k + 1, some cursor, td => (td.body fuel cursor).bind (deinitLoop fuel k (nextOf cursor td.st.map.nodes))

/-- `petmem_deinit_process`. -/
def petmemDeinitProcess (fuel : ℕ) (st : Process) : Outcome Teardown :=
  deinitLoop fuel fuel (st.map.nodes.head?.map MemMap.ptr) ⟨st, []⟩

/-- The map was torn down once. -/
structure TornDown (map : MapHead) (td : Teardown) : Prop where
  /-- Every node was visited. -/
  visited : ∀ n ∈ map.nodes, .visit n.ptr ∈ td.log
  /-- Every node was unlinked, each once. -/
  unlinked : (td.log.filterMap NodeEvent.unlinked).Perm (map.nodes.map MemMap.ptr)
  /-- No node was used after it was freed. -/
  unused : td.log.Pairwise fun e e' => ∀ ptr, e = .kfree ptr → e'.node ≠ some ptr
  /-- Every live allocation was released. -/
  released : td.log.filterMap NodeEvent.released = (map.nodes.filter (·.allocated = 1)).map MemMap.start
  /-- The list is empty. -/
  empty : td.st.map.nodes = []

/-- `petmem_deinit_process` returns, and has torn the map down once. -/
def TearsDown (st : Process) : Prop := ∃ fuel td, petmemDeinitProcess fuel st = .ok td ∧ TornDown st.map td

/-! ### One iteration -/

/-- What the teardown needs to know of the nodes that are left. -/
structure Shut (map : MapHead) (nodes : List MemMap) : Prop where
  /-- They are the list. -/
  list : map.nodes = nodes
  /-- Each is free or allocated. -/
  flag : ∀ n ∈ nodes, n.allocated = 0 ∨ n.allocated = 1
  /-- The last node is free. -/
  last : ∀ n ∈ nodes.getLast?, n.allocated = 0
  /-- `map0` is marked as the head. -/
  head : map.map0.head = 1
  /-- The nodes are different objects. -/
  ptrs : (map.map0.ptr :: nodes.map MemMap.ptr).Nodup

section

variable {fuel : ℕ} {td td' : Teardown} {c : MemMap} {rest : List MemMap}

theorem Shut.tail {map : MapHead} (h : Shut map (c :: rest)) : Shut { map with nodes := rest } rest where
  list := rfl
  flag := fun n hn => h.flag n (List.mem_cons_of_mem c hn)
  last := by
    intro n hn
    refine h.last n ?_
    cases rest with
    | nil => cases hn
    | cons m rest => simpa [List.getLast?_cons_cons] using hn
  head := h.head
  ptrs := by
    have hp := h.ptrs
    simp only [List.map_cons, List.nodup_cons, List.mem_cons, not_or] at hp ⊢
    exact ⟨hp.1.2, hp.2.2⟩

theorem nextOf_cons (c : MemMap) (rest : List MemMap) : nextOf c.ptr (c :: rest) = rest.head?.map MemMap.ptr := by
  simp [nextOf]

/-- A free node is unlinked and given back. -/
theorem Teardown.body_free (h : Shut td.st.map (c :: rest)) (hc : c.allocated ≠ 1) :
    td.body fuel c.ptr = .ok
      { st := { td.st with map := { td.st.map with nodes := rest } },
        log := td.log ++ [.visit c.ptr, .listDel c.ptr, .kfree c.ptr] } := by
  simp [Teardown.body, Teardown.listDel, Teardown.note, Outcome.bind, h.list, hc]

/-- An allocated node is unlinked twice if a free node comes after it: the iteration gets
through only if the next node is allocated too. -/
theorem Teardown.body_allocated (h : Shut td.st.map (c :: rest)) (hc : c.allocated = 1)
    (hbody : td.body fuel c.ptr = .ok td') :
    ∃ n after, rest = n :: after ∧ n.allocated ≠ 0 ∧ td'.st.map = { td.st.map with nodes := rest } := by
  obtain ⟨n, after, rfl⟩ : ∃ n after, rest = n :: after := by
    cases rest with
    | nil => exact absurd (hc.symm.trans (h.last c rfl)) (by decide)
    | cons n after => exact ⟨n, after, rfl⟩
  have hptrs := h.ptrs
  simp only [List.map_cons, List.nodup_cons, List.mem_cons, not_or] at hptrs
  obtain ⟨⟨-, hn₀, -⟩, ⟨hcn, hca⟩, -⟩ := hptrs
  have hfind : td.st.map.nodes.find? (fun m => decide (m.ptr = c.ptr)) = some c := by simp [h.list]
  simp only [Teardown.body, hfind, hc, if_true] at hbody
  obtain ⟨td₁, hfree, hbody⟩ := Outcome.bind_eq_ok hbody
  obtain ⟨st, hst, htd₁⟩ := Outcome.bind_eq_ok hfree
  obtain rfl := Outcome.ok.inj htd₁
  -- the list part of `petmem_free_vspace`
  have hmap : st.map = { td.st.map with nodes :=
      if n.allocated = 0 then { n with start := c.start, size := n.size + c.size } :: after
      else { c with allocated := 0 } :: n :: after } := by
    have hloop : freeLoop c.start td.st.map.nodes = some ⟨[], c, n :: after⟩ := by
      rw [h.list, freeLoop, if_pos ⟨rfl, hc⟩]
    rw [FreeVspace.map_eq ⟨fuel, hst⟩]
    show petmemFreeNode td.st.map c.start = _
    simp only [petmemFreeNode, hloop, Place.free]
    rw [Place.combinePrev_nil h.head, Place.combineNext_cons rfl]
    · rfl
    · exact fun he => hn₀ he.symm
  obtain ⟨td₂, hdel, hbody⟩ := Outcome.bind_eq_ok hbody
  obtain rfl := Outcome.ok.inj hbody
  by_cases hn : n.allocated = 0
  · -- the node has gone already
    rw [Teardown.listDel, if_neg] at hdel
    · cases hdel
    · simp only [hmap, if_pos hn, List.map_cons, List.mem_cons, not_or]
      exact ⟨hcn, hca⟩
  · refine ⟨n, after, rfl, hn, ?_⟩
    simp only [Teardown.listDel, hmap, if_neg hn, List.map_cons, List.mem_cons, true_or, if_true] at hdel
    rw [← Outcome.ok.inj hdel]
    simp [Teardown.note]

/-! ### The loop -/

/-- **The teardown does not get through** while a node is allocated. -/
theorem Shut.not_ok {nodes : List MemMap} (h : Shut td.st.map nodes) (hlive : ∃ n ∈ nodes, n.allocated = 1) (k : ℕ) :
    deinitLoop fuel k (nodes.head?.map MemMap.ptr) td ≠ .ok td' := by
  induction nodes generalizing td k with
  | nil => simp at hlive
  | cons c rest ih =>
    intro hok
    cases k with
    | zero => cases hok
    | succ k =>
      rw [List.head?_cons, Option.map_some, deinitLoop, h.list, nextOf_cons] at hok
      obtain ⟨td₁, hbody, hok⟩ := Outcome.bind_eq_ok hok
      by_cases hc : c.allocated = 1
      · obtain ⟨n, after, rfl, hn, hmap⟩ := Teardown.body_allocated h hc hbody
        refine ih (hmap ▸ h.tail) ⟨n, List.mem_cons_self, ?_⟩ k hok
        exact (h.flag n (by simp)).resolve_left hn
      · rw [Teardown.body_free h hc] at hbody
        obtain rfl := Outcome.ok.inj hbody
        refine ih h.tail ?_ k hok
        obtain ⟨n, hn, ha⟩ := hlive
        rcases List.mem_cons.mp hn with rfl | hn
        · exact absurd ha hc
        · exact ⟨n, hn, ha⟩

/-- The events of a free node. -/
def MemMap.events (n : MemMap) : List NodeEvent := [.visit n.ptr, .listDel n.ptr, .kfree n.ptr]

/-- With nothing allocated the loop goes through, node by node. -/
theorem Shut.deinitLoop_eq {nodes : List MemMap} (h : Shut td.st.map nodes) (fuel : ℕ)
    (hfree : ∀ n ∈ nodes, n.allocated = 0) {k : ℕ} (hk : nodes.length ≤ k) :
    deinitLoop fuel k (nodes.head?.map MemMap.ptr) td = .ok
      { st := { td.st with map := { td.st.map with nodes := [] } },
        log := td.log ++ nodes.flatMap MemMap.events } := by
  induction nodes generalizing td k with
  | nil =>
    rw [List.head?_nil, Option.map_none, deinitLoop, List.flatMap_nil, List.append_nil, ← h.list]
  | cons c rest ih =>
    obtain ⟨k, rfl⟩ : ∃ j, k = j + 1 := ⟨k - 1, by rw [List.length_cons] at hk; omega⟩
    have hc : c.allocated ≠ 1 := by
      rw [hfree c List.mem_cons_self]
      decide
    rw [List.head?_cons, Option.map_some, deinitLoop, h.list, nextOf_cons, Teardown.body_free h hc]
    refine (ih h.tail (fun n hn => hfree n (List.mem_cons_of_mem c hn)) ?_).trans ?_
    · rw [List.length_cons] at hk
      omega
    · rw [List.flatMap_cons, List.append_assoc]
      rfl

/-- An event of a node uses that node. -/
theorem MemMap.node_of_mem_events {n : MemMap} {e : NodeEvent} (he : e ∈ n.events) : e.node = some n.ptr := by
  simp only [MemMap.events, List.mem_cons, List.not_mem_nil, or_false] at he
  rcases he with rfl | rfl | rfl <;> rfl

/-- Nothing happens to a node after its own events. -/
theorem events_unused {nodes : List MemMap} (hptrs : (nodes.map MemMap.ptr).Nodup) :
    (nodes.flatMap MemMap.events).Pairwise fun e e' => ∀ ptr, e = .kfree ptr → e'.node ≠ some ptr := by
  induction nodes with
  | nil => exact List.Pairwise.nil
  | cons c rest ih =>
    rw [List.map_cons, List.nodup_cons] at hptrs
    rw [List.flatMap_cons, List.pairwise_append]
    refine ⟨?_, ih hptrs.2, ?_⟩
    · simp [MemMap.events]
    · -- the later events are those of other nodes
      rintro e he e' he' ptr rfl hptr
      obtain ⟨n, hn, he'⟩ := List.mem_flatMap.mp he'
      have hc : some ptr = some c.ptr := MemMap.node_of_mem_events he
      rw [MemMap.node_of_mem_events he', hc, Option.some_inj] at hptr
      exact hptrs.1 (hptr ▸ List.mem_map_of_mem hn)

theorem Shut.tornDown {map : MapHead} (h : Shut map map.nodes) (hfree : ∀ n ∈ map.nodes, n.allocated = 0)
    (hlog : td.log = map.nodes.flatMap MemMap.events) (hnodes : td.st.map.nodes = []) : TornDown map td where
  visited := by
    intro n hn
    rw [hlog, List.mem_flatMap]
    exact ⟨n, hn, List.mem_cons_self⟩
  unlinked := by
    rw [hlog, List.filterMap_flatMap, ← List.flatMap_singleton' (map.nodes.map MemMap.ptr), List.flatMap_map]
    exact List.Perm.refl _
  unused := by
    rw [hlog]
    exact events_unused (List.nodup_cons.mp h.ptrs).2
  released := by
    have hnone : map.nodes.filter (fun n => n.allocated = 1) = [] := by
      rw [List.filter_eq_nil_iff]
      intro n hn
      simp [hfree n hn]
    rw [hlog, List.filterMap_flatMap, hnone]
    exact List.flatMap_eq_nil_iff.mpr fun n _ => rfl
  empty := hnodes

end

theorem MapInv.shut {map : MapHead} (hI : MapInv map) : Shut map map.nodes where
  list := rfl
  flag n hn := (hI.ok n hn).flag
  last := by
    obtain ⟨last, hl, hfree⟩ := hI.lastFree
    intro n hn
    rw [Option.mem_def.mp hl, Option.mem_some_iff] at hn
    exact hn ▸ hfree
  head := hI.head
  ptrs := hI.ptrs

/-- A live allocation is in the way of the teardown. -/
theorem MapInv.not_tearsDown {map : MapHead} (hI : MapInv map) (m : Machine) {n : MemMap} (hn : n ∈ map.nodes)
    (ha : n.allocated = 1) : ¬ TearsDown ⟨map, m⟩ := by
  rintro ⟨fuel, td, hok, -⟩
  have hshut : Shut (Teardown.mk ⟨map, m⟩ []).st.map map.nodes := hI.shut
  exact hshut.not_ok ⟨n, hn, ha⟩ fuel hok

/-- **Closing the device tears the map down** exactly when nothing is allocated any more:
for every sequence of calls before, and whatever the page tables hold. -/
theorem deinit_tears_down_iff (junk : MemMap) (ops : List MapOp) (m : Machine) :
    TearsDown ⟨mapRun junk ops, m⟩ ↔ ∀ n ∈ (mapRun junk ops).nodes, n.allocated = 0 := by
  have hI := mapInv_mapRun junk ops
  constructor
  · intro h n hn
    exact (hI.ok n hn).flag.resolve_right fun ha => hI.not_tearsDown m hn ha h
  · intro hfree
    have hshut : Shut (Teardown.mk ⟨mapRun junk ops, m⟩ []).st.map (mapRun junk ops).nodes := hI.shut
    have hloop := hshut.deinitLoop_eq (mapRun junk ops).nodes.length hfree le_rfl
    exact ⟨_, _, hloop, hI.shut.tornDown hfree rfl rfl⟩

/-- One page is allocated when the device is closed, and none was touched: the second
`list_del` of its node is an oops. -/
theorem deinit_one_page :
    petmemDeinitProcess 2 ⟨mapRun ⟨0, 0, 0, 0, 0⟩ [.alloc 1], ⟨fun _ => Entry.zero, 0, [], []⟩⟩ = .oops ∧
      ¬ TearsDown ⟨mapRun ⟨0, 0, 0, 0, 0⟩ [.alloc 1], ⟨fun _ => Entry.zero, 0, [], []⟩⟩ := by
  have hnodes : (mapRun ⟨0, 0, 0, 0, 0⟩ [.alloc 1]).nodes =
      [⟨1, 0x1000000000, 4096, 1, 0⟩, ⟨2, 0x1000001000, 0x1ffffff000, 0, 0⟩] := by decide
  refine ⟨by rfl, (mapInv_mapRun _ _).not_tearsDown _ (n := ⟨1, 0x1000000000, 4096, 1, 0⟩) ?_ rfl⟩
  rw [hnodes]
  exact List.mem_cons_self

end PetLab.VMproject
