import Mathlib.Data.Int.Notation
import Mathlib.Data.Nat.Notation
import Mathlib.Data.List.Basic

/-!
# The map of the petmem region

A process that opens the device gets a circular list of `struct mem_map` nodes
that says which parts of the region are allocated (`on_demand.c`). The list has a
head node, `map0`, whose `head` field is set and whose other fields are never
written; the nodes after it are the map. This module is the list part of
`petmem_init_process`, `petmem_find_address`, `petmem_alloc_vspace` and
`petmem_free_vspace`; what the last one does to the page tables is in
`PetLab.VMproject.FreeWalk`.

## The model

A node is named by the address `kmalloc` gave it (`ptr`); two pointers are equal
exactly when these are. `MapHead` is the head node with the nodes behind it in list
order: `list.prev` of the first node and `list.next` of the last one are the head,
so the head's uninitialised fields can be read, and are part of the state. The
addresses and sizes are `unsigned long`; every sum the code forms from nodes of the
region is far below `2 ^ 64`, so they are natural numbers here.
-/

namespace PetLab.VMproject

/-- `PETMEM_REGION_START`. -/
def petmemRegionStart : ℕ := 0x1000000000

/-- `PETMEM_REGION_END`. -/
def petmemRegionEnd : ℕ := 0x3000000000

/-- `PAGE_SIZE_4KB`. -/
def pageSize4KB : ℕ := 4096

/-- `struct mem_map`. -/
structure MemMap where
  /-- The address of the node. -/
  ptr : ℕ
  /-- The first address of the segment. -/
  start : ℕ
  /-- How many bytes it has. -/
  size : ℕ
  /-- `1` for an allocated segment, `0` for a free one. -/
  allocated : ℤ
  /-- `1` for the list head, `0` for the other nodes. -/
  head : ℤ
  deriving DecidableEq, Repr

/-- The list `map0` heads. -/
structure MapHead where
  /-- The head node, `map0` itself. -/
  map0 : MemMap
  /-- The nodes after it, in list order. -/
  nodes : List MemMap
  /-- The address `kmalloc` returns next. -/
  kmalloc : ℕ
  deriving DecidableEq, Repr

/-- `petmem_init_process`: one free node for the whole region. `kmalloc` does not
clear `map0`; what it finds there is `junk`. -/
def petmemInitProcess (junk : MemMap) : MapHead where
  map0 := { junk with ptr := 0, head := 1 }
  nodes := [{ ptr := 1, start := petmemRegionStart, size := petmemRegionEnd - petmemRegionStart,
              allocated := 0, head := 0 }]
  kmalloc := 2

/-- The test of `petmem_find_address`. -/
def MemMap.holds (vaddr : ℕ) (cursor : MemMap) : Bool :=
  cursor.allocated = 1 ∧ cursor.start ≤ vaddr ∧ vaddr < cursor.start + cursor.size

/-- `petmem_find_address`: the first allocated node that has the address. -/
def petmemFindAddress (map : MapHead) (vaddr : ℕ) : Option MemMap := map.nodes.find? (MemMap.holds vaddr)

/-! ### Allocating -/

/-- The test of `petmem_alloc_vspace`: a free node with room for `numPages` pages. -/
def MemMap.fits (numPages : ℕ) (cursor : MemMap) : Prop :=
  cursor.allocated = 0 ∧ numPages ≤ cursor.size / pageSize4KB

instance (numPages : ℕ) (cursor : MemMap) : Decidable (cursor.fits numPages) :=
  inferInstanceAs (Decidable (_ ∧ _))

/-- What becomes of the node that is chosen: its first pages, allocated. -/
def MemMap.take (cursor : MemMap) (numPages : ℕ) : MemMap :=
  { cursor with size := pageSize4KB * numPages, allocated := 1 }

/-- The node `new_map` made for the rest of it, at address `ptr`. -/
def MemMap.rest (cursor : MemMap) (numPages ptr : ℕ) : MemMap where
  ptr := ptr
  start := cursor.start + pageSize4KB * numPages
  size := cursor.size - pageSize4KB * numPages
  allocated := 0
  head := 0

/-- The loop of `petmem_alloc_vspace` over the nodes: the address it returns and the
nodes afterwards, `none` when no node is chosen. -/
def allocLoop (numPages ptr : ℕ) : List MemMap → Option (ℕ × List MemMap)
  | [] => none
  | cursor :: nodes =>
    if cursor.fits numPages then
      some (cursor.start, cursor.take numPages :: cursor.rest numPages ptr :: nodes)
    else
      (allocLoop numPages ptr nodes).map fun r => (r.1, cursor :: r.2)

/-- `petmem_alloc_vspace`: the address it returns (`0` is `NULL`) and the map. -/
def petmemAllocVspace (map : MapHead) (numPages : ℕ) : ℕ × MapHead :=
  match allocLoop numPages map.kmalloc map.nodes with
  | none => (0, map)
  | some (addr, nodes) => (addr, { map with nodes := nodes, kmalloc := map.kmalloc + 1 })

/-! ### Freeing -/

/-- A node in its place: the nodes before it and the nodes after it. -/
structure Place where
  /-- The nodes before, in list order. -/
  before : List MemMap
  /-- The node. -/
  cursor : MemMap
  /-- The nodes after. -/
  after : List MemMap
  deriving DecidableEq

/-- The search loop of `petmem_free_vspace`. -/
def freeLoop (vaddr : ℕ) : List MemMap → Option Place
  | [] => none
  | cursor :: nodes =>
    if cursor.start = vaddr ∧ cursor.allocated = 1 then some ⟨[], cursor, nodes⟩
    else (freeLoop vaddr nodes).map fun p => { p with before := cursor :: p.before }

/-- `cursor_prev`: the node before, or the head. -/
def Place.prev (p : Place) (map : MapHead) : MemMap := p.before.getLastD map.map0

/-- `cursor_next`: the node after, or the head. -/
def Place.next (p : Place) (map : MapHead) : MemMap := p.after.headD map.map0

/-- The first `if` of the merge, "Combine with cursor_prev": the node gone and its
bytes added to the one before, which takes its place. -/
def Place.combinePrev (p : Place) (map : MapHead) : Place :=
  if (p.prev map).allocated = 0 ∧ (p.prev map).head = 0 then
    { p with before := p.before.dropLast,
             cursor := { p.prev map with size := (p.prev map).size + p.cursor.size } }
  else p

/-- The second `if`, "combine with cursor_next", of a place `q` that the first one
left, where `p` is the place the search found: the node after takes over the bytes
and the start, and the node is gone. When there is no node after, `cursor_next` is
the head. -/
def Place.combineNext (q p : Place) (map : MapHead) : MapHead :=
  if (p.next map).allocated = 0 ∧ (p.next map).ptr ≠ (p.prev map).ptr then
    match q.after with
    | [] =>
      { map with
        map0 := { map.map0 with start := q.cursor.start, size := map.map0.size + q.cursor.size },
        nodes := q.before }
    | next :: after =>
      { map with
        nodes := q.before ++ { next with start := q.cursor.start, size := next.size + q.cursor.size } :: after }
  else { map with nodes := q.before ++ q.cursor :: q.after }

/-- The list part of `petmem_free_vspace` once the node is found. -/
def Place.free (p : Place) (map : MapHead) : MapHead :=
  let freed : Place := { p with cursor := { p.cursor with allocated := 0 } }
  (freed.combinePrev map).combineNext freed map

/-- The list part of `petmem_free_vspace`: an address at which no allocated node
starts changes nothing. -/
def petmemFreeNode (map : MapHead) (vaddr : ℕ) : MapHead :=
  match freeLoop vaddr map.nodes with
  | none => map
  | some p => p.free map

end PetLab.VMproject
