import PetLab.Lib.LinkRing
import Mathlib.Algebra.Order.Ring.Nat

/-!
# The buddy allocator

`buddy.c`: a pool of `2 ^ pool_order` bytes, from which blocks of a power of two bytes are
taken. A free block has a header at its start, `struct block`, with its link in the list of
the free blocks of its size and with the size; a bit of `tag_bits` says whether the block that starts
at a place is free. Neither is cleaned up: merging two blocks leaves the bit and the header in the
middle of the new one, and users write over the headers in the blocks they have.

## The model

Addresses are `unsigned long`, natural numbers below `2 ^ 64` with the arithmetic written out. The
memory of the pool is what the allocator can see of it: for each address the header there, that is
the links (`Links`, the list heads `avail` among them) and the `order` field. Headers are read and written
at multiples of the smallest block only, which is larger than a header, so headers at different places do
not overlap.

`BUG_ON` stops the machine (`none`); so does following a link that leads to no block. A pool is
given as a value, so that `BUG_ON(mp == NULL)` has no counterpart. `kmalloc` succeeds. Shifts
stay below `64`, since the order of a pool does.
-/

namespace PetLab.VMproject

open PetLab.Lib

/-- What a `struct list_head *` points to. -/
inductive ListHead where
  /-- `&mp->avail[i]`. -/
  | avail (i : ℕ)
  /-- `&block->link`, for the block at an address. -/
  | link (block : ℕ)
  /-- `LIST_POISON1`. -/
  | poison1
  /-- `LIST_POISON2`. -/
  | poison2
  deriving DecidableEq, Repr

/-- `struct buddy_mempool`, with the headers of the memory it manages. -/
structure BuddyMempool where
  /-- Base address of the memory pool. -/
  baseAddr : ℕ
  /-- Size of memory pool = `2 ^ pool_order`. -/
  poolOrder : ℕ
  /-- Minimum allocatable block size. -/
  minOrder : ℕ
  /-- Number of bits in `tag_bits`. -/
  numBlocks : ℕ
  /-- One bit for each block of minimum size. -/
  tagBits : ℕ → Bool
  /-- The free lists, and the `link` of every header. -/
  links : Links ListHead
  /-- The `order` of every header. -/
  order : ℕ → ℕ

/-- `sizeof(struct block)`. -/
def sizeofBlock : ℕ := 24

/-- `a + b`. -/
def ulAdd (a b : ℕ) : ℕ := (a + b) % 2 ^ 64

/-- `a - b`. -/
def ulSub (a b : ℕ) : ℕ := (a + (2 ^ 64 - b)) % 2 ^ 64

/-- `1UL << n`. -/
def ulShl (n : ℕ) : ℕ := 2 ^ n % 2 ^ 64

namespace BuddyMempool

/-! ### Headers, lists and tag bits -/

/-- `block->order = order`. -/
def setOrder (mp : BuddyMempool) (block order : ℕ) : BuddyMempool :=
  { mp with order := Function.update mp.order block order }

/-- `list_add(&block->link, &mp->avail[i])`. -/
def listAdd (mp : BuddyMempool) (block i : ℕ) : BuddyMempool :=
  { mp with links := mp.links.add (.link block) (.avail i) }

/-- `list_del(&block->link)`. -/
def listDel (mp : BuddyMempool) (block : ℕ) : BuddyMempool :=
  { mp with links := mp.links.del .poison1 .poison2 (.link block) }

/-- `block_to_id`. -/
def blockToId (mp : BuddyMempool) (block : ℕ) : Option ℕ :=
  let blockId := ulSub block mp.baseAddr >>> mp.minOrder
  if blockId ≥ mp.numBlocks then none else some blockId

/-- `mark_available`. -/
def markAvailable (mp : BuddyMempool) (block : ℕ) : Option BuddyMempool :=
  (mp.blockToId block).map fun id => { mp with tagBits := Function.update mp.tagBits id true }

/-- `mark_allocated`. -/
def markAllocated (mp : BuddyMempool) (block : ℕ) : Option BuddyMempool :=
  (mp.blockToId block).map fun id => { mp with tagBits := Function.update mp.tagBits id false }

/-- `is_available`. -/
def isAvailable (mp : BuddyMempool) (block : ℕ) : Option Bool := (mp.blockToId block).map mp.tagBits

/-- `find_buddy`. -/
def findBuddy (mp : BuddyMempool) (block order : ℕ) : Option ℕ :=
  if block < mp.baseAddr then none
  else some (ulAdd (ulSub block mp.baseAddr ^^^ ulShl order) mp.baseAddr)

/-! ### Allocating -/

/-- The loop "Trim if a higher order block than necessary was allocated": `n` is `j - order`. -/
def trim (mp : BuddyMempool) (block order : ℕ) : ℕ → Option BuddyMempool
  | 0 => some mp
  | n + 1 =>
    let j := order + n
    let buddyBlock := ulAdd block (ulShl j)
    ((mp.setOrder buddyBlock j).markAvailable buddyBlock).bind fun mp =>
      trim (mp.listAdd buddyBlock j) block order n

/-- The loop of `buddy_alloc` over the orders `j` that are left. -/
def allocFrom (mp : BuddyMempool) (order : ℕ) : List ℕ → Option (ℕ × BuddyMempool)
  | [] => some (0, mp)
  | j :: js =>
    if mp.links.next (.avail j) = .avail j then allocFrom mp order js
    else
      match mp.links.next (.avail j) with
      | .link block =>
        ((mp.listDel block).markAllocated block).bind fun mp =>
          (mp.trim block order (j - order)).map fun mp => (block, mp)
      | _ => none

/-- "Fixup requested order to be at least the minimum supported". -/
def fixup (mp : BuddyMempool) (order : ℕ) : ℕ := if order < mp.minOrder then mp.minOrder else order

/-- `buddy_alloc`: the address of the block, `0` for `NULL`, and the pool. -/
def buddyAlloc (mp : BuddyMempool) (order : ℕ) : Option (ℕ × BuddyMempool) :=
  if order > mp.poolOrder then none
  else
    mp.allocFrom (mp.fixup order) (List.range' (mp.fixup order) (mp.poolOrder + 1 - mp.fixup order))

/-! ### Freeing -/

/-- The loop "Coalesce as much as possible with adjacent free buddy blocks", `n` times at most: the pool, the
block and its order. -/
def coalesce : ℕ → BuddyMempool → ℕ → ℕ → Option (BuddyMempool × ℕ × ℕ)
  | 0, mp, block, order => some (mp, block, order)
  | n + 1, mp, block, order =>
    (mp.findBuddy block order).bind fun buddy =>
      (mp.isAvailable buddy).bind fun available =>
        if !available then some (mp, block, order)
        else if available && mp.order buddy ≠ order then some (mp, block, order)
        else
          let merged := if buddy < block then buddy else block
          coalesce n ((mp.listDel buddy).setOrder merged (order + 1)) merged (order + 1)

/-- `buddy_free`. -/
def buddyFree (mp : BuddyMempool) (addr order : ℕ) : Option BuddyMempool :=
  if order > mp.poolOrder then none
  else
    (mp.isAvailable addr).bind fun available =>
      if available then none
      else
        (coalesce (mp.poolOrder - mp.fixup order) mp addr (mp.fixup order)).bind fun r =>
          ((r.1.setOrder r.2.1 r.2.2).markAvailable r.2.1).map fun mp => mp.listAdd r.2.1 r.2.2

end BuddyMempool

/-- `buddy_init`, over memory that holds anything: `none` is `NULL`. The smallest order is raised to `5`,
`ilog2(roundup_pow_of_two(sizeof(struct block)))`, if a block cannot hold a header. -/
def buddyInit (links : Links ListHead) (order : ℕ → ℕ) (baseAddr poolOrder minOrder : ℕ) : Option BuddyMempool :=
  let minOrder := if ulShl minOrder < sizeofBlock then 5 else minOrder
  if minOrder > poolOrder then none
  else
    some {
      baseAddr := baseAddr
      poolOrder := poolOrder
      minOrder := minOrder
      numBlocks := ulShl poolOrder / ulShl minOrder
      tagBits := fun _ => false
      links := (List.range (poolOrder + 1)).foldl (fun m i => m.initHead (.avail i)) links
      order := order }

end PetLab.VMproject
