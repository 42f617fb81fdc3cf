import Mathlib.Algebra.Ring.Nat
import Mathlib.Data.List.Basic
import Mathlib.Data.Int.Notation
import Mathlib.Data.Nat.Notation
import Mathlib.Logic.Function.Basic

/-!
# The hash table of `pet_hashtable.c`

A table of chains: `table[i]` points to the first of the entries whose hash falls on `i`, each
entry points to the next one, and the last one points nowhere. A pointer to an entry is a
number, `0` for `NULL`; the memory says which entries are allocated and what they hold.

A function of the source that reads through a pointer to nothing, or reads or writes a table
out of its bounds, has no result here (`none`). Neither has a walk along a chain that does not
end: a walk has a number of steps it may take, and any number above the number of entries
is enough.

What the allocator answers is an argument of the functions that call it: the address of a new
entry or `NULL`, and for the tables whether there is one.

* `hashtable_expand` first allocates a new table and moves the entries to it. When that fails
  it reallocates the table it has and then clears "the rest" by
  `memset(new_table[htable->table_length], 0, ..)`: the first argument is the word *stored*
  behind the old table, which nothing has written yet, used as a pointer. The source's program
  has no meaning from there on, and `hashtableExpand` has no result.
-/

namespace PetLab.Threads.Htable

/-- A pointer to an entry. -/
abbrev NULL : ℕ := 0

/-- `struct hash_entry`. -/
structure HashEntry where
  key : BitVec 64
  value : BitVec 64
  hash : BitVec 32
  next : ℕ
deriving DecidableEq, Repr

/-- The functions a table is created with: what `hash_fn` returns, and whether `eq_fn` returns nonzero. -/
structure KeyFns where
  hashFn : BitVec 64 → BitVec 32
  eqFn : BitVec 64 → BitVec 64 → Bool

/-- `struct hashtable`, with the table it points to. -/
structure Hashtable where
  table : List ℕ
  tableLength : ℕ
  entryCount : ℕ
  loadLimit : ℕ
  primeIndex : ℕ
  fns : KeyFns

/-- The heap, as far as the table uses it. -/
structure Mem where
  /-- The allocated entries. -/
  entry : ℕ → Option HashEntry
  /-- The keys and values that were given to `free`, in this order. -/
  freed : List (BitVec 64)

/-- A table and the heap. -/
structure State where
  htable : Hashtable
  mem : Mem

/-! ### Writes -/

/-- `p->next = q`. -/
def Mem.setNext (m : Mem) (p q : ℕ) : Option Mem :=
  (m.entry p).map fun e => { m with entry := Function.update m.entry p (some { e with next := q }) }

/-- `p->value = v`. -/
def Mem.setValue (m : Mem) (p : ℕ) (v : BitVec 64) : Option Mem :=
  (m.entry p).map fun e => { m with entry := Function.update m.entry p (some { e with value := v }) }

/-- `free(p)` of an entry. -/
def Mem.freeEntry (m : Mem) (p : ℕ) : Option Mem :=
  (m.entry p).map fun _ => { m with entry := Function.update m.entry p none }

/-- `if (flag) free((void *)w)` of a key or a value. -/
def Mem.freeWord (m : Mem) (flag : Bool) (w : BitVec 64) : Mem :=
  if flag then { m with freed := m.freed ++ [w] } else m

/-- `table[i] = p`. -/
def setSlot (table : List ℕ) (i p : ℕ) : Option (List ℕ) :=
  if i < table.length then some (table.set i p) else none

/-! ### Hashing -/

/-- `do_hash`: what `hash_fn` returns, mixed. -/
def doHash (fns : KeyFns) (key : BitVec 64) : BitVec 32 :=
  let i := fns.hashFn key
  let i := i + ~~~(i <<< 9)
  let i := i ^^^ ((i >>> 14) ||| (i <<< 18))
  let i := i + (i <<< 4)
  i ^^^ ((i >>> 10) ||| (i <<< 22))

/-- `pet_hash_ptr`. -/
def petHashPtr (val : BitVec 64) : BitVec 32 :=
  let hash := val
  let n := hash
  let n := n <<< 18
  let hash := hash - n
  let n := n <<< 33
  let hash := hash - n
  let n := n <<< 3
  let hash := hash + n
  let n := n <<< 3
  let hash := hash - n
  let n := n <<< 4
  let hash := hash + n
  let n := n <<< 2
  let hash := hash + n
  (hash >>> 32).setWidth 32

/-- A table whose keys are pointers, hashed by `pet_hash_ptr` and compared as they are. -/
def ptrFns : KeyFns := ⟨petHashPtr, fun a b => a == b⟩

/-- `indexFor`. -/
def indexFor (tableLength : ℕ) (hashValue : BitVec 32) : ℕ := hashValue.toNat % tableLength

/-- The sizes of the table. -/
def primes : List ℕ :=
  [53, 97, 193, 389,
    769, 1543, 3079, 6151,
    12289, 24593, 49157, 98317,
    196613, 393241, 786433, 1572869,
    3145739, 6291469, 12582917, 25165843,
    50331653, 100663319, 201326611, 402653189,
    805306457, 1610612741]

/-- The number of entries a table of each size may have, "the max load factor is .65". -/
def loadFactors : List ℕ :=
  [35, 64, 126, 253,
    500, 1003, 2002, 3999,
    7988, 15986, 31953, 63907,
    127799, 255607, 511182, 1022365,
    2044731, 4089455, 8178897, 16357798,
    32715575, 65431158, 130862298, 261724573,
    523449198, 1046898282]

def primeTableLen : ℕ := primes.length

/-! ### A new table -/

/-- The first size above the requested one, from the index `primeIndex` on: `size` if there is none. -/
def createLoop (minSize size : ℕ) : List ℕ → ℕ → ℕ × ℕ
  | [], primeIndex => (size, primeIndex)
  | prime :: rest, primeIndex =>
    if prime > minSize then (prime, primeIndex) else createLoop minSize size rest (primeIndex + 1)

/-- `pet_create_htable`. `calloc` says whether the structure, and then the table, are allocated. The
result is `NULL` (inner `none`) or the new table. -/
def petCreateHtable (minSize : ℕ) (fns : KeyFns) (calloc : Bool × Bool) : Option (Option Hashtable) :=
  if minSize > 2 ^ 30 then some none
  else
    let (size, primeIndex) := createLoop minSize (primes.headD 0) primes 0
    if !calloc.1 then some none
    else if !calloc.2 then some none
    else (loadFactors[primeIndex]?).map fun loadLimit =>
      some { table := List.replicate size NULL, tableLength := size, primeIndex, entryCount := 0, fns, loadLimit }

/-! ### Growing -/

/-- The old table, the new one and the heap while entries move between the tables. -/
structure Moving where
  table : List ℕ
  newTable : List ℕ
  mem : Mem

/-- The `while` loop of `hashtable_expand`: every entry of chain `i` goes to the head of its chain in the
new table. -/
def moveLoop (newSize i : ℕ) : ℕ → Moving → Option Moving
  | 0, _ => none
  | fuel + 1, w => do
    let tmpEntry ← w.table[i]?
    if tmpEntry = NULL then some w
    else
      let e ← w.mem.entry tmpEntry
      let table ← setSlot w.table i e.next
      let index := indexFor newSize e.hash
      let head ← w.newTable[index]?
      let mem ← w.mem.setNext tmpEntry head
      let newTable ← setSlot w.newTable index tmpEntry
      moveLoop newSize i fuel ⟨table, newTable, mem⟩

/-- The `for` loop of `hashtable_expand`, from chain `i` on: `n` chains are left. -/
def moveChains (newSize fuel : ℕ) : ℕ → ℕ → Moving → Option Moving
  | 0, _, w => some w
  | n + 1, i, w => (moveLoop newSize i fuel w).bind (moveChains newSize fuel n (i + 1))

/-- `hashtable_expand`. `calloc` says whether a new table is allocated, `realloc` whether the old one is
reallocated when it is not. -/
def hashtableExpand (fuel : ℕ) (calloc realloc : Bool) (s : State) : Option (ℤ × State) :=
  if s.htable.primeIndex = primeTableLen - 1 then some (0, s)
  else do
    let newSize ← primes[s.htable.primeIndex + 1]?
    let loadLimit ← loadFactors[s.htable.primeIndex + 1]?
    if calloc then
      let w ← moveChains newSize fuel s.htable.tableLength 0 ⟨s.htable.table, List.replicate newSize NULL, s.mem⟩
      let htable := { s.htable with table := w.newTable, primeIndex := s.htable.primeIndex + 1
                                    tableLength := newSize, loadLimit }
      some (-1, ⟨htable, w.mem⟩)
    else if realloc then
      -- the word behind the old table is used as a pointer
      none
    else
      some (0, s)

/-! ### The operations -/

/-- `pet_htable_count`. -/
def petHtableCount (s : State) : ℕ := s.htable.entryCount

/-- What the allocator answers to one insertion: for the new table, for its reallocation, and the new entry. -/
structure Answer where
  newTable : Bool
  realloc : Bool
  newEntry : ℕ
deriving DecidableEq, Repr

/-- A number in a `uint32_t`. -/
@[irreducible] def u32 (n : ℕ) : ℕ := n % 2 ^ 32

/-- `++entry_count`. -/
def countUp (n : ℕ) : ℕ := u32 (n + 1)

/-- `--entry_count`. -/
def countDown (n : ℕ) : ℕ := if n = 0 then 2 ^ 32 - 1 else n - 1

/-- `pet_htable_insert`. -/
def petHtableInsert (fuel : ℕ) (key value : BitVec 64) (ans : Answer) (s : State) : Option (ℤ × State) := do
  let s := { s with htable := { s.htable with entryCount := countUp s.htable.entryCount } }
  let s ← (if s.htable.entryCount > s.htable.loadLimit then
      (hashtableExpand fuel ans.newTable ans.realloc s).map Prod.snd
    else some s)
  if ans.newEntry = NULL then
    some (0, { s with htable := { s.htable with entryCount := countDown s.htable.entryCount } })
  else
    let hash := doHash s.htable.fns key
    let index := indexFor s.htable.tableLength hash
    let head ← s.htable.table[index]?
    let mem := { s.mem with entry := Function.update s.mem.entry ans.newEntry (some ⟨key, value, hash, head⟩) }
    let table ← setSlot s.htable.table index ans.newEntry
    some (-1, { s with htable := { s.htable with table }, mem })

/-- The walk of `pet_htable_search`, `_change`, `_inc` and `_dec`: the first entry of the chain with the
key, `NULL` if there is none. -/
def findLoop (s : State) (hashValue : BitVec 32) (key : BitVec 64) : ℕ → ℕ → Option ℕ
  | 0, _ => none
  | fuel + 1, cursor =>
    if cursor = NULL then some NULL
    else do
      let e ← s.mem.entry cursor
      if hashValue = e.hash ∧ s.htable.fns.eqFn key e.key then some cursor
      else findLoop s hashValue key fuel e.next

/-- The walk, from the head of the chain of the key. -/
def findEntry (fuel : ℕ) (key : BitVec 64) (s : State) : Option ℕ := do
  let hashValue := doHash s.htable.fns key
  let head ← s.htable.table[indexFor s.htable.tableLength hashValue]?
  findLoop s hashValue key fuel head

/-- `pet_htable_search`. -/
def petHtableSearch (fuel : ℕ) (key : BitVec 64) (s : State) : Option (BitVec 64) := do
  let p ← findEntry fuel key s
  if p = NULL then some 0 else (s.mem.entry p).map HashEntry.value

/-- The first entry of the key gets the value `f` makes of the one it has. -/
def onEntry (f : BitVec 64 → BitVec 64) (freeValue : Bool) (fuel : ℕ) (key : BitVec 64) (s : State) :
    Option (ℤ × State) := do
  let p ← findEntry fuel key s
  if p = NULL then some (0, s)
  else
    let e ← s.mem.entry p
    let mem ← (s.mem.freeWord freeValue e.value).setValue p (f e.value)
    some (-1, { s with mem })

/-- `pet_htable_change`. -/
def petHtableChange (fuel : ℕ) (key value : BitVec 64) (freeValue : Bool) : State → Option (ℤ × State) :=
  onEntry (fun _ => value) freeValue fuel key

/-- `pet_htable_inc`. -/
def petHtableInc (fuel : ℕ) (key value : BitVec 64) : State → Option (ℤ × State) :=
  onEntry (fun v => v + value) false fuel key

/-- `pet_htable_dec`. -/
def petHtableDec (fuel : ℕ) (key value : BitVec 64) : State → Option (ℤ × State) :=
  onEntry (fun v => v - value) false fuel key

/-- A `struct hash_entry **`: the place of a pointer to an entry. -/
inductive EntryPtr where
  /-- `&table[index]`. -/
  | slot (index : ℕ)
  /-- `&entry->next`. -/
  | link (entry : ℕ)
deriving DecidableEq, Repr

/-- `*entry_ptr = p`. -/
def EntryPtr.store (ptr : EntryPtr) (p : ℕ) (s : State) : Option State :=
  match ptr with
  | .slot index => (setSlot s.htable.table index p).map fun table => { s with htable := { s.htable with table } }
  | .link entry => (s.mem.setNext entry p).map fun mem => { s with mem }

/-- The loop of `pet_htable_remove`. -/
def removeLoop (hashValue : BitVec 32) (key : BitVec 64) (freeKey : Bool) (s : State) :
    ℕ → EntryPtr → ℕ → Option (BitVec 64 × State)
  | 0, _, _ => none
  | fuel + 1, entryPtr, cursor =>
    if cursor = NULL then some (0, s)
    else do
      let e ← s.mem.entry cursor
      if hashValue = e.hash ∧ s.htable.fns.eqFn key e.key then
        let s ← entryPtr.store e.next s
        let s := { s with htable := { s.htable with entryCount := countDown s.htable.entryCount } }
        let mem ← (s.mem.freeWord freeKey e.key).freeEntry cursor
        some (e.value, { s with mem })
      else removeLoop hashValue key freeKey s fuel (.link cursor) e.next

/-- `pet_htable_remove`. -/
def petHtableRemove (fuel : ℕ) (key : BitVec 64) (freeKey : Bool) (s : State) : Option (BitVec 64 × State) := do
  let hashValue := doHash s.htable.fns key
  let index := indexFor s.htable.tableLength hashValue
  let cursor ← s.htable.table[index]?
  removeLoop hashValue key freeKey s fuel (.slot index) cursor

/-! ### The end of a table -/

/-- The `while` loop of `pet_free_htable`. -/
def freeLoop (freeValues freeKeys : Bool) : ℕ → ℕ → Mem → Option Mem
  | 0, _, _ => none
  | fuel + 1, cursor, m =>
    if cursor = NULL then some m
    else do
      let tmp ← m.entry cursor
      let m ← ((m.freeWord freeKeys tmp.key).freeWord freeValues tmp.value).freeEntry cursor
      freeLoop freeValues freeKeys fuel tmp.next m

/-- The `for` loop of `pet_free_htable`, from chain `i` on: `n` chains are left. -/
def freeChains (table : List ℕ) (freeValues freeKeys : Bool) (fuel : ℕ) : ℕ → ℕ → Mem → Option Mem
  | 0, _, m => some m
  | n + 1, i, m => do
    let cursor ← table[i]?
    let m ← freeLoop freeValues freeKeys fuel cursor m
    freeChains table freeValues freeKeys fuel n (i + 1) m

/-- `pet_free_htable`: the heap it leaves. -/
def petFreeHtable (fuel : ℕ) (freeValues freeKeys : Bool) (s : State) : Option Mem :=
  freeChains s.htable.table freeValues freeKeys fuel s.htable.tableLength 0 s.mem

/-! ### Iterators -/

/-- `struct hashtable_iter`, on the table of the state. -/
structure HashtableIter where
  entry : ℕ
  parent : ℕ
  index : ℕ
deriving DecidableEq, Repr

/-- The `for` loop of `pet_htable_create_iter`, from chain `i` on: `n` chains are left. -/
def firstLoop (table : List ℕ) (it : HashtableIter) : ℕ → ℕ → Option HashtableIter
  | 0, _ => some it
  | n + 1, i => do
    let head ← table[i]?
    if head ≠ NULL then some { it with entry := head, index := i } else firstLoop table it n (i + 1)

/-- `pet_htable_create_iter`. `calloc` says whether the iterator is allocated: `NULL` (inner `none`) if not. -/
def petHtableCreateIter (calloc : Bool) (s : State) : Option (Option HashtableIter) :=
  if !calloc then some none
  else
    let it : HashtableIter := { entry := NULL, parent := NULL, index := s.htable.tableLength }
    if s.htable.entryCount = 0 then some (some it)
    else (firstLoop s.htable.table it s.htable.tableLength 0).map some

/-- `pet_htable_get_iter_key`. -/
def petHtableGetIterKey (it : HashtableIter) (s : State) : Option (BitVec 64) :=
  (s.mem.entry it.entry).map HashEntry.key

/-- `pet_htable_get_iter_value`. -/
def petHtableGetIterValue (it : HashtableIter) (s : State) : Option (BitVec 64) :=
  (s.mem.entry it.entry).map HashEntry.value

/-- The `while` loop of `pet_htable_iter_advance`: the next chain with an entry, from chain `j` on. -/
def advanceLoop (table : List ℕ) (tableLength : ℕ) (it : HashtableIter) : ℕ → ℕ → Option (ℤ × HashtableIter)
  | 0, _ => none
  | fuel + 1, j => do
    let next ← table[j]?
    if next ≠ NULL then some (-1, { it with index := j, entry := next })
    else if j + 1 ≥ tableLength then some (0, { it with index := tableLength, entry := NULL })
    else advanceLoop table tableLength it fuel (j + 1)

/-- `pet_htable_iter_advance`. -/
def petHtableIterAdvance (it : HashtableIter) (s : State) : Option (ℤ × HashtableIter) :=
  if it.entry = NULL then some (0, it)
  else do
    let e ← s.mem.entry it.entry
    if e.next ≠ NULL then some (-1, { it with parent := it.entry, entry := e.next })
    else
      let it := { it with parent := NULL, index := it.index + 1 }
      if s.htable.tableLength ≤ it.index then some (0, { it with entry := NULL })
      else advanceLoop s.htable.table s.htable.tableLength it s.htable.tableLength it.index

/-- `pet_htable_iter_remove`. -/
def petHtableIterRemove (it : HashtableIter) (freeKey : Bool) (s : State) :
    Option (ℤ × HashtableIter × State) := do
  let e ← s.mem.entry it.entry
  let s ← (if it.parent = NULL then EntryPtr.slot it.index else EntryPtr.link it.parent).store e.next s
  let rememberEntry := it.entry
  let s := { s with htable := { s.htable with entryCount := countDown s.htable.entryCount }
                    mem := s.mem.freeWord freeKey e.key }
  let rememberParent := it.parent
  let (ret, it) ← petHtableIterAdvance it s
  let it := if it.parent = rememberEntry then { it with parent := rememberParent } else it
  let mem ← s.mem.freeEntry rememberEntry
  some (ret, it, { s with mem })

/-- The loop of `pet_htable_iter_search`. -/
def iterSearchLoop (s : State) (hashValue : BitVec 32) (key : BitVec 64) (index : ℕ) (it : HashtableIter) :
    ℕ → ℕ → ℕ → Option (ℤ × HashtableIter)
  | 0, _, _ => none
  | fuel + 1, parent, entry =>
    if entry = NULL then some (0, it)
    else do
      let e ← s.mem.entry entry
      if hashValue = e.hash ∧ s.htable.fns.eqFn key e.key then some (-1, ⟨entry, parent, index⟩)
      else iterSearchLoop s hashValue key index it fuel entry e.next

/-- `pet_htable_iter_search`. -/
def petHtableIterSearch (fuel : ℕ) (it : HashtableIter) (key : BitVec 64) (s : State) :
    Option (ℤ × HashtableIter) := do
  let hashValue := doHash s.htable.fns key
  let index := indexFor s.htable.tableLength hashValue
  let entry ← s.htable.table[index]?
  iterSearchLoop s hashValue key index it fuel NULL entry

end PetLab.Threads.Htable
