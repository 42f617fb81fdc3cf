import PetLab.Lib.Buckets
import PetLab.Threads.Hashtable

/-!
# What a hash table holds

`Represents s ls`: in the state `s` the table is made of the chains `ls`, one for each place.
Every entry is in the chain of its hash, which is the hash of its key; the size and the load
limit are those of the prime index; the counter counts the entries (modulo 2³²); and every
allocated entry is in a chain, so nothing leaks.

The links of the entries (`nextOf`) and what the entries hold (`itemOf`) are looked at apart:
a write to a link changes no item (`itemOf_setNext`), a write to a value no link.

* `pairsIn fns item key l`: the entries of a key along a list of entries. In a table a key has
  its entries in its own chain (`pairsIn_flatten`).
* `hashtableExpand_spec`, `pairsIn_grown`: growing keeps the entries and reverses those of every
  key, as the header of the source says of duplicate keys.
-/

namespace PetLab.Threads.Htable

open PetLab.Lib

/-! ### Links and items -/

/-- What an entry holds. -/
structure Item where
  key : BitVec 64
  value : BitVec 64
  hash : BitVec 32
deriving DecidableEq, Repr

def HashEntry.item (e : HashEntry) : Item := ⟨e.key, e.value, e.hash⟩

/-- Where an entry points. -/
def nextOf (entry : ℕ → Option HashEntry) (a : ℕ) : Option ℕ := (entry a).map HashEntry.next

/-- What is in an entry. -/
def itemOf (entry : ℕ → Option HashEntry) (a : ℕ) : Option Item := (entry a).map HashEntry.item

section

variable {entry : ℕ → Option HashEntry} {a b p q : ℕ} {e e' : HashEntry}

theorem nextOf_update (x : Option HashEntry) :
    nextOf (Function.update entry a x) = Function.update (nextOf entry) a (x.map HashEntry.next) := by
  funext b
  by_cases hb : b = a
  · subst hb
    simp [nextOf]
  · simp [nextOf, hb]

theorem itemOf_update (x : Option HashEntry) :
    itemOf (Function.update entry a x) = Function.update (itemOf entry) a (x.map HashEntry.item) := by
  funext b
  by_cases hb : b = a
  · subst hb
    simp [itemOf]
  · simp [itemOf, hb]

/-- A link is written, and no item changes. -/
theorem itemOf_setNext (h : entry a = some e) :
    itemOf (Function.update entry a (some { e with next := q })) = itemOf entry := by
  rw [itemOf_update]
  apply Function.update_eq_self_iff.mpr
  simp [itemOf, h, HashEntry.item]

/-- A value is written, and no link changes. -/
theorem nextOf_setValue (h : entry a = some e) (v : BitVec 64) :
    nextOf (Function.update entry a (some { e with value := v })) = nextOf entry := by
  rw [nextOf_update]
  apply Function.update_eq_self_iff.mpr
  simp [nextOf, h]

theorem entry_isSome_of_next (h : nextOf entry a ≠ none) : ∃ e, entry a = some e := by
  rw [← Option.isSome_iff_exists]
  cases ha : entry a with
  | none => simp [nextOf, ha] at h
  | some e => rfl

end

/-! ### The entries of a key -/

/-- `eq_fn` is an equivalence, and equal keys have the same hash. -/
structure KeyFns.Lawful (fns : KeyFns) : Prop where
  refl : ∀ a, fns.eqFn a a
  symm : ∀ {a b}, fns.eqFn a b → fns.eqFn b a
  trans : ∀ {a b c}, fns.eqFn a b → fns.eqFn b c → fns.eqFn a c
  hash : ∀ {a b}, fns.eqFn a b → fns.hashFn a = fns.hashFn b

theorem KeyFns.Lawful.doHash {fns : KeyFns} (h : fns.Lawful) {a b : BitVec 64} (hab : fns.eqFn a b) :
    doHash fns a = doHash fns b := by
  rw [Htable.doHash, Htable.doHash, h.hash hab]

theorem ptrFns_lawful : ptrFns.Lawful where
  refl _ := beq_self_eq_true _
  symm h := beq_iff_eq.mpr (eq_of_beq h).symm
  trans h h' := beq_iff_eq.mpr ((eq_of_beq h).trans (eq_of_beq h'))
  hash h := by rw [eq_of_beq h]

/-- Is this the entry of a key? -/
def isKey (fns : KeyFns) (item : ℕ → Option Item) (key : BitVec 64) (a : ℕ) : Bool :=
  (item a).any fun it => fns.eqFn key it.key

/-- The keys and values of the entries of a key, along a list of entries. -/
def pairsIn (fns : KeyFns) (item : ℕ → Option Item) (key : BitVec 64) (l : List ℕ) :
    List (BitVec 64 × BitVec 64) :=
  l.filterMap fun a => (item a).bind fun it => if fns.eqFn key it.key then some (it.key, it.value) else none

section

variable {fns : KeyFns} {item item' : ℕ → Option Item} {key : BitVec 64} {l l' : List ℕ} {a : ℕ} {it : Item}

theorem isKey_iff : isKey fns item key a ↔ ∃ it, item a = some it ∧ fns.eqFn key it.key := by
  simp [isKey, Option.any_eq_true]

theorem pairsIn_append : pairsIn fns item key (l ++ l') = pairsIn fns item key l ++ pairsIn fns item key l' :=
  List.filterMap_append

theorem pairsIn_cons_of_key (ha : item a = some it) (hkey : fns.eqFn key it.key) :
    pairsIn fns item key (a :: l) = (it.key, it.value) :: pairsIn fns item key l := by
  simp [pairsIn, ha, hkey]

theorem pairsIn_cons_of_not (ha : ¬ isKey fns item key a) :
    pairsIn fns item key (a :: l) = pairsIn fns item key l := by
  rw [isKey_iff] at ha
  apply List.filterMap_cons_none
  cases hit : item a with
  | none => rfl
  | some it => simpa [hit] using ha

theorem pairsIn_reverse : pairsIn fns item key l.reverse = (pairsIn fns item key l).reverse :=
  List.filterMap_reverse

theorem pairsIn_congr (h : ∀ a ∈ l, item a = item' a) : pairsIn fns item key l = pairsIn fns item' key l :=
  List.filterMap_congr fun a ha => by rw [h a ha]

theorem pairsIn_eq_nil (h : ∀ a ∈ l, ¬ isKey fns item key a) : pairsIn fns item key l = [] := by
  induction l with
  | nil => rfl
  | cons a l ih =>
    rw [pairsIn_cons_of_not (h a List.mem_cons_self)]
    exact ih fun b hb => h b (List.mem_cons_of_mem _ hb)

/-- Entries of other keys may be left out. -/
theorem pairsIn_filter {P : ℕ → Bool} (h : ∀ a ∈ l, isKey fns item key a → P a) :
    pairsIn fns item key (l.filter P) = pairsIn fns item key l := by
  induction l with
  | nil => rfl
  | cons a l ih =>
    have ih := ih fun b hb => h b (List.mem_cons_of_mem _ hb)
    by_cases hP : P a
    · rw [List.filter_cons_of_pos hP, ← List.singleton_append, pairsIn_append, ih, ← pairsIn_append]
      rfl
    · rw [List.filter_cons_of_neg hP, ih, pairsIn_cons_of_not]
      exact fun hkey => hP (h a List.mem_cons_self hkey)

end

/-! ### The table -/

/-- The entries of every chain have the hash of their key, and it falls on the place of the chain. -/
def Hashed (fns : KeyFns) (tableLength : ℕ) (item : ℕ → Option Item) (ls : List (List ℕ)) : Prop :=
  ∀ i l a it, ls[i]? = some l → a ∈ l → item a = some it →
    it.hash = doHash fns it.key ∧ indexFor tableLength it.hash = i

/-- The table is made of the chains `ls`; nothing is said of its counter. -/
structure Shape (s : State) (ls : List (List ℕ)) : Prop where
  /-- The places of the table start the chains. -/
  buckets : Buckets NULL (nextOf s.mem.entry) s.htable.table ls
  /-- The table has the length it says. -/
  length_eq : s.htable.table.length = s.htable.tableLength
  /-- Its size is the prime of its index. -/
  size : primes[s.htable.primeIndex]? = some s.htable.tableLength
  /-- Its load limit is that of its index. -/
  load : loadFactors[s.htable.primeIndex]? = some s.htable.loadLimit
  /-- Every entry is where its key belongs. -/
  hashed : Hashed s.htable.fns s.htable.tableLength (itemOf s.mem.entry) ls
  /-- Every allocated entry is in the table. -/
  live : ∀ a, itemOf s.mem.entry a ≠ none → a ∈ ls.flatten

/-- The table is made of the chains `ls`, and its counter counts their entries. -/
structure Represents (s : State) (ls : List (List ℕ)) : Prop extends Shape s ls where
  count : s.htable.entryCount = u32 ls.flatten.length

/-- The place of a key. -/
def State.indexOf (s : State) (key : BitVec 64) : ℕ := indexFor s.htable.tableLength (doHash s.htable.fns key)

theorem primes_pos : ∀ {i n : ℕ}, primes[i]? = some n → 0 < n := by
  intro i n h
  have hall : ∀ n ∈ primes, 0 < n := by decide
  exact hall n (List.mem_of_getElem? h)

theorem length_loadFactors : loadFactors.length = primes.length := rfl

theorem indexFor_lt {n : ℕ} (hn : 0 < n) (h : BitVec 32) : indexFor n h < n := Nat.mod_lt _ hn

section

variable {s : State} {ls : List (List ℕ)} {key : BitVec 64} {l : List ℕ} {a i : ℕ}

theorem Shape.length_ls (h : Shape s ls) : ls.length = s.htable.tableLength := by
  rw [← h.buckets.length_eq, h.length_eq]

/-- The chain of a key. -/
theorem Shape.exists_chain (h : Shape s ls) (key : BitVec 64) : ∃ p l,
    s.htable.table[s.indexOf key]? = some p ∧ ls[s.indexOf key]? = some l ∧
      Chain NULL (nextOf s.mem.entry) p l := by
  apply h.buckets.exists_chain
  rw [h.length_eq]
  exact indexFor_lt (primes_pos h.size) _

theorem Shape.exists_entry (h : Shape s ls) (ha : a ∈ ls.flatten) : ∃ e, s.mem.entry a = some e :=
  entry_isSome_of_next (h.buckets.allocated ha).2

/-- An entry of the key is in the chain of the key. -/
theorem Hashed.index_of_key {fns : KeyFns} {n : ℕ} {item : ℕ → Option Item} (h : Hashed fns n item ls)
    (hlaw : fns.Lawful) (hl : ls[i]? = some l) (ha : a ∈ l) (hkey : isKey fns item key a) :
    indexFor n (doHash fns key) = i := by
  obtain ⟨it, hit, heq⟩ := isKey_iff.mp hkey
  obtain ⟨hhash, hi⟩ := h i l a it hl ha hit
  rw [hlaw.doHash heq, ← hhash, hi]

/-- No entry of a key is in the chains before its own. -/
theorem Hashed.not_isKey_before {fns : KeyFns} {n : ℕ} {item : ℕ → Option Item} {L₁ L₂ : List (List ℕ)}
    (h : Hashed fns n item (L₁ ++ L₂)) (hlaw : fns.Lawful) (hlen : L₁.length = indexFor n (doHash fns key)) :
    ∀ b ∈ L₁.flatten, ¬ isKey fns item key b := by
  intro b hb hkey
  obtain ⟨l, hl, hb⟩ := List.mem_flatten.mp hb
  obtain ⟨j, hj⟩ := List.mem_iff_getElem?.mp hl
  have hjlt := (List.getElem?_eq_some_iff.mp hj).1
  have hidx := h.index_of_key hlaw ((List.getElem?_append_left hjlt).trans hj) hb hkey
  omega

/-- A key has its entries in its own chain. -/
theorem pairsIn_flatten {fns : KeyFns} {n : ℕ} {item : ℕ → Option Item} (h : Hashed fns n item ls)
    (hlaw : fns.Lawful) (hl : ls[indexFor n (doHash fns key)]? = some l) :
    pairsIn fns item key ls.flatten = pairsIn fns item key l := by
  obtain ⟨L₁, L₂, hlen, rfl, -⟩ := exists_split hl
  rw [List.flatten_append, List.flatten_cons, pairsIn_append, pairsIn_append,
    pairsIn_eq_nil (h.not_isKey_before hlaw hlen), List.nil_append]
  have hafter : ∀ b ∈ L₂.flatten, ¬ isKey fns item key b := by
    intro b hb hkey
    obtain ⟨l', hl', hb⟩ := List.mem_flatten.mp hb
    obtain ⟨j, hj⟩ := List.mem_iff_getElem?.mp hl'
    have hget : (L₁ ++ l :: L₂)[L₁.length + (j + 1)]? = some l' := by
      rw [List.getElem?_append_right (by omega), Nat.add_sub_cancel_left]
      exact hj
    have hidx := h.index_of_key hlaw hget hb hkey
    omega
  rw [pairsIn_eq_nil hafter, List.append_nil]

end

/-! ### Growing -/

/-- The place of an entry in a table of a given size. -/
def placeOf (tableLength : ℕ) (item : ℕ → Option Item) (a : ℕ) : ℕ :=
  (item a).elim 0 fun it => indexFor tableLength it.hash

/-- While entries move: the old table still has the chains `ls`, the new one has the chains `ns`. -/
structure Moves (newSize : ℕ) (m : Mem) (w : Moving) (ls ns : List (List ℕ)) : Prop where
  old : Buckets NULL (nextOf w.mem.entry) w.table ls
  new : Buckets NULL (nextOf w.mem.entry) w.newTable ns
  /-- No entry is in both tables. -/
  disjoint : ls.flatten.Disjoint ns.flatten
  length_eq : w.newTable.length = newSize
  /-- The entries hold what they held. -/
  item : itemOf w.mem.entry = itemOf m.entry
  freed : w.mem.freed = m.freed

section

variable {newSize fuel i a : ℕ} {m : Mem} {w : Moving} {ls ns : List (List ℕ)} {l : List ℕ}

/-- One entry moves. -/
theorem Moves.step (h : Moves newSize m w ls ns) (hpos : 0 < newSize) (hl : ls[i]? = some (a :: l)) :
    ∃ w', (∀ fuel, moveLoop newSize i (fuel + 1) w = moveLoop newSize i fuel w') ∧
      Moves newSize m w' (ls.set i l) (distribute (placeOf newSize (itemOf m.entry)) [a] ns) := by
  obtain ⟨p, hp, hc⟩ := h.old.exists_head hl
  obtain ⟨rfl, hne, q, hq, -⟩ := chain_cons_iff.mp hc
  obtain ⟨e, he⟩ := entry_isSome_of_next (by rw [hq]; simp)
  obtain rfl : e.next = q := by simpa [nextOf, he] using hq
  have hpl : p ∈ ls.flatten := mem_flatten_of_getElem? hl List.mem_cons_self
  have hi : i < w.table.length := (List.getElem?_eq_some_iff.mp hp).1
  have hidx : indexFor newSize e.hash < w.newTable.length := h.length_eq ▸ indexFor_lt hpos _
  obtain ⟨head, l', hhead, hl', -⟩ := h.new.exists_chain hidx
  have hplace : placeOf newSize (itemOf m.entry) p = indexFor newSize e.hash := by
    have hit : itemOf m.entry p = some e.item := by
      rw [← h.item]
      simp [itemOf, he]
    simp [placeOf, hit, HashEntry.item]
  refine ⟨⟨w.table.set i e.next, w.newTable.set (indexFor newSize e.hash) p,
    { w.mem with entry := Function.update w.mem.entry p (some { e with next := head }) }⟩, ?_, ?_⟩
  · intro fuel
    simp only [Htable.moveLoop, hp, he, hhead, Option.bind_eq_bind, Option.bind_some, if_neg hne, setSlot, if_pos hi,
      if_pos hidx, Mem.setNext, Option.map_some]
  · have hold := h.old.pop hl hq
    have hperm := (flatten_set_perm hl).1
    have hpold : p ∉ (ls.set i l).flatten := by
      rw [((flatten_set_perm hl).2 l).mem_iff]
      have hnd := hperm.nodup_iff.mp h.old.nodup
      rw [List.cons_append, List.nodup_cons] at hnd
      exact hnd.1
    have hpnew : p ∉ ns.flatten := fun hmem => h.disjoint hpl hmem
    constructor
    · rw [nextOf_update]
      exact hold.update_of_notMem hpold _
    · rw [nextOf_update, distribute_cons, hplace, hl']
      exact h.new.push hhead hl' hne hpnew
    · rw [distribute_cons, hplace, hl', distribute_nil]
      intro b hb hb'
      rcases List.mem_append.mp (((flatten_set_perm hl').2 _).mem_iff.mp hb') with hb' | hb'
      · rcases List.mem_cons.mp hb' with rfl | hb'
        · exact hpold hb
        · refine h.disjoint (a := b) ?_ (mem_flatten_of_getElem? hl' hb')
          exact hperm.mem_iff.mpr (List.mem_cons_of_mem _ (((flatten_set_perm hl).2 l).mem_iff.mp hb))
      · refine h.disjoint (a := b) ?_ ((flatten_set_perm hl').1.mem_iff.mpr (List.mem_append_right _ hb'))
        exact hperm.mem_iff.mpr (List.mem_cons_of_mem _ (((flatten_set_perm hl).2 l).mem_iff.mp hb))
    · simp [h.length_eq]
    · rw [itemOf_setNext he, h.item]
    · exact h.freed

/-- A whole chain moves. -/
theorem Moves.moveLoop (h : Moves newSize m w ls ns) (hpos : 0 < newSize) (hl : ls[i]? = some l)
    (hfuel : l.length < fuel) : ∃ w', moveLoop newSize i fuel w = some w' ∧
      Moves newSize m w' (ls.set i []) (distribute (placeOf newSize (itemOf m.entry)) l ns) := by
  induction l generalizing fuel w ls ns with
  | nil =>
    obtain ⟨fuel, rfl⟩ := Nat.exists_eq_succ_of_ne_zero (Nat.ne_of_gt hfuel)
    obtain ⟨p, hp, hc⟩ := h.old.exists_head hl
    obtain rfl := chain_nil_iff.mp hc
    have hset : ls.set i [] = ls := by
      obtain ⟨hi, hget⟩ := List.getElem?_eq_some_iff.mp hl
      rw [← hget, List.set_getElem_self]
    exact ⟨w, by simp [Htable.moveLoop, hp], by rwa [hset]⟩
  | cons a l ih =>
    obtain ⟨fuel, rfl⟩ := Nat.exists_eq_succ_of_ne_zero (Nat.ne_of_gt (Nat.zero_lt_of_lt hfuel))
    obtain ⟨w₁, hstep, h₁⟩ := h.step hpos hl
    have hi := (List.getElem?_eq_some_iff.mp hl).1
    have hfuel' : l.length < fuel := by simpa using hfuel
    obtain ⟨w₂, hloop, h₂⟩ := ih h₁ (List.getElem?_set_self hi) hfuel'
    rw [List.set_set] at h₂
    exact ⟨w₂, (hstep fuel).trans hloop, h₂⟩

/-- All chains move, in their order. -/
theorem Moves.moveChains {n : ℕ} (h : Moves newSize m w ls ns) (hpos : 0 < newSize) (hn : i + n = ls.length)
    (hfuel : ∀ l ∈ ls, l.length < fuel) : ∃ w' ls', moveChains newSize fuel n i w = some w' ∧
      Moves newSize m w' ls' (distribute (placeOf newSize (itemOf m.entry)) (ls.drop i).flatten ns) := by
  induction n generalizing i w ls ns with
  | zero => exact ⟨w, ls, rfl, by rwa [List.drop_of_length_le (by omega)]⟩
  | succ n ih =>
    have hi : i < ls.length := by omega
    have hl := List.getElem?_eq_getElem hi
    obtain ⟨w₁, hloop, h₁⟩ := h.moveLoop hpos hl (hfuel _ (List.getElem_mem hi))
    obtain ⟨w₂, ls', hchains, h₂⟩ := ih (i := i + 1) h₁ (by simp; omega) (by
      intro l hmem
      rcases List.mem_or_eq_of_mem_set hmem with hmem | rfl
      · exact hfuel l hmem
      · exact Nat.zero_lt_of_lt (hfuel _ (List.getElem_mem hi)))
    refine ⟨w₂, ls', by rw [Htable.moveChains, hloop]; exact hchains, ?_⟩
    rw [List.drop_eq_getElem_cons hi, List.flatten_cons, distribute_append]
    rwa [List.drop_set_of_lt (by omega)] at h₂

end

section

variable {s : State} {ls : List (List ℕ)} {fuel : ℕ}

theorem length_lt_of_mem {l : List ℕ} (hfuel : ls.flatten.length < fuel) (hl : l ∈ ls) : l.length < fuel :=
  Nat.lt_of_le_of_lt (List.sublist_flatten_of_mem hl).length_le hfuel

/-- The chains of a table in a larger one. -/
def grown (newSize : ℕ) (item : ℕ → Option Item) (ls : List (List ℕ)) : List (List ℕ) :=
  distribute (placeOf newSize item) ls.flatten (List.replicate newSize [])

theorem grown_perm {newSize : ℕ} (hpos : 0 < newSize) (item : ℕ → Option Item) :
    (grown newSize item ls).flatten.Perm ls.flatten := by
  refine (distribute_perm fun a _ => ?_).trans (by simp)
  rw [List.length_replicate, placeOf]
  cases item a with
  | none => exact hpos
  | some it => exact indexFor_lt hpos _

theorem getElem?_grown {newSize j : ℕ} (item : ℕ → Option Item) (hj : j < newSize) :
    (grown newSize item ls)[j]? = some (ls.flatten.filter fun a => placeOf newSize item a = j).reverse := by
  have hget : (List.replicate newSize ([] : List ℕ))[j]? = some [] := by simp [hj]
  rw [grown, getElem?_distribute hget, List.append_nil]

/-- Every entry of the larger table is where its key belongs. -/
theorem Hashed.grown {fns : KeyFns} {n newSize : ℕ} {item : ℕ → Option Item} (h : Hashed fns n item ls) :
    Hashed fns newSize item (grown newSize item ls) := by
  intro j l a it hl ha hit
  have hj : j < newSize := by
    have := (List.getElem?_eq_some_iff.mp hl).1
    simpa [Htable.grown] using this
  obtain rfl := Option.some.inj ((getElem?_grown item hj).symm.trans hl)
  rw [List.mem_reverse, List.mem_filter] at ha
  obtain ⟨hmem, hplace⟩ := ha
  obtain ⟨l, hl, ha⟩ := List.mem_flatten.mp hmem
  obtain ⟨i, hi⟩ := List.mem_iff_getElem?.mp hl
  refine ⟨(h i l a it hi ha hit).1, ?_⟩
  simpa [placeOf, hit] using hplace

/-- **The entries of a key are reversed** when the table grows. -/
theorem pairsIn_grown {fns : KeyFns} {n newSize : ℕ} {item : ℕ → Option Item} (h : Hashed fns n item ls)
    (hlaw : fns.Lawful) (hpos : 0 < newSize) (key : BitVec 64) :
    pairsIn fns item key (grown newSize item ls).flatten = (pairsIn fns item key ls.flatten).reverse := by
  have hj := indexFor_lt hpos (doHash fns key)
  rw [pairsIn_flatten h.grown hlaw (getElem?_grown item hj), pairsIn_reverse, pairsIn_filter]
  -- an entry of the key is at the place of the key
  intro a ha hkey
  obtain ⟨it, hit, heq⟩ := isKey_iff.mp hkey
  obtain ⟨l, hl, ha⟩ := List.mem_flatten.mp ha
  obtain ⟨i, hi⟩ := List.mem_iff_getElem?.mp hl
  have hhash := (h i l a it hi ha hit).1
  simp [placeOf, hit, hhash, hlaw.doHash heq]

/-- **Growing**: the entries move to a table of the next size. -/
theorem hashtableExpand_spec (h : Shape s ls) (hprime : s.htable.primeIndex ≠ primeTableLen - 1)
    (hfuel : ls.flatten.length < fuel) (realloc : Bool) :
    ∃ s', hashtableExpand fuel true realloc s = some (-1, s') ∧
      Shape s' (grown s'.htable.tableLength (itemOf s.mem.entry) ls) ∧
      itemOf s'.mem.entry = itemOf s.mem.entry ∧ s'.mem.freed = s.mem.freed ∧
      s'.htable.primeIndex = s.htable.primeIndex + 1 ∧ s'.htable.entryCount = s.htable.entryCount ∧
      s'.htable.fns = s.htable.fns := by
  have hidx : s.htable.primeIndex < primes.length := (List.getElem?_eq_some_iff.mp h.size).1
  have hlt : s.htable.primeIndex + 1 < primes.length := by
    rw [primeTableLen] at hprime
    omega
  have hnew := List.getElem?_eq_getElem hlt
  obtain ⟨limit, hload⟩ : ∃ limit, loadFactors[s.htable.primeIndex + 1]? = some limit :=
    ⟨_, List.getElem?_eq_getElem (length_loadFactors ▸ hlt)⟩
  generalize hsize : primes[s.htable.primeIndex + 1] = newSize at hnew
  have hpos : 0 < newSize := primes_pos hnew
  have hstart : Moves newSize s.mem ⟨s.htable.table, List.replicate newSize NULL, s.mem⟩ ls
      (List.replicate newSize []) :=
    ⟨h.buckets, buckets_replicate newSize, by simp, by simp, rfl, rfl⟩
  obtain ⟨w, ls', hchains, hw⟩ := hstart.moveChains (i := 0) (n := s.htable.tableLength) hpos
    (by rw [h.length_ls, Nat.zero_add]) fun l hl => length_lt_of_mem hfuel hl
  rw [List.drop_zero] at hw
  let htable := { s.htable with table := w.newTable, primeIndex := s.htable.primeIndex + 1
                                tableLength := newSize, loadLimit := limit }
  refine ⟨⟨htable, w.mem⟩, ?_, ?_, hw.item, hw.freed, ?_⟩
  · simp [hashtableExpand, hprime, hnew, hload, hchains, htable]
  · refine ⟨hw.new, hw.length_eq, hnew, hload, ?_, ?_⟩
    · rw [hw.item]
      exact h.hashed.grown
    · intro a ha
      rw [hw.item] at ha
      exact (grown_perm hpos _).mem_iff.mpr (h.live a ha)
  · exact ⟨rfl, rfl, rfl⟩

end

end PetLab.Threads.Htable
