import PetLab.Threads.HashtableInv

/-!
# What each operation of the hash table does

One result for each function of the source, on a table made of the chains `ls`:

* a walk along a chain passes the entries of other keys (`findLoop_skip`, `removeLoop_skip`) and
  so ends at the first entry of the key, if there is one;
* `grow_spec`, `petHtableInsert_spec`: an insertion puts the new entry before all others of its
  key, after the table has grown or not. It has no result exactly when it comes to the
  reallocation of `hashtable_expand` (`Wild`);
* `onEntry_spec`, `petHtableRemove_spec`: the first entry of the key is changed, or taken out and
  freed, and no other.
-/

namespace PetLab.Threads.Htable

open PetLab.Lib

/-! ### The first entry of a key -/

section

variable {fns : KeyFns} {item : ℕ → Option Item} {key : BitVec 64} {l : List ℕ}

theorem find_cases (fns : KeyFns) (item : ℕ → Option Item) (key : BitVec 64) (l : List ℕ) :
    (∀ a ∈ l, ¬ isKey fns item key a) ∨
      ∃ l₁ a l₂, l = l₁ ++ a :: l₂ ∧ (∀ b ∈ l₁, ¬ isKey fns item key b) ∧ isKey fns item key a := by
  cases h : l.find? (isKey fns item key) with
  | none =>
    left
    intro a ha
    simpa using List.find?_eq_none.mp h a ha
  | some a =>
    right
    obtain ⟨hkey, l₁, l₂, rfl, hl₁⟩ := List.find?_eq_some_iff_append.mp h
    exact ⟨l₁, a, l₂, rfl, fun b hb => by simpa using hl₁ b hb, hkey⟩

end

/-- The first entry of a key in the table: where it is, and what is in it. -/
structure FirstEntry (s : State) (ls : List (List ℕ)) (key : BitVec 64) (l₁ : List ℕ) (a : ℕ) (l₂ : List ℕ)
    (e : HashEntry) : Prop where
  chain : ls[s.indexOf key]? = some (l₁ ++ a :: l₂)
  entry : s.mem.entry a = some e
  eqFn : s.htable.fns.eqFn key e.key
  before : ∀ b ∈ l₁, ¬ isKey s.htable.fns (itemOf s.mem.entry) key b

section

variable {s : State} {ls : List (List ℕ)} {key : BitVec 64} {l l₁ l₂ : List ℕ} {a p : ℕ} {e : HashEntry} {fuel : ℕ}

theorem isKey_itemOf (he : s.mem.entry a = some e) :
    isKey s.htable.fns (itemOf s.mem.entry) key a = s.htable.fns.eqFn key e.key := by
  simp [isKey, itemOf, he, HashEntry.item]

/-- A key has a first entry, or none at all. -/
theorem Shape.find (h : Shape s ls) (hlaw : s.htable.fns.Lawful) (key : BitVec 64) :
    (pairsIn s.htable.fns (itemOf s.mem.entry) key ls.flatten = [] ∧ ∃ l, ls[s.indexOf key]? = some l ∧
      ∀ a ∈ l, ¬ isKey s.htable.fns (itemOf s.mem.entry) key a) ∨
      ∃ l₁ a l₂ e, FirstEntry s ls key l₁ a l₂ e := by
  obtain ⟨p, l, -, hl, -⟩ := h.exists_chain key
  rcases find_cases s.htable.fns (itemOf s.mem.entry) key l with hnone | ⟨l₁, a, l₂, rfl, hl₁, hkey⟩
  · left
    exact ⟨(pairsIn_flatten h.hashed hlaw hl).trans (pairsIn_eq_nil hnone), l, hl, hnone⟩
  · right
    obtain ⟨e, he⟩ := h.exists_entry (mem_flatten_of_getElem? (a := a) hl (by simp))
    exact ⟨l₁, a, l₂, e, hl, he, isKey_itemOf he ▸ hkey, hl₁⟩

/-- The hash of an entry of the key is the hash of the key. -/
theorem Hashed.hash_eq (h : Hashed s.htable.fns s.htable.tableLength (itemOf s.mem.entry) ls)
    (hlaw : s.htable.fns.Lawful) (ha : a ∈ ls.flatten) (he : s.mem.entry a = some e)
    (hkey : s.htable.fns.eqFn key e.key) : doHash s.htable.fns key = e.hash := by
  obtain ⟨l, hl, ha⟩ := List.mem_flatten.mp ha
  obtain ⟨i, hi⟩ := List.mem_iff_getElem?.mp hl
  rw [hlaw.doHash hkey]
  exact (h i l a e.item hi ha (by simp [itemOf, he])).1.symm

theorem FirstEntry.item (h : FirstEntry s ls key l₁ a l₂ e) : itemOf s.mem.entry a = some e.item := by
  simp [itemOf, h.entry]

theorem FirstEntry.mem (h : FirstEntry s ls key l₁ a l₂ e) : a ∈ ls.flatten :=
  mem_flatten_of_getElem? h.chain (by simp)

/-- All entries of the key that stand before the first one: none. -/
theorem FirstEntry.exists_around (h : FirstEntry s ls key l₁ a l₂ e) (hshape : Shape s ls)
    (hlaw : s.htable.fns.Lawful) : ∃ pre post, ls.flatten = pre ++ a :: post ∧
      (ls.set (s.indexOf key) (l₁ ++ l₂)).flatten = pre ++ post ∧
      ∀ b ∈ pre, ¬ isKey s.htable.fns (itemOf s.mem.entry) key b := by
  obtain ⟨L₁, L₂, hlen, hls, hset⟩ := exists_split h.chain
  refine ⟨L₁.flatten ++ l₁, l₂ ++ L₂.flatten, ?_, ?_, ?_⟩
  · rw [hls]
    simp
  · rw [hset]
    simp
  · intro b hb hkey
    rcases List.mem_append.mp hb with hb | hb
    · have hhashed := hshape.hashed
      rw [hls] at hhashed
      exact hhashed.not_isKey_before hlaw hlen b hb hkey
    · exact h.before b hb hkey

/-! ### Walks -/

theorem findEntry_eq (hp : s.htable.table[s.indexOf key]? = some p) :
    findEntry fuel key s = findLoop s (doHash s.htable.fns key) key fuel p := by
  rw [State.indexOf] at hp
  simp only [findEntry, hp, Option.bind_eq_bind, Option.bind_some]

theorem findLoop_null (hash : BitVec 32) : findLoop s hash key (fuel + 1) NULL = some NULL := rfl

/-- The walk passes the entries of other keys. -/
theorem findLoop_skip (hc : Chain NULL (nextOf s.mem.entry) p (l₁ ++ l₂))
    (hl₁ : ∀ a ∈ l₁, ¬ isKey s.htable.fns (itemOf s.mem.entry) key a) (hash : BitVec 32) :
    ∃ q, Chain NULL (nextOf s.mem.entry) q l₂ ∧
      ∀ fuel, findLoop s hash key (l₁.length + fuel) p = findLoop s hash key fuel q := by
  induction l₁ generalizing p with
  | nil => exact ⟨p, hc, fun fuel => by simp⟩
  | cons a l₁ ih =>
    obtain ⟨rfl, hne, q, hq, hc⟩ := chain_cons_iff.mp hc
    obtain ⟨e, he⟩ := entry_isSome_of_next (by rw [hq]; simp)
    obtain rfl : e.next = q := by simpa [nextOf, he] using hq
    have hkey : ¬ s.htable.fns.eqFn key e.key := isKey_itemOf he ▸ hl₁ p List.mem_cons_self
    obtain ⟨q, hq', hloop⟩ := ih hc fun b hb => hl₁ b (List.mem_cons_of_mem _ hb)
    refine ⟨q, hq', fun fuel => ?_⟩
    rw [← hloop fuel, List.length_cons, Nat.add_right_comm, findLoop]
    simp [hne, he, hkey]

/-- A walk ends: at the first entry of the key, or at the end of the chain. -/
theorem findEntry_spec (h : Shape s ls) (hlaw : s.htable.fns.Lawful) (hfuel : ls.flatten.length < fuel)
    (key : BitVec 64) :
    (pairsIn s.htable.fns (itemOf s.mem.entry) key ls.flatten = [] ∧ findEntry fuel key s = some NULL) ∨
      ∃ l₁ a l₂ e, FirstEntry s ls key l₁ a l₂ e ∧ a ≠ NULL ∧ findEntry fuel key s = some a := by
  obtain ⟨p, l, hp, hl, hc⟩ := h.exists_chain key
  have hlen : l.length < fuel := length_lt_of_mem hfuel (List.mem_of_getElem? hl)
  rcases h.find hlaw key with ⟨hnil, l', hl', hnone⟩ | ⟨l₁, a, l₂, e, hfirst⟩
  · left
    obtain rfl := Option.some.inj (hl.symm.trans hl')
    rw [← List.append_nil l] at hc
    obtain ⟨q, hq, hloop⟩ := findLoop_skip hc hnone (doHash s.htable.fns key)
    obtain rfl := chain_nil_iff.mp hq
    obtain ⟨k, rfl⟩ := Nat.exists_eq_add_of_lt hlen
    exact ⟨hnil, by rw [findEntry_eq hp, Nat.add_assoc, hloop, findLoop_null]⟩
  · right
    obtain rfl := Option.some.inj (hl.symm.trans hfirst.chain)
    obtain ⟨q, hq, hloop⟩ := findLoop_skip hc hfirst.before (doHash s.htable.fns key)
    obtain ⟨rfl, hne, -⟩ := chain_cons_iff.mp hq
    rw [List.length_append, List.length_cons] at hlen
    obtain ⟨k, rfl⟩ := Nat.exists_eq_add_of_lt hlen
    refine ⟨l₁, q, l₂, e, hfirst, hne, ?_⟩
    have hhash := h.hashed.hash_eq hlaw hfirst.mem hfirst.entry hfirst.eqFn
    have hfuel : l₁.length + (l₂.length + 1) + k + 1 = l₁.length + ((l₂.length + 1 + k) + 1) := by omega
    rw [findEntry_eq hp, hfuel, hloop, findLoop]
    simp [hne, hfirst.entry, hhash, hfirst.eqFn]

end

/-! ### Looking up -/

section

variable {s : State} {ls : List (List ℕ)} {key : BitVec 64} {l l₁ l₂ : List ℕ} {a p : ℕ} {e : HashEntry} {fuel : ℕ}

theorem pairsIn_congr_key {fns : KeyFns} {item : ℕ → Option Item} (hlaw : fns.Lawful) {k k' : BitVec 64}
    (h : fns.eqFn k' k) (l : List ℕ) : pairsIn fns item k' l = pairsIn fns item k l := by
  refine List.filterMap_congr fun a _ => ?_
  cases item a with
  | none => rfl
  | some it =>
    have heq : fns.eqFn k' it.key = fns.eqFn k it.key :=
      Bool.eq_iff_iff.mpr ⟨hlaw.trans (hlaw.symm h), hlaw.trans h⟩
    simp [heq]

/-- The entries of a key, from its first one on. -/
theorem pairsIn_first {fns : KeyFns} {item : ℕ → Option Item} {it : Item} {pre post : List ℕ}
    (hpre : ∀ b ∈ pre, ¬ isKey fns item key b) (ha : item a = some it) (hkey : fns.eqFn key it.key) :
    pairsIn fns item key (pre ++ a :: post) = (it.key, it.value) :: pairsIn fns item key post := by
  rw [pairsIn_append, pairsIn_eq_nil hpre, List.nil_append, pairsIn_cons_of_key ha hkey]

theorem pairsIn_update {fns : KeyFns} {item : ℕ → Option Item} (ha : a ∉ l) (x : Option Item) :
    pairsIn fns (Function.update item a x) key l = pairsIn fns item key l := by
  refine pairsIn_congr fun b hb => Function.update_of_ne ?_ _ _
  rintro rfl
  exact ha hb

/-- The first entry of a key gets another value. -/
theorem pairsIn_update_first {fns : KeyFns} {item : ℕ → Option Item} {it it' : Item} {pre post : List ℕ}
    (hlaw : fns.Lawful) (hnd : (pre ++ a :: post).Nodup) (hpre : ∀ b ∈ pre, ¬ isKey fns item key b)
    (ha : item a = some it) (hkey : fns.eqFn key it.key) (hit' : it'.key = it.key) (k : BitVec 64) :
    pairsIn fns (Function.update item a (some it')) k (pre ++ a :: post) =
      if fns.eqFn k key then (it.key, it'.value) :: pairsIn fns item key post
      else pairsIn fns item k (pre ++ a :: post) := by
  have hapre : a ∉ pre := fun hmem => List.disjoint_of_nodup_append hnd hmem List.mem_cons_self
  have hapost : a ∉ post := (List.nodup_cons.mp (List.nodup_append.mp hnd).2.1).1
  rw [pairsIn_append, pairsIn_update hapre]
  by_cases hk : fns.eqFn k key
  · have hself : Function.update item a (some it') a = some it' := Function.update_self ..
    rw [if_pos hk, pairsIn_cons_of_key hself (hit' ▸ hlaw.trans hk hkey),
      pairsIn_update hapost, pairsIn_congr_key hlaw hk pre, pairsIn_eq_nil hpre, List.nil_append,
      pairsIn_congr_key hlaw hk, hit']
  · have hk' : ¬ fns.eqFn k it.key := fun heq => hk (hlaw.trans heq (hlaw.symm hkey))
    rw [if_neg hk, pairsIn_append, pairsIn_cons_of_not, pairsIn_cons_of_not, pairsIn_update hapost]
    · simpa [isKey, ha] using hk'
    · simpa [isKey, hit'] using hk'

/-- The first entry of a key is taken out. -/
theorem pairsIn_erase_first {fns : KeyFns} {item : ℕ → Option Item} {it : Item} {pre post : List ℕ}
    (hlaw : fns.Lawful) (hnd : (pre ++ a :: post).Nodup) (hpre : ∀ b ∈ pre, ¬ isKey fns item key b)
    (ha : item a = some it) (hkey : fns.eqFn key it.key) (k : BitVec 64) :
    pairsIn fns (Function.update item a none) k (pre ++ post) =
      if fns.eqFn k key then pairsIn fns item key post else pairsIn fns item k (pre ++ a :: post) := by
  have hapre : a ∉ pre := fun hmem => List.disjoint_of_nodup_append hnd hmem List.mem_cons_self
  have hapost : a ∉ post := (List.nodup_cons.mp (List.nodup_append.mp hnd).2.1).1
  rw [pairsIn_append, pairsIn_update hapre, pairsIn_update hapost]
  by_cases hk : fns.eqFn k key
  · rw [if_pos hk, pairsIn_congr_key hlaw hk, pairsIn_congr_key hlaw hk, pairsIn_eq_nil hpre, List.nil_append]
  · have hk' : ¬ fns.eqFn k it.key := fun heq => hk (hlaw.trans heq (hlaw.symm hkey))
    rw [if_neg hk, pairsIn_append, pairsIn_cons_of_not]
    simpa [isKey, ha] using hk'

/-- A search returns the value of the first entry of the key, `NULL` if there is none. -/
theorem petHtableSearch_spec (h : Shape s ls) (hlaw : s.htable.fns.Lawful) (hfuel : ls.flatten.length < fuel)
    (key : BitVec 64) : petHtableSearch fuel key s =
      some ((pairsIn s.htable.fns (itemOf s.mem.entry) key ls.flatten).head?.elim 0 Prod.snd) := by
  rcases findEntry_spec h hlaw hfuel key with ⟨hnil, hfind⟩ | ⟨l₁, a, l₂, e, hfirst, hne, hfind⟩
  · simp [petHtableSearch, hfind, hnil]
  · obtain ⟨pre, post, hflat, -, hpre⟩ := hfirst.exists_around h hlaw
    rw [hflat, pairsIn_first hpre hfirst.item hfirst.eqFn]
    simp [petHtableSearch, hfind, hne, hfirst.entry, HashEntry.item]

/-! ### Writing a value -/

/-- A value is written to an entry that is in the table. -/
theorem Shape.setValue (h : Shape s ls) (he : s.mem.entry a = some e) (v : BitVec 64) (freed : List (BitVec 64)) :
    Shape { s with mem := ⟨Function.update s.mem.entry a (some { e with value := v }), freed⟩ } ls where
  buckets := by
    have := h.buckets
    rwa [← nextOf_setValue he v] at this
  length_eq := h.length_eq
  size := h.size
  load := h.load
  hashed := by
    intro i l b it hl hb hit
    rw [itemOf_update] at hit
    by_cases hba : b = a
    · subst hba
      rw [Function.update_self] at hit
      obtain rfl := Option.some.inj hit
      exact h.hashed i l b e.item hl hb (by simp [itemOf, he])
    · rw [Function.update_of_ne hba] at hit
      exact h.hashed i l b it hl hb hit
  live := by
    intro b hb
    apply h.live b
    rw [itemOf_update] at hb
    by_cases hba : b = a
    · subst hba
      simp [itemOf, he]
    · rwa [Function.update_of_ne hba] at hb

/-- **Change, increment, decrement**: the value of the first entry of the key, and nothing else. -/
theorem onEntry_spec (h : Represents s ls) (hlaw : s.htable.fns.Lawful) (hfuel : ls.flatten.length < fuel)
    (f : BitVec 64 → BitVec 64) (freeValue : Bool) (key : BitVec 64) :
    (pairsIn s.htable.fns (itemOf s.mem.entry) key ls.flatten = [] ∧ onEntry f freeValue fuel key s = some (0, s)) ∨
      ∃ k v rest mem, pairsIn s.htable.fns (itemOf s.mem.entry) key ls.flatten = (k, v) :: rest ∧
        onEntry f freeValue fuel key s = some (-1, { s with mem }) ∧ Represents { s with mem } ls ∧
        mem.freed = s.mem.freed ++ (if freeValue then [v] else []) ∧
        ∀ k', pairsIn s.htable.fns (itemOf mem.entry) k' ls.flatten =
          if s.htable.fns.eqFn k' key then (k, f v) :: rest
          else pairsIn s.htable.fns (itemOf s.mem.entry) k' ls.flatten := by
  rcases findEntry_spec h.toShape hlaw hfuel key with ⟨hnil, hfind⟩ | ⟨l₁, a, l₂, e, hfirst, hne, hfind⟩
  · left
    exact ⟨hnil, by simp [onEntry, hfind]⟩
  · right
    have hshape := h.toShape.setValue hfirst.entry (f e.value) (s.mem.freed ++ if freeValue then [e.value] else [])
    obtain ⟨pre, post, hflat, -, hpre⟩ := hfirst.exists_around h.toShape hlaw
    have hnd := hflat ▸ h.buckets.nodup
    refine ⟨e.key, e.value, pairsIn s.htable.fns (itemOf s.mem.entry) key post, _, ?_, ?_, ⟨hshape, h.count⟩, rfl, ?_⟩
    · rw [hflat]
      exact pairsIn_first hpre hfirst.item hfirst.eqFn
    · cases freeValue <;> simp [onEntry, hfind, hne, hfirst.entry, Mem.setValue, Mem.freeWord]
    · intro k'
      rw [itemOf_update, hflat]
      have hkey : ({ e with value := f e.value } : HashEntry).item.key = e.item.key := rfl
      exact pairsIn_update_first hlaw hnd hpre hfirst.item hfirst.eqFn hkey k'

end

/-! ### Taking an entry out -/

/-- The place of the pointer to the cell after `l₁`, in a chain that starts at `ptr`. -/
def ptrAfter (ptr : EntryPtr) : List ℕ → EntryPtr
  | [] => ptr
  | a :: l => ptrAfter (.link a) l

section

variable {s : State} {ls : List (List ℕ)} {key : BitVec 64} {l l₁ l₂ : List ℕ} {a b i p : ℕ} {e : HashEntry} {fuel : ℕ}

theorem ptrAfter_concat (ptr : EntryPtr) (l : List ℕ) (b : ℕ) : ptrAfter ptr (l ++ [b]) = .link b := by
  induction l generalizing ptr with
  | nil => rfl
  | cons a l ih => exact ih _

/-- The walk of `pet_htable_remove` passes the entries of other keys, and keeps the place of the pointer to
the next one. -/
theorem removeLoop_skip (hc : Chain NULL (nextOf s.mem.entry) p (l₁ ++ l₂))
    (hl₁ : ∀ a ∈ l₁, ¬ isKey s.htable.fns (itemOf s.mem.entry) key a) (hash : BitVec 32) (freeKey : Bool)
    (ptr : EntryPtr) : ∃ q, Chain NULL (nextOf s.mem.entry) q l₂ ∧ ∀ fuel,
      removeLoop hash key freeKey s (l₁.length + fuel) ptr p =
        removeLoop hash key freeKey s fuel (ptrAfter ptr l₁) q := by
  induction l₁ generalizing p ptr with
  | nil => exact ⟨p, hc, fun fuel => by simp [ptrAfter]⟩
  | cons a l₁ ih =>
    obtain ⟨rfl, hne, q, hq, hc⟩ := chain_cons_iff.mp hc
    obtain ⟨e, he⟩ := entry_isSome_of_next (by rw [hq]; simp)
    obtain rfl : e.next = q := by simpa [nextOf, he] using hq
    have hkey : ¬ s.htable.fns.eqFn key e.key := isKey_itemOf he ▸ hl₁ p List.mem_cons_self
    obtain ⟨q, hq', hloop⟩ := ih hc (fun b hb => hl₁ b (List.mem_cons_of_mem _ hb)) (.link p)
    refine ⟨q, hq', fun fuel => ?_⟩
    rw [ptrAfter, ← hloop fuel, List.length_cons, Nat.add_right_comm, removeLoop]
    simp [hne, he, hkey]

/-- The pointer to an entry gets the link of the entry: the chain is the one without the entry. -/
theorem store_spec (h : Shape s ls) (hl : ls[i]? = some (l₁ ++ a :: l₂)) (he : s.mem.entry a = some e) :
    ∃ table entry, (ptrAfter (.slot i) l₁).store e.next s =
        some ⟨{ s.htable with table }, { s.mem with entry }⟩ ∧
      table.length = s.htable.table.length ∧ Buckets NULL (nextOf entry) table (ls.set i (l₁ ++ l₂)) ∧
      itemOf entry = itemOf s.mem.entry ∧ entry a = some e := by
  have hnext : nextOf s.mem.entry a = some e.next := by simp [nextOf, he]
  rcases List.eq_nil_or_concat l₁ with rfl | ⟨l, b, rfl⟩
  · -- the head of its chain
    obtain ⟨p, hp, -⟩ := h.buckets.exists_head hl
    have hi := (List.getElem?_eq_some_iff.mp hp).1
    refine ⟨s.htable.table.set i e.next, s.mem.entry, ?_, by simp, ?_, rfl, he⟩
    · simp [ptrAfter, EntryPtr.store, setSlot, hi]
    · exact h.buckets.pop hl hnext
  · -- inside its chain
    rw [List.concat_eq_append] at hl ⊢
    rw [List.append_assoc] at hl
    have hmem : b ∈ ls.flatten := mem_flatten_of_getElem? hl (by simp)
    obtain ⟨eb, hb⟩ := h.exists_entry hmem
    have hnd := (List.nodup_flatten.mp h.buckets.nodup).1 _ (List.mem_of_getElem? hl)
    have hab : a ≠ b := by
      rintro rfl
      have htail := (List.nodup_append.mp hnd).2.1
      simp at htail
    refine ⟨s.htable.table, Function.update s.mem.entry b (some { eb with next := e.next }), ?_, rfl, ?_, ?_, ?_⟩
    · rw [ptrAfter_concat]
      simp [EntryPtr.store, Mem.setNext, hb]
    · rw [nextOf_update, List.append_assoc]
      exact h.buckets.unlink hl hnext
    · exact itemOf_setNext hb
    · rw [Function.update_of_ne hab, he]

theorem countDown_eq {n : ℕ} : countDown (u32 (n + 1)) = u32 n := by
  simp only [countDown, u32]
  split <;> omega

theorem countUp_eq {n : ℕ} : countUp (u32 n) = u32 (n + 1) := by
  simp only [countUp, u32]
  omega

/-- The state in which an entry is out of the chains, and freed. -/
def State.cut (s : State) (table : List ℕ) (entry : ℕ → Option HashEntry) (a : ℕ) (freed : List (BitVec 64)) : State :=
  ⟨{ s.htable with table, entryCount := countDown s.htable.entryCount }, ⟨Function.update entry a none, freed⟩⟩

/-- The entry is out of the chains and freed. -/
theorem Represents.without (h : Represents s ls) (hl : ls[i]? = some (l₁ ++ a :: l₂)) {table : List ℕ}
    {entry : ℕ → Option HashEntry} (hlen : table.length = s.htable.table.length)
    (hbuckets : Buckets NULL (nextOf entry) table (ls.set i (l₁ ++ l₂))) (hitem : itemOf entry = itemOf s.mem.entry)
    (freed : List (BitVec 64)) :
    Represents (s.cut table entry a freed) (ls.set i (l₁ ++ l₂)) := by
  have hperm : ls.flatten.Perm (a :: (ls.set i (l₁ ++ l₂)).flatten) := by
    refine (flatten_set_perm hl).1.trans ?_
    rw [List.append_assoc, List.cons_append]
    refine List.perm_middle.trans (List.Perm.cons a ?_)
    rw [← List.append_assoc]
    exact ((flatten_set_perm hl).2 _).symm
  have ha : a ∉ (ls.set i (l₁ ++ l₂)).flatten := (List.nodup_cons.mp (hperm.nodup_iff.mp h.buckets.nodup)).1
  refine ⟨⟨?_, hlen.trans h.length_eq, h.size, h.load, ?_, ?_⟩, ?_⟩
  · rw [State.cut, nextOf_update]
    exact hbuckets.update_of_notMem ha _
  · intro j l b it hj hb hit
    rw [State.cut, itemOf_update, hitem] at hit
    have hba : b ≠ a := by
      rintro rfl
      exact ha (mem_flatten_of_getElem? hj hb)
    rw [Function.update_of_ne hba] at hit
    by_cases hij : i = j
    · subst hij
      have hi := (List.getElem?_eq_some_iff.mp hl).1
      obtain rfl := Option.some.inj ((List.getElem?_set_self hi).symm.trans hj)
      exact h.hashed i _ b it hl (by simp at hb ⊢; tauto) hit
    · rw [List.getElem?_set_ne hij] at hj
      exact h.hashed j l b it hj hb hit
  · intro b hb
    rw [State.cut, itemOf_update, hitem] at hb
    have hba : b ≠ a := by
      rintro rfl
      simp at hb
    rw [Function.update_of_ne hba] at hb
    exact (List.mem_cons.mp (hperm.mem_iff.mp (h.live b hb))).resolve_left hba
  · have hcount := h.count
    rw [hperm.length_eq, List.length_cons] at hcount
    rw [State.cut, hcount, countDown_eq]

theorem petHtableRemove_eq (hp : s.htable.table[s.indexOf key]? = some p) (freeKey : Bool) :
    petHtableRemove fuel key freeKey s =
      removeLoop (doHash s.htable.fns key) key freeKey s fuel (.slot (s.indexOf key)) p := by
  have hp' := hp
  rw [State.indexOf] at hp'
  simp only [petHtableRemove, hp', Option.bind_eq_bind, Option.bind_some, State.indexOf]

/-- What a removal does when there is an entry of the key. -/
theorem FirstEntry.remove_eq (hfirst : FirstEntry s ls key l₁ a l₂ e) (h : Shape s ls)
    (hlaw : s.htable.fns.Lawful) (hfuel : ls.flatten.length < fuel) (freeKey : Bool) {table : List ℕ}
    {entry : ℕ → Option HashEntry} (hentry : entry a = some e)
    (hstore : (ptrAfter (.slot (s.indexOf key)) l₁).store e.next s =
      some ⟨{ s.htable with table }, { s.mem with entry }⟩) :
    petHtableRemove fuel key freeKey s =
      some (e.value, s.cut table entry a (s.mem.freed ++ if freeKey then [e.key] else [])) := by
  obtain ⟨p, hp, hc⟩ := h.buckets.exists_head hfirst.chain
  have hlen := length_lt_of_mem hfuel (List.mem_of_getElem? hfirst.chain)
  obtain ⟨q, hq, hloop⟩ := removeLoop_skip hc hfirst.before (doHash s.htable.fns key) freeKey
    (.slot (s.indexOf key))
  obtain ⟨rfl, hne, -⟩ := chain_cons_iff.mp hq
  rw [List.length_append, List.length_cons] at hlen
  obtain ⟨k, rfl⟩ := Nat.exists_eq_add_of_lt hlen
  have hhash := h.hashed.hash_eq hlaw hfirst.mem hfirst.entry hfirst.eqFn
  have hfuel : l₁.length + (l₂.length + 1) + k + 1 = l₁.length + ((l₂.length + 1 + k) + 1) := by omega
  rw [petHtableRemove_eq hp, hfuel, hloop, removeLoop]
  cases freeKey <;>
    simp [hne, hfirst.entry, hhash, hfirst.eqFn, hstore, Mem.freeWord, Mem.freeEntry, hentry, State.cut]

/-- **Removal**: the first entry of the key is taken out and freed, and no other. -/
theorem petHtableRemove_spec (h : Represents s ls) (hlaw : s.htable.fns.Lawful) (hfuel : ls.flatten.length < fuel)
    (freeKey : Bool) (key : BitVec 64) :
    (pairsIn s.htable.fns (itemOf s.mem.entry) key ls.flatten = [] ∧
        petHtableRemove fuel key freeKey s = some (0, s)) ∨
      ∃ k v rest s' ls', pairsIn s.htable.fns (itemOf s.mem.entry) key ls.flatten = (k, v) :: rest ∧
        petHtableRemove fuel key freeKey s = some (v, s') ∧ Represents s' ls' ∧ s'.htable.fns = s.htable.fns ∧
        s'.htable.primeIndex = s.htable.primeIndex ∧ ls'.flatten.length + 1 = ls.flatten.length ∧
        s'.mem.freed = s.mem.freed ++ (if freeKey then [k] else []) ∧
        ∀ k', pairsIn s.htable.fns (itemOf s'.mem.entry) k' ls'.flatten =
          if s.htable.fns.eqFn k' key then rest
          else pairsIn s.htable.fns (itemOf s.mem.entry) k' ls.flatten := by
  obtain ⟨p, l, hp, hl, hc⟩ := h.exists_chain key
  have hlen : l.length < fuel := length_lt_of_mem hfuel (List.mem_of_getElem? hl)
  rcases h.find hlaw key with ⟨hnil, l', hl', hnone⟩ | ⟨l₁, a, l₂, e, hfirst⟩
  · left
    obtain rfl := Option.some.inj (hl.symm.trans hl')
    rw [← List.append_nil l] at hc
    obtain ⟨q, hq, hloop⟩ := removeLoop_skip hc hnone (doHash s.htable.fns key) freeKey (.slot (s.indexOf key))
    obtain rfl := chain_nil_iff.mp hq
    obtain ⟨k, rfl⟩ := Nat.exists_eq_add_of_lt hlen
    refine ⟨hnil, ?_⟩
    rw [petHtableRemove_eq hp, Nat.add_assoc, hloop, removeLoop, if_pos rfl]
  · right
    obtain ⟨table, entry, hstore, htable, hbuckets, hitem, hentry⟩ := store_spec h.toShape hfirst.chain hfirst.entry
    obtain ⟨pre, post, hflat, hflat', hpre⟩ := hfirst.exists_around h.toShape hlaw
    have hnd := hflat ▸ h.buckets.nodup
    refine ⟨e.key, e.value, pairsIn s.htable.fns (itemOf s.mem.entry) key post, _, _, ?_,
      hfirst.remove_eq h.toShape hlaw hfuel freeKey hentry hstore, h.without hfirst.chain htable hbuckets hitem _,
      rfl, rfl, ?_, rfl, ?_⟩
    · rw [hflat]
      exact pairsIn_first hpre hfirst.item hfirst.eqFn
    · rw [hflat', hflat]
      simp only [List.length_append, List.length_cons]
      omega
    · intro k'
      rw [hflat', hflat, State.cut, itemOf_update, hitem]
      exact pairsIn_erase_first hlaw hnd hpre hfirst.item hfirst.eqFn k'

end

/-! ### Inserting -/

/-- The next insertion has the table grow, if there is the memory for it. -/
def State.Full (s : State) : Prop :=
  s.htable.loadLimit < countUp s.htable.entryCount ∧ s.htable.primeIndex ≠ primeTableLen - 1

instance (s : State) : Decidable s.Full := inferInstanceAs (Decidable (_ ∧ _))

/-- The insertion comes to the reallocation of `hashtable_expand`. -/
def Wild (s : State) (ans : Answer) : Prop := s.Full ∧ ans.newTable = false ∧ ans.realloc = true

/-- The insertion has the table grow. -/
def Grows (s : State) (ans : Answer) : Prop := s.Full ∧ ans.newTable = true

instance (s : State) (ans : Answer) : Decidable (Wild s ans) := inferInstanceAs (Decidable (_ ∧ _))

instance (s : State) (ans : Answer) : Decidable (Grows s ans) := inferInstanceAs (Decidable (_ ∧ _))

/-- The first half of `pet_htable_insert`: the entry is counted, and the table grows if it has to. -/
def growth (fuel : ℕ) (ans : Answer) (s : State) : Option State :=
  let s := { s with htable := { s.htable with entryCount := countUp s.htable.entryCount } }
  if s.htable.entryCount > s.htable.loadLimit then
    (hashtableExpand fuel ans.newTable ans.realloc s).map Prod.snd
  else some s

/-- The second half: the new entry goes to the head of its chain. -/
def putEntry (key value : BitVec 64) (newEntry : ℕ) (s : State) : Option (ℤ × State) :=
  if newEntry = NULL then
    some (0, { s with htable := { s.htable with entryCount := countDown s.htable.entryCount } })
  else do
    let hash := doHash s.htable.fns key
    let index := indexFor s.htable.tableLength hash
    let head ← s.htable.table[index]?
    let mem := { s.mem with entry := Function.update s.mem.entry newEntry (some ⟨key, value, hash, head⟩) }
    let table ← setSlot s.htable.table index newEntry
    some (-1, { s with htable := { s.htable with table }, mem })

theorem petHtableInsert_eq (fuel : ℕ) (key value : BitVec 64) (ans : Answer) (s : State) :
    petHtableInsert fuel key value ans s = (growth fuel ans s).bind (putEntry key value ans.newEntry) := rfl

/-- What an insertion has before it puts the new entry: the entries it had, which are in a larger table and
reversed for every key if the table has grown. -/
structure Ready (s : State) (ls : List (List ℕ)) (grows : Prop) [Decidable grows] (s₁ : State)
    (ls₁ : List (List ℕ)) : Prop where
  shape : Shape s₁ ls₁
  entryCount : s₁.htable.entryCount = countUp s.htable.entryCount
  fns : s₁.htable.fns = s.htable.fns
  item : itemOf s₁.mem.entry = itemOf s.mem.entry
  freed : s₁.mem.freed = s.mem.freed
  perm : ls₁.flatten.Perm ls.flatten
  primeIndex : s₁.htable.primeIndex = s.htable.primeIndex + if grows then 1 else 0
  pairs : s.htable.fns.Lawful → ∀ key, pairsIn s.htable.fns (itemOf s.mem.entry) key ls₁.flatten =
    if grows then (pairsIn s.htable.fns (itemOf s.mem.entry) key ls.flatten).reverse
    else pairsIn s.htable.fns (itemOf s.mem.entry) key ls.flatten

section

variable {s : State} {ls : List (List ℕ)} {fuel : ℕ} {ans : Answer}

/-- The counter is no part of the shape. -/
theorem Shape.setCount (h : Shape s ls) (n : ℕ) : Shape { s with htable := { s.htable with entryCount := n } } ls :=
  ⟨h.buckets, h.length_eq, h.size, h.load, h.hashed, h.live⟩

theorem growth_wild (h : Shape s ls) (hwild : Wild s ans) : growth fuel ans s = none := by
  obtain ⟨⟨hlimit, hprime⟩, htable, hrealloc⟩ := hwild
  have hidx : s.htable.primeIndex < primes.length := (List.getElem?_eq_some_iff.mp h.size).1
  have hlt : s.htable.primeIndex + 1 < primes.length := by
    rw [primeTableLen] at hprime
    omega
  obtain ⟨newSize, hnew⟩ : ∃ n, primes[s.htable.primeIndex + 1]? = some n := ⟨_, List.getElem?_eq_getElem hlt⟩
  obtain ⟨limit, hload⟩ : ∃ n, loadFactors[s.htable.primeIndex + 1]? = some n :=
    ⟨_, List.getElem?_eq_getElem (length_loadFactors ▸ hlt)⟩
  simp [growth, hlimit, hashtableExpand, hprime, hnew, hload, htable, hrealloc]

/-- **Before the entry is put**: the table is ready for it. -/
theorem growth_spec (h : Shape s ls) (hfuel : ls.flatten.length < fuel) (hwild : ¬ Wild s ans) :
    ∃ s₁ ls₁, growth fuel ans s = some s₁ ∧ Ready s ls (Grows s ans) s₁ ls₁ := by
  have hcount := h.setCount (countUp s.htable.entryCount)
  have hstay (hgrows : ¬ Grows s ans) :
      Ready s ls (Grows s ans) { s with htable := { s.htable with entryCount := countUp s.htable.entryCount } } ls :=
    ⟨hcount, rfl, rfl, rfl, rfl, .refl _, by simp [hgrows], fun _ key => by simp [hgrows]⟩
  by_cases hlimit : s.htable.loadLimit < countUp s.htable.entryCount
  · by_cases hprime : s.htable.primeIndex = primeTableLen - 1
    · -- the largest size
      refine ⟨_, ls, ?_, hstay fun hgrows => hgrows.1.2 hprime⟩
      simp [growth, hlimit, hashtableExpand, hprime]
    · cases htable : ans.newTable with
      | true =>
        have hgrows : Grows s ans := ⟨⟨hlimit, hprime⟩, htable⟩
        obtain ⟨s₁, hexpand, hshape, hitem, hfreed, hidx, hc, hfns⟩ :=
          hashtableExpand_spec hcount hprime hfuel ans.realloc
        have hpos := primes_pos hshape.size
        refine ⟨s₁, _, ?_, hshape, hc, hfns, hitem, hfreed, grown_perm hpos _, by simp [hidx, hgrows], ?_⟩
        · rw [growth, htable]
          simp [hlimit, hexpand]
        · intro hlaw key
          rw [if_pos hgrows]
          exact pairsIn_grown h.hashed hlaw hpos key
      | false =>
        have hrealloc : ans.realloc = false := by
          cases hr : ans.realloc with
          | false => rfl
          | true => exact absurd ⟨⟨hlimit, hprime⟩, htable, hr⟩ hwild
        have hidx : s.htable.primeIndex < primes.length := (List.getElem?_eq_some_iff.mp h.size).1
        have hlt : s.htable.primeIndex + 1 < primes.length := by
          rw [primeTableLen] at hprime
          omega
        obtain ⟨newSize, hnew⟩ : ∃ n, primes[s.htable.primeIndex + 1]? = some n :=
          ⟨_, List.getElem?_eq_getElem hlt⟩
        obtain ⟨limit, hload⟩ : ∃ n, loadFactors[s.htable.primeIndex + 1]? = some n :=
          ⟨_, List.getElem?_eq_getElem (length_loadFactors ▸ hlt)⟩
        refine ⟨_, ls, ?_, hstay fun hgrows => by simp [Grows, htable] at hgrows⟩
        simp [growth, hlimit, hashtableExpand, hprime, hnew, hload, htable, hrealloc]
  · exact ⟨_, ls, by simp [growth, hlimit], hstay fun hgrows => hlimit hgrows.1.1⟩

/-- A new entry at the head of its chain is before the others of its key. -/
theorem pairsIn_put {fns : KeyFns} {n a : ℕ} {item : ℕ → Option Item} {it : Item} {l : List ℕ} (hlaw : fns.Lawful)
    (h : Hashed fns n item ls) (hl : ls[indexFor n (doHash fns it.key)]? = some l) (ha : a ∉ ls.flatten)
    (k : BitVec 64) :
    pairsIn fns (Function.update item a (some it)) k (ls.set (indexFor n (doHash fns it.key)) (a :: l)).flatten =
      (if fns.eqFn k it.key then [(it.key, it.value)] else []) ++ pairsIn fns item k ls.flatten := by
  obtain ⟨L₁, L₂, hlen, hls, hset⟩ := exists_split hl
  have hflat : ls.flatten = L₁.flatten ++ (l ++ L₂.flatten) := by simp [hls]
  have hnew : (ls.set (indexFor n (doHash fns it.key)) (a :: l)).flatten =
      L₁.flatten ++ a :: (l ++ L₂.flatten) := by simp [hset]
  have hself : Function.update item a (some it) a = some it := Function.update_self ..
  rw [hflat, List.mem_append, not_or] at ha
  rw [hnew, hflat, pairsIn_append, pairsIn_append, pairsIn_update ha.1]
  by_cases hk : fns.eqFn k it.key
  · have hL : ∀ b ∈ L₁.flatten, ¬ isKey fns item k b := by
      rw [hls] at h
      exact h.not_isKey_before hlaw (by rw [hlen, hlaw.doHash hk])
    rw [if_pos hk, pairsIn_eq_nil hL, pairsIn_cons_of_key hself hk, pairsIn_update ha.2]
    rfl
  · have hnot : ¬ isKey fns (Function.update item a (some it)) k a := by simpa [isKey, hself] using hk
    rw [if_neg hk, pairsIn_cons_of_not hnot, pairsIn_update ha.2]
    rfl

/-- A new entry at the head of its chain. -/
theorem Shape.put (h : Shape s ls) {a p : ℕ} {l : List ℕ} {key : BitVec 64} (value : BitVec 64)
    (hp : s.htable.table[s.indexOf key]? = some p) (hl : ls[s.indexOf key]? = some l) (hne : a ≠ NULL)
    (hfresh : itemOf s.mem.entry a = none) :
    Shape ⟨{ s.htable with table := s.htable.table.set (s.indexOf key) a },
        { s.mem with entry := Function.update s.mem.entry a (some ⟨key, value, doHash s.htable.fns key, p⟩) }⟩
      (ls.set (s.indexOf key) (a :: l)) := by
  have ha : a ∉ ls.flatten := by
    intro hmem
    obtain ⟨e, he⟩ := h.exists_entry hmem
    simp [itemOf, he] at hfresh
  have hi := (List.getElem?_eq_some_iff.mp hl).1
  refine ⟨?_, by simp [h.length_eq], h.size, h.load, ?_, ?_⟩
  · rw [nextOf_update]
    exact h.buckets.push hp hl hne ha
  · intro j l' b it hj hb hit
    rw [itemOf_update] at hit
    by_cases hba : b = a
    · -- the new entry
      subst hba
      rw [Function.update_self] at hit
      obtain rfl := Option.some.inj hit
      by_cases hij : s.indexOf key = j
      · exact ⟨rfl, hij⟩
      · rw [List.getElem?_set_ne hij] at hj
        exact absurd (mem_flatten_of_getElem? hj hb) ha
    · rw [Function.update_of_ne hba] at hit
      by_cases hij : s.indexOf key = j
      · subst hij
        obtain rfl := Option.some.inj ((List.getElem?_set_self hi).symm.trans hj)
        exact h.hashed _ l b it hl ((List.mem_cons.mp hb).resolve_left hba) hit
      · rw [List.getElem?_set_ne hij] at hj
        exact h.hashed j l' b it hj hb hit
  · intro b hb
    rw [((flatten_set_perm hl).2 _).mem_iff, List.cons_append, List.mem_cons, ← (flatten_set_perm hl).1.mem_iff]
    by_cases hba : b = a
    · exact .inl hba
    · rw [itemOf_update, Function.update_of_ne hba] at hb
      exact .inr (h.live b hb)

/-- **Insertion**: the new entry, if there is one, is before all others of its key. -/
theorem petHtableInsert_spec (h : Represents s ls) (hlaw : s.htable.fns.Lawful) (hfuel : ls.flatten.length < fuel)
    (hwild : ¬ Wild s ans) (hfresh : itemOf s.mem.entry ans.newEntry = none) (key value : BitVec 64) :
    ∃ s' ls', petHtableInsert fuel key value ans s = some (if ans.newEntry = NULL then 0 else -1, s') ∧
      Represents s' ls' ∧ s'.htable.fns = s.htable.fns ∧ s'.mem.freed = s.mem.freed ∧
      s'.htable.primeIndex = s.htable.primeIndex + (if Grows s ans then 1 else 0) ∧
      ls'.flatten.length = ls.flatten.length + (if ans.newEntry = NULL then 0 else 1) ∧
      ∀ k, pairsIn s.htable.fns (itemOf s'.mem.entry) k ls'.flatten =
        (if ans.newEntry ≠ NULL ∧ s.htable.fns.eqFn k key then [(key, value)] else []) ++
          if Grows s ans then (pairsIn s.htable.fns (itemOf s.mem.entry) k ls.flatten).reverse
          else pairsIn s.htable.fns (itemOf s.mem.entry) k ls.flatten := by
  obtain ⟨s₁, ls₁, hgrowth, hready⟩ := growth_spec h.toShape hfuel hwild
  have hcount : s₁.htable.entryCount = u32 (ls₁.flatten.length + 1) := by
    rw [hready.entryCount, h.count, countUp_eq, hready.perm.length_eq]
  rw [petHtableInsert_eq, hgrowth, Option.bind_some]
  by_cases hnull : ans.newEntry = NULL
  · -- no memory for the entry
    have hdown : countDown s₁.htable.entryCount = u32 ls₁.flatten.length := by rw [hcount, countDown_eq]
    let htable := { s₁.htable with entryCount := countDown s₁.htable.entryCount }
    refine ⟨⟨htable, s₁.mem⟩, ls₁, by rw [putEntry, if_pos hnull, if_pos hnull], ⟨hready.shape.setCount _, hdown⟩,
      hready.fns, hready.freed, hready.primeIndex, by rw [hready.perm.length_eq, if_pos hnull, Nat.add_zero], ?_⟩
    intro k
    rw [hready.item, hready.pairs hlaw k]
    simp [hnull]
  · obtain ⟨p, l, hp, hl, -⟩ := hready.shape.exists_chain key
    have hi := (List.getElem?_eq_some_iff.mp hp).1
    have hfresh₁ : itemOf s₁.mem.entry ans.newEntry = none := hready.item ▸ hfresh
    have hput := hready.shape.put value hp hl hnull hfresh₁
    have hnot : ans.newEntry ∉ ls₁.flatten := by
      intro hmem
      obtain ⟨e, he⟩ := hready.shape.exists_entry hmem
      simp [itemOf, he] at hfresh₁
    have hlen := ((flatten_set_perm hl).2 (ans.newEntry :: l)).length_eq
    rw [List.cons_append, List.length_cons, ← (flatten_set_perm hl).1.length_eq] at hlen
    have hcount' : s₁.htable.entryCount =
        u32 (ls₁.set (s₁.indexOf key) (ans.newEntry :: l)).flatten.length := by rw [hlen, hcount]
    let htable := { s₁.htable with table := s₁.htable.table.set (s₁.indexOf key) ans.newEntry }
    let entry := Function.update s₁.mem.entry ans.newEntry (some ⟨key, value, doHash s₁.htable.fns key, p⟩)
    refine ⟨⟨htable, { s₁.mem with entry }⟩, _, ?_, ⟨hput, hcount'⟩, hready.fns, hready.freed, hready.primeIndex,
      ?_, ?_⟩
    · rw [State.indexOf] at hp hi
      simp only [putEntry, if_neg hnull, hp, Option.bind_eq_bind, Option.bind_some, setSlot, if_pos hi]
      rfl
    · rw [hlen, hready.perm.length_eq, if_neg hnull]
    · intro k
      rw [← hready.pairs hlaw k, ← hready.item, itemOf_update]
      rw [← hready.fns]
      let it : Item := ⟨key, value, doHash s₁.htable.fns key⟩
      have hl' : ls₁[indexFor s₁.htable.tableLength (doHash s₁.htable.fns it.key)]? = some l := hl
      have hpairs := pairsIn_put (hready.fns ▸ hlaw) hready.shape.hashed hl' hnot k
      have hcond : (ans.newEntry ≠ NULL ∧ s₁.htable.fns.eqFn k key) ↔ s₁.htable.fns.eqFn k key := by simp [hnull]
      simp only [hcond]
      exact hpairs

end

end PetLab.Threads.Htable
