import PetLab.Threads.HashtableRuns

/-!
# Iterators

An iterator passes the entries of a table chain by chain. `Points s ls it rest`: the entries from
the iterator on are `rest`, in the order of the chains.

* `iterate_reachable`: an iterator made by `pet_htable_create_iter` visits every entry of the table
  exactly once, whichever of them are removed on the way by `pet_htable_iter_remove`; those are gone in
  the end, and the others are as they were.
* `petHtableIterSearch_spec`: a search with an iterator and a removal there do to the table
  what `pet_htable_remove` does.
-/

namespace PetLab.Threads.Htable

open PetLab.Lib

/-! ### Positions -/

/-- The cell before a place of a chain, `NULL` at its head. -/
def parentOf (l₁ : List ℕ) : ℕ := l₁.getLast?.getD NULL

/-- The iterator stands at `a`: it knows the chain and the entry before. -/
structure StandsAt (ls : List (List ℕ)) (it : HashtableIter) (l₁ : List ℕ) (a : ℕ) (l₂ : List ℕ) : Prop where
  entry : it.entry = a
  parent : it.parent = parentOf l₁
  chain : ls[it.index]? = some (l₁ ++ a :: l₂)

/-- The entries from the iterator on. -/
inductive Points (ls : List (List ℕ)) (it : HashtableIter) : List ℕ → Prop where
  /-- The iterator has come to the end. -/
  | done : it.entry = NULL → Points ls it []
  /-- The iterator stands at an entry. -/
  | here {l₁ l₂ : List ℕ} {a : ℕ} : StandsAt ls it l₁ a l₂ →
      Points ls it (a :: l₂ ++ (ls.drop (it.index + 1)).flatten)

section

variable {s : State} {ls : List (List ℕ)} {it : HashtableIter} {l l₁ l₂ rest : List ℕ} {a i : ℕ} {e : HashEntry}

theorem Points.exists_here (h : Points ls it (a :: rest)) : ∃ l₁ l₂, StandsAt ls it l₁ a l₂ ∧
    rest = l₂ ++ (ls.drop (it.index + 1)).flatten := by
  generalize hr : a :: rest = r at h
  cases h with
  | done _ => cases hr
  | here h =>
    obtain ⟨rfl, rfl⟩ := List.cons.inj hr
    exact ⟨_, _, h, rfl⟩

theorem parentOf_concat (l : List ℕ) (b : ℕ) : parentOf (l ++ [b]) = b := by simp [parentOf]

/-- The pointer to the cell after `l₁`, from the entry before. -/
theorem ptrAfter_eq (h : ∀ b ∈ l₁, b ≠ NULL) (i : ℕ) :
    ptrAfter (.slot i) l₁ = if parentOf l₁ = NULL then .slot i else .link (parentOf l₁) := by
  rcases List.eq_nil_or_concat l₁ with rfl | ⟨l, b, rfl⟩
  · rfl
  · rw [List.concat_eq_append] at h ⊢
    rw [ptrAfter_concat, parentOf_concat, if_neg (h b (by simp))]

theorem drop_eq_cons (h : ls[i]? = some l) : ls.drop i = l :: ls.drop (i + 1) := by
  obtain ⟨hi, rfl⟩ := List.getElem?_eq_some_iff.mp h
  exact List.drop_eq_getElem_cons hi

/-- A place of the table is `NULL` where the chain is empty, and its first entry else. -/
theorem Buckets.head_eq {next : ℕ → Option ℕ} {table : List ℕ} (h : Buckets NULL next table ls)
    (hl : ls[i]? = some l) : table[i]? = some (l.headD NULL) := by
  obtain ⟨p, hp, hc⟩ := h.exists_head hl
  cases l with
  | nil => rw [hp, chain_nil_iff.mp hc]; rfl
  | cons a l => rw [hp, (chain_cons_iff.mp hc).1]; rfl

/-! ### Advancing -/

/-- The search for the next chain with an entry. -/
theorem advanceLoop_spec {next : ℕ → Option ℕ} {table : List ℕ} {n fuel : ℕ} (hb : Buckets NULL next table ls)
    (hlen : ls.length = n) (hi : i < n) (hfuel : n ≤ i + fuel) (hparent : it.parent = NULL) :
    ∃ it', advanceLoop table n it fuel i = some (if (ls.drop i).flatten = [] then 0 else -1, it') ∧
      Points ls it' (ls.drop i).flatten ∧ it'.parent = NULL := by
  induction fuel generalizing i with
  | zero => omega
  | succ fuel ih =>
    obtain ⟨l, hget⟩ : ∃ l, ls[i]? = some l := ⟨_, List.getElem?_eq_getElem (hlen.symm ▸ hi)⟩
    rw [drop_eq_cons hget, List.flatten_cons]
    have hhead := Buckets.head_eq hb hget
    cases l with
    | cons a l =>
      have hne : a ≠ NULL := (hb.allocated (mem_flatten_of_getElem? hget List.mem_cons_self)).1
      have hstands : StandsAt ls { it with index := i, entry := a } [] a l := ⟨rfl, hparent, hget⟩
      exact ⟨_, by simp [advanceLoop, hhead, hne], .here hstands, hparent⟩
    | nil =>
      rw [List.nil_append]
      by_cases hlast : i + 1 ≥ n
      · -- that was the last chain
        rw [List.drop_of_length_le (by omega)]
        exact ⟨{ it with index := n, entry := NULL }, by simp [advanceLoop, hhead, hlast], .done rfl, hparent⟩
      · obtain ⟨it', hloop, hpoints⟩ := ih (i := i + 1) (by omega) (by omega)
        refine ⟨it', ?_, hpoints⟩
        simp [advanceLoop, hhead, hlast, hloop]

/-- From the end of a chain to the next chain with an entry. -/
theorem advance_next {next : ℕ → Option ℕ} (hb : Buckets NULL next s.htable.table ls)
    (hlen : ls.length = s.htable.tableLength) (he : s.mem.entry it.entry = some e) (hne : it.entry ≠ NULL)
    (hnull : e.next = NULL) : ∃ it', petHtableIterAdvance it s =
        some (if (ls.drop (it.index + 1)).flatten = [] then 0 else -1, it') ∧
      Points ls it' (ls.drop (it.index + 1)).flatten ∧ it'.parent = NULL := by
  by_cases hlast : s.htable.tableLength ≤ it.index + 1
  · rw [List.drop_of_length_le (by omega)]
    refine ⟨⟨NULL, NULL, it.index + 1⟩, ?_, .done rfl, rfl⟩
    simp [petHtableIterAdvance, hne, he, hnull, hlast]
  · have hparent : (⟨it.entry, NULL, it.index + 1⟩ : HashtableIter).parent = NULL := rfl
    obtain ⟨it', hloop, hpoints⟩ := advanceLoop_spec hb hlen (Nat.lt_of_not_le hlast) (Nat.le_add_left ..) hparent
    refine ⟨it', ?_, hpoints⟩
    simp [petHtableIterAdvance, hne, he, hnull, hlast, hloop]

/-- Inside a chain. -/
theorem advance_in_chain (he : s.mem.entry it.entry = some e) (hne : it.entry ≠ NULL) (hnext : e.next ≠ NULL) :
    petHtableIterAdvance it s = some (-1, { it with parent := it.entry, entry := e.next }) := by
  simp [petHtableIterAdvance, hne, he, hnext]

/-- **An advance** passes one entry, and returns whether there is another one. -/
theorem Points.advance (h : Points ls it (a :: rest)) (hshape : Shape s ls) :
    ∃ it', petHtableIterAdvance it s = some (if rest = [] then 0 else -1, it') ∧ Points ls it' rest := by
  obtain ⟨l₁, l₂, hstands, rfl⟩ := h.exists_here
  obtain ⟨rfl, hparent, hchain⟩ := hstands
  have hmem : it.entry ∈ ls.flatten := mem_flatten_of_getElem? hchain (by simp)
  obtain ⟨e, he⟩ := hshape.exists_entry hmem
  have hne := (hshape.buckets.allocated hmem).1
  obtain ⟨p, -, hc⟩ := hshape.buckets.exists_head hchain
  obtain ⟨-, -, q, hq, hc⟩ := chain_cons_iff.mp hc.drop
  obtain rfl : e.next = q := by simpa [nextOf, he] using hq
  cases l₂ with
  | nil =>
    obtain ⟨it', hadv, hpoints, -⟩ := advance_next hshape.buckets hshape.length_ls he hne (chain_nil_iff.mp hc)
    exact ⟨it', hadv, hpoints⟩
  | cons b l₂ =>
    obtain ⟨hb, hbne, -⟩ := chain_cons_iff.mp hc
    have hstands : StandsAt ls { it with parent := it.entry, entry := e.next } (l₁ ++ [it.entry]) b l₂ :=
      ⟨hb, (parentOf_concat _ _).symm, by simpa using hchain⟩
    exact ⟨{ it with parent := it.entry, entry := e.next }, by simp [advance_in_chain he hne (hb ▸ hbne)],
      .here hstands⟩

/-! ### Removing -/

/-- What is left of a table when an entry is taken out: the entries before it and those after it. -/
theorem StandsAt.flatten_eq (h : StandsAt ls it l₁ a l₂) : ∃ pre,
    ls.flatten = pre ++ a :: (l₂ ++ (ls.drop (it.index + 1)).flatten) ∧
      (ls.set it.index (l₁ ++ l₂)).flatten = pre ++ (l₂ ++ (ls.drop (it.index + 1)).flatten) ∧
      (ls.set it.index (l₁ ++ l₂)).drop (it.index + 1) = ls.drop (it.index + 1) := by
  obtain ⟨L₁, L₂, hlen, hls, hset⟩ := exists_split h.chain
  have hdrop : ls.drop (it.index + 1) = L₂ := by
    have hcons := drop_eq_cons h.chain
    rw [hls, ← hlen, List.drop_left] at hcons
    rw [← hlen, hls]
    exact (List.cons.inj hcons).2.symm
  refine ⟨L₁.flatten ++ l₁, ?_, ?_, List.drop_set_of_lt (Nat.lt_succ_self _)⟩
  · rw [hdrop, hls]
    simp
  · rw [hdrop, hset]
    simp

/-- The pointer to the entry the iterator stands at. -/
theorem StandsAt.ptr_eq (h : StandsAt ls it l₁ a l₂) (hshape : Shape s ls) :
    ptrAfter (.slot it.index) l₁ = if it.parent = NULL then .slot it.index else .link it.parent := by
  rw [h.parent]
  refine ptrAfter_eq (fun b hb => ?_) it.index
  exact (hshape.buckets.allocated (mem_flatten_of_getElem? h.chain (List.mem_append_left _ hb))).1

/-- What a removal by the iterator does: the entry is out of the chains and freed, and the iterator goes on. -/
theorem StandsAt.remove_eq (h : StandsAt ls it l₁ a l₂) (hshape : Shape s ls) (he : s.mem.entry a = some e)
    (freeKey : Bool) {table : List ℕ} {entry : ℕ → Option HashEntry} (hentry : entry a = some e)
    (hbuckets : Buckets NULL (nextOf entry) table (ls.set it.index (l₁ ++ l₂)))
    (hstore : (ptrAfter (.slot it.index) l₁).store e.next s =
      some ⟨{ s.htable with table }, { s.mem with entry }⟩) :
    ∃ it', petHtableIterRemove it freeKey s =
        some (if l₂ ++ (ls.drop (it.index + 1)).flatten = [] then 0 else -1, it',
          s.cut table entry a (s.mem.freed ++ if freeKey then [e.key] else [])) ∧
      Points (ls.set it.index (l₁ ++ l₂)) it' (l₂ ++ (ls.drop (it.index + 1)).flatten) := by
  obtain ⟨pre, -, -, hdrop⟩ := h.flatten_eq
  rw [h.ptr_eq hshape] at hstore
  obtain ⟨rfl, hparent, hchain⟩ := h
  have hne := (hshape.buckets.allocated (mem_flatten_of_getElem? (a := it.entry) hchain (by simp))).1
  -- the state in which the iterator goes on: the entry is out of the chains, and not yet freed
  let s₁ : State := ⟨{ s.htable with table, entryCount := countDown s.htable.entryCount },
    ({ s.mem with entry } : Mem).freeWord freeKey e.key⟩
  have hfreed : s₁.mem = ⟨entry, s.mem.freed ++ if freeKey then [e.key] else []⟩ := by
    cases freeKey <;> simp [s₁, Mem.freeWord]
  have he₁ : s₁.mem.entry it.entry = some e := by
    rw [hfreed]
    exact hentry
  have hlen₁ : (ls.set it.index (l₁ ++ l₂)).length = s₁.htable.tableLength := by
    rw [List.length_set, hshape.length_ls]
  obtain ⟨p, -, hc⟩ := hshape.buckets.exists_head hchain
  obtain ⟨-, -, q, hq, hc⟩ := chain_cons_iff.mp hc.drop
  obtain rfl : e.next = q := by simpa [nextOf, he] using hq
  have hfree : s₁.mem.freeEntry it.entry =
      some (s.cut table entry it.entry (s.mem.freed ++ if freeKey then [e.key] else [])).mem := by
    rw [Mem.freeEntry, he₁, hfreed]
    rfl
  have hremove (ret : ℤ) (it' : HashtableIter) (hadv : petHtableIterAdvance it s₁ = some (ret, it')) :
      petHtableIterRemove it freeKey s =
        some (ret, if it'.parent = it.entry then { it' with parent := it.parent } else it',
          s.cut table entry it.entry (s.mem.freed ++ if freeKey then [e.key] else [])) := by
    simp only [petHtableIterRemove, he, hstore, Option.bind_eq_bind, Option.bind_some]
    rw [show petHtableIterAdvance it _ = some (ret, it') from hadv, Option.bind_some]
    rw [show Mem.freeEntry _ it.entry = some _ from hfree, Option.bind_some]
    rfl
  cases l₂ with
  | nil =>
    obtain ⟨it', hadv, hpoints, hnull⟩ := advance_next hbuckets hlen₁ he₁ hne (chain_nil_iff.mp hc)
    have hkeep : it'.parent ≠ it.entry := by
      rw [hnull]
      exact hne.symm
    rw [hdrop] at hadv hpoints
    have heq := hremove _ _ hadv
    rw [if_neg hkeep] at heq
    exact ⟨it', heq, hpoints⟩
  | cons b l₂ =>
    obtain ⟨hb, hbne, -⟩ := chain_cons_iff.mp hc
    have hi := (List.getElem?_eq_some_iff.mp hchain).1
    have hstands : StandsAt (ls.set it.index (l₁ ++ b :: l₂)) { it with entry := e.next } l₁ b l₂ :=
      ⟨hb, hparent, List.getElem?_set_self hi⟩
    have heq := hremove _ _ (advance_in_chain he₁ hne (hb ▸ hbne))
    have hrest : ¬ b :: l₂ ++ (ls.drop (it.index + 1)).flatten = [] := by simp
    have hpoints := Points.here hstands
    rw [if_pos rfl] at heq
    rw [hdrop] at hpoints
    exact ⟨{ it with entry := e.next }, by rw [heq, if_neg hrest], hpoints⟩

/-- **A removal by the iterator** takes out the entry it stands at, frees it, and goes on to the next one. -/
theorem Points.remove (h : Points ls it (a :: rest)) (hrep : Represents s ls) (freeKey : Bool) :
    ∃ e pre it' s' ls', s.mem.entry a = some e ∧ ls.flatten = pre ++ a :: rest ∧
      petHtableIterRemove it freeKey s = some (if rest = [] then 0 else -1, it', s') ∧
      Represents s' ls' ∧ Points ls' it' rest ∧ ls'.flatten = pre ++ rest ∧
      itemOf s'.mem.entry = Function.update (itemOf s.mem.entry) a none ∧
      s'.mem.freed = s.mem.freed ++ (if freeKey then [e.key] else []) := by
  obtain ⟨l₁, l₂, hstands, rfl⟩ := h.exists_here
  obtain ⟨pre, hflat, hflat', -⟩ := hstands.flatten_eq
  obtain ⟨e, he⟩ := hrep.exists_entry (mem_flatten_of_getElem? (a := a) hstands.chain (by simp))
  obtain ⟨table, entry, hstore, htable, hbuckets, hitem, hentry⟩ := store_spec hrep.toShape hstands.chain he
  obtain ⟨it', hremove, hpoints⟩ := hstands.remove_eq hrep.toShape he freeKey hentry hbuckets hstore
  refine ⟨e, pre, it', _, _, he, hflat, hremove, hrep.without hstands.chain htable hbuckets hitem _, hpoints,
    hflat', ?_, rfl⟩
  rw [State.cut, itemOf_update, hitem]
  rfl

/-! ### Searching -/

/-- The search of an iterator passes the entries of other keys, and keeps the one before. -/
theorem iterSearchLoop_skip {key : BitVec 64} {p : ℕ} (it : HashtableIter)
    (hc : Chain NULL (nextOf s.mem.entry) p (l₁ ++ l₂))
    (hl₁ : ∀ a ∈ l₁, ¬ isKey s.htable.fns (itemOf s.mem.entry) key a) (hash : BitVec 32) (index parent : ℕ) :
    ∃ q, Chain NULL (nextOf s.mem.entry) q l₂ ∧ ∀ fuel,
      iterSearchLoop s hash key index it (l₁.length + fuel) parent p =
        iterSearchLoop s hash key index it fuel (l₁.getLast?.getD parent) q := by
  induction l₁ generalizing p parent with
  | nil => exact ⟨p, hc, fun fuel => by simp⟩
  | cons a l₁ ih =>
    obtain ⟨rfl, hne, q, hq, hc⟩ := chain_cons_iff.mp hc
    obtain ⟨e, he⟩ := entry_isSome_of_next (by rw [hq]; simp)
    obtain rfl : e.next = q := by simpa [nextOf, he] using hq
    have hkey : ¬ s.htable.fns.eqFn key e.key := isKey_itemOf he ▸ hl₁ p List.mem_cons_self
    obtain ⟨q, hq', hloop⟩ := ih hc (fun b hb => hl₁ b (List.mem_cons_of_mem _ hb)) p
    refine ⟨q, hq', fun fuel => ?_⟩
    rw [List.getLast?_cons, Option.getD_some, ← hloop fuel, List.length_cons, Nat.add_right_comm, iterSearchLoop]
    simp [hne, he, hkey]

/-- **A search by an iterator** ends at the first entry of the key, and the removal there is the removal of
the key; or there is no entry of the key, and nothing to remove. -/
theorem petHtableIterSearch_spec {fuel : ℕ} (h : Represents s ls) (hlaw : s.htable.fns.Lawful)
    (hfuel : ls.flatten.length < fuel) (it : HashtableIter) (key : BitVec 64) (freeKey : Bool) :
    (petHtableIterSearch fuel it key s = some (0, it) ∧ petHtableRemove fuel key freeKey s = some (0, s)) ∨
      ∃ it₁ v ret it₂ s', petHtableIterSearch fuel it key s = some (-1, it₁) ∧
        petHtableGetIterValue it₁ s = some v ∧ petHtableIterRemove it₁ freeKey s = some (ret, it₂, s') ∧
        petHtableRemove fuel key freeKey s = some (v, s') := by
  obtain ⟨p, l, hp, hl, hc⟩ := h.exists_chain key
  have hlen : l.length < fuel := length_lt_of_mem hfuel (List.mem_of_getElem? hl)
  have hstart : petHtableIterSearch fuel it key s =
      iterSearchLoop s (doHash s.htable.fns key) key (s.indexOf key) it fuel NULL p := by
    have hp' := hp
    rw [State.indexOf] at hp'
    simp only [petHtableIterSearch, hp', Option.bind_eq_bind, Option.bind_some, State.indexOf]
  rcases h.find hlaw key with ⟨hnil, l', hl', hnone⟩ | ⟨l₁, a, l₂, e, hfirst⟩
  · left
    obtain rfl := Option.some.inj (hl.symm.trans hl')
    have hc' := hc
    rw [← List.append_nil l] at hc'
    obtain ⟨q, hq, hloop⟩ := iterSearchLoop_skip it hc' hnone (doHash s.htable.fns key) (s.indexOf key) NULL
    obtain rfl := chain_nil_iff.mp hq
    have hfuel' := hfuel
    obtain ⟨k, rfl⟩ := Nat.exists_eq_add_of_lt hlen
    constructor
    · rw [hstart, Nat.add_assoc, hloop, iterSearchLoop, if_pos rfl]
    · rcases petHtableRemove_spec h hlaw hfuel' freeKey key with ⟨-, heq⟩ | ⟨k, v, rest, -, -, hpairs, -⟩
      · exact heq
      · rw [hnil] at hpairs
        cases hpairs
  · right
    obtain rfl := Option.some.inj (hl.symm.trans hfirst.chain)
    obtain ⟨q, hq, hloop⟩ := iterSearchLoop_skip it hc hfirst.before (doHash s.htable.fns key)
      (s.indexOf key) NULL
    obtain ⟨rfl, hne, -⟩ := chain_cons_iff.mp hq
    have hhash := h.hashed.hash_eq hlaw hfirst.mem hfirst.entry hfirst.eqFn
    have hstands : StandsAt ls ⟨q, parentOf l₁, s.indexOf key⟩ l₁ q l₂ := ⟨rfl, rfl, hfirst.chain⟩
    obtain ⟨table, entry, hstore, htable, hbuckets, hitem, hentry⟩ := store_spec h.toShape hfirst.chain hfirst.entry
    obtain ⟨it₂, hremove, -⟩ := hstands.remove_eq h.toShape hfirst.entry freeKey hentry hbuckets hstore
    refine ⟨_, e.value, _, it₂, _, ?_, ?_, hremove, hfirst.remove_eq h.toShape hlaw hfuel freeKey hentry hstore⟩
    · rw [List.length_append, List.length_cons] at hlen
      obtain ⟨k, hk⟩ := Nat.exists_eq_add_of_lt hlen
      have hsum : fuel = l₁.length + ((l₂.length + 1 + k) + 1) := by omega
      rw [hstart, hsum, hloop, iterSearchLoop]
      simp [hne, hfirst.entry, hhash, hfirst.eqFn, parentOf]
    · simp [petHtableGetIterValue, hfirst.entry]

/-! ### A whole iteration -/

/-- The first chain with an entry, for a new iterator. -/
theorem firstLoop_spec {next : ℕ → Option ℕ} {table : List ℕ} {n : ℕ} (hb : Buckets NULL next table ls)
    (hn : i + n = ls.length) (hentry : it.entry = NULL) (hparent : it.parent = NULL) :
    ∃ it', firstLoop table it n i = some it' ∧ Points ls it' (ls.drop i).flatten := by
  induction n generalizing i with
  | zero =>
    rw [List.drop_of_length_le (by omega)]
    exact ⟨it, rfl, .done hentry⟩
  | succ n ih =>
    obtain ⟨l, hget⟩ : ∃ l, ls[i]? = some l := ⟨_, List.getElem?_eq_getElem (by omega)⟩
    rw [drop_eq_cons hget, List.flatten_cons]
    have hhead := Buckets.head_eq hb hget
    cases l with
    | cons a l =>
      have hne : a ≠ NULL := (hb.allocated (mem_flatten_of_getElem? hget List.mem_cons_self)).1
      have hstands : StandsAt ls { it with index := i, entry := a } [] a l := ⟨rfl, hparent, hget⟩
      exact ⟨_, by simp [firstLoop, hhead, hne], .here hstands⟩
    | nil =>
      obtain ⟨it', hloop, hpoints⟩ := ih (i := i + 1) (by omega)
      exact ⟨it', by simp [firstLoop, hhead, hloop], hpoints⟩

/-- **A new iterator** stands before all entries. -/
theorem petHtableCreateIter_spec (h : Represents s ls) (hsmall : ls.flatten.length < 2 ^ 32) :
    ∃ it, petHtableCreateIter true s = some (some it) ∧ Points ls it ls.flatten := by
  have hcount : s.htable.entryCount = ls.flatten.length := by
    rw [h.count, u32, Nat.mod_eq_of_lt hsmall]
  by_cases hzero : s.htable.entryCount = 0
  · refine ⟨⟨NULL, NULL, s.htable.tableLength⟩, by simp [petHtableCreateIter, hzero], ?_⟩
    rw [List.eq_nil_of_length_eq_zero (hcount.symm.trans hzero)]
    exact .done rfl
  · have hparent : (⟨NULL, NULL, s.htable.tableLength⟩ : HashtableIter).parent = NULL := rfl
    obtain ⟨it, hloop, hpoints⟩ := firstLoop_spec (i := 0) (n := s.htable.tableLength) h.buckets
      (by rw [h.length_ls, Nat.zero_add]) rfl hparent
    rw [List.drop_zero] at hpoints
    exact ⟨it, by simp [petHtableCreateIter, hzero, hloop], hpoints⟩

/-- What is done at an entry before the next one. -/
inductive Move where
  | advance
  | remove (freeKey : Bool)
deriving DecidableEq, Repr

def Move.exec (it : HashtableIter) (s : State) : Move → Option (ℤ × HashtableIter × State)
  | .advance => (petHtableIterAdvance it s).map fun x => (x.1, x.2, s)
  | .remove freeKey => petHtableIterRemove it freeKey s

/-- An entry as the iterator shows it, and what the move from it returns. -/
structure Visit where
  key : BitVec 64
  value : BitVec 64
  ret : ℤ
deriving DecidableEq, Repr

/-- The key and the value are read, and the iterator moves on, once for each move. -/
def iterate : List Move → HashtableIter → State → Option (List Visit × HashtableIter × State)
  | [], it, s => some ([], it, s)
  | mv :: mvs, it, s => do
    let key ← petHtableGetIterKey it s
    let value ← petHtableGetIterValue it s
    let (ret, it, s) ← mv.exec it s
    let (vs, it, s) ← iterate mvs it s
    some (⟨key, value, ret⟩ :: vs, it, s)

/-- The visits of the entries `rest`: a move returns nonzero as long as there is another entry. -/
def visitsOf (item : ℕ → Option Item) : List ℕ → List Visit
  | [] => []
  | a :: rest =>
    ((item a).toList.map fun it => ⟨it.key, it.value, if rest = [] then 0 else -1⟩) ++ visitsOf item rest

/-- The entries that are advanced over. -/
def staying (rest : List ℕ) (mvs : List Move) : List ℕ :=
  ((rest.zip mvs).filter fun x => x.2 = .advance).map Prod.fst

/-- The keys of the entries that are removed with their keys freed. -/
def freedKeys (item : ℕ → Option Item) (rest : List ℕ) (mvs : List Move) : List (BitVec 64) :=
  ((rest.zip mvs).filter fun x => x.2 = .remove true).filterMap fun x => (item x.1).map Item.key

theorem visitsOf_congr {item item' : ℕ → Option Item} (h : ∀ a ∈ rest, item a = item' a) :
    visitsOf item rest = visitsOf item' rest := by
  induction rest with
  | nil => rfl
  | cons a rest ih =>
    rw [visitsOf, visitsOf, h a List.mem_cons_self, ih fun b hb => h b (List.mem_cons_of_mem _ hb)]

theorem freedKeys_congr {item item' : ℕ → Option Item} {mvs : List Move} (h : ∀ a ∈ rest, item a = item' a) :
    freedKeys item rest mvs = freedKeys item' rest mvs := by
  refine List.filterMap_congr fun x hx => ?_
  rw [h x.1 (List.of_mem_zip (List.mem_of_mem_filter hx)).1]

/-- **An iteration**, from any position on. -/
theorem Points.iterate {mvs : List Move} {kept : List ℕ} (h : Points ls it rest) (hrep : Represents s ls)
    (hflat : ls.flatten = kept ++ rest) (hlen : mvs.length = rest.length) :
    ∃ it' s' ls', iterate mvs it s = some (visitsOf (itemOf s.mem.entry) rest, it', s') ∧ Represents s' ls' ∧
      it'.entry = NULL ∧ ls'.flatten = kept ++ staying rest mvs ∧
      (∀ a ∈ ls'.flatten, itemOf s'.mem.entry a = itemOf s.mem.entry a) ∧
      s'.mem.freed = s.mem.freed ++ freedKeys (itemOf s.mem.entry) rest mvs := by
  induction rest generalizing mvs it s ls kept with
  | nil =>
    obtain rfl := List.eq_nil_of_length_eq_zero hlen
    have hnull : it.entry = NULL := by
      generalize hr : ([] : List ℕ) = r at h
      cases h with
      | done h => exact h
      | here _ => simp at hr
    exact ⟨it, s, ls, rfl, hrep, hnull, by simpa [staying] using hflat, fun _ _ => rfl, by simp [freedKeys]⟩
  | cons a rest ih =>
    obtain ⟨mv, mvs, rfl⟩ := List.exists_cons_of_length_eq_add_one hlen
    have hentry : it.entry = a := h.exists_here.elim fun _ h => h.elim fun _ h => h.1.entry
    obtain ⟨e, he⟩ := hrep.exists_entry (a := a) (by rw [hflat]; simp)
    have hitem : itemOf s.mem.entry a = some e.item := by simp [itemOf, he]
    have hkey : petHtableGetIterKey it s = some e.key := by simp [petHtableGetIterKey, hentry, he]
    have hvalue : petHtableGetIterValue it s = some e.value := by simp [petHtableGetIterValue, hentry, he]
    have hnd := hflat ▸ hrep.buckets.nodup
    have hnd' := List.nodup_cons.mp (List.nodup_append.mp hnd).2.1
    cases mv with
    | advance =>
      obtain ⟨it₁, hadv, hpoints⟩ := h.advance hrep.toShape
      have hflat₁ : ls.flatten = (kept ++ [a]) ++ rest := by simp [hflat]
      have hlen₁ : mvs.length = rest.length := by simpa using hlen
      obtain ⟨it', s', ls', hiter, hrep', hnull, hflat', hsame, hfreed⟩ := ih hpoints hrep hflat₁ hlen₁
      refine ⟨it', s', ls', ?_, hrep', hnull, ?_, hsame, ?_⟩
      · simp [Htable.iterate, hkey, hvalue, Move.exec, hadv, hiter, visitsOf, hitem, HashEntry.item]
      · simp [hflat', staying]
      · simpa [freedKeys] using hfreed
    | remove freeKey =>
      obtain ⟨e', pre, it₁, s₁, ls₁, he', hflat₀, hrem, hrep₁, hpoints, hflat₁, hitem₁, hfreed₁⟩ :=
        h.remove hrep freeKey
      obtain rfl : e = e' := Option.some.inj (he.symm.trans he')
      obtain rfl : pre = kept := by
        rw [hflat] at hflat₀
        exact (List.append_cancel_right hflat₀).symm
      have hlen₁ : mvs.length = rest.length := by simpa using hlen
      obtain ⟨it', s', ls', hiter, hrep', hnull, hflat', hsame, hfreed⟩ := ih hpoints hrep₁ hflat₁ hlen₁
      have hrest (b : ℕ) (hb : b ∈ rest) : itemOf s₁.mem.entry b = itemOf s.mem.entry b := by
        rw [hitem₁, Function.update_of_ne]
        rintro rfl
        exact hnd'.1 hb
      refine ⟨it', s', ls', ?_, hrep', hnull, ?_, ?_, ?_⟩
      · rw [visitsOf_congr hrest] at hiter
        simp [Htable.iterate, hkey, hvalue, Move.exec, hrem, hiter, visitsOf, hitem, HashEntry.item]
      · simp [hflat', staying]
      · intro b hb
        rw [hsame b hb, hitem₁, Function.update_of_ne]
        rintro rfl
        rw [hflat'] at hb
        rcases List.mem_append.mp hb with hb | hb
        · exact (List.disjoint_of_nodup_append hnd) hb List.mem_cons_self
        · obtain ⟨x, hx, rfl⟩ := List.mem_map.mp hb
          exact hnd'.1 (List.of_mem_zip (List.mem_of_mem_filter hx)).1
      · rw [hfreed, hfreed₁, freedKeys_congr hrest]
        cases freeKey <;> simp [freedKeys, hitem, HashEntry.item]

end

/-- **Every entry once**: an iteration over a table that any run has led to shows every entry of it, and nothing
else, in the order of the chains; the entries it removes are gone in the end, and the others are as they were. -/
theorem iterate_reachable {fns : KeyFns} {minSize fuel : ℕ} {T : Hashtable} {ops : List Op} {rs : List Ret}
    {s : State} {mvs : List Move} (hlaw : fns.Lawful)
    (hcreate : petCreateHtable minSize fns (true, true) = some (some T)) (hfuel : ops.length ≤ fuel)
    (hfresh : freshRun fuel ops T.start) (hrun : run fuel ops T.start = some (rs, s)) (hsmall : ops.length < 2 ^ 32)
    (hmvs : mvs.length = petHtableCount s) :
    ∃ ls it it' s' ls', Represents s ls ∧ petHtableCreateIter true s = some (some it) ∧
      iterate mvs it s = some (visitsOf (itemOf s.mem.entry) ls.flatten, it', s') ∧ it'.entry = NULL ∧
      Represents s' ls' ∧ ls'.flatten = staying ls.flatten mvs ∧
      (∀ a ∈ ls'.flatten, itemOf s'.mem.entry a = itemOf s.mem.entry a) ∧
      s'.mem.freed = s.mem.freed ++ freedKeys (itemOf s.mem.entry) ls.flatten mvs := by
  obtain ⟨ls, hrep, -, hlen⟩ := run_represents hlaw hcreate hfuel hfresh hrun
  have hcount : petHtableCount s = ls.flatten.length := by
    rw [petHtableCount, hrep.count, u32, Nat.mod_eq_of_lt (by omega)]
  obtain ⟨it, hiter, hpoints⟩ := petHtableCreateIter_spec hrep (by omega)
  obtain ⟨it', s', ls', hiterate, hrep', hnull, hflat, hsame, hfreed⟩ :=
    hpoints.iterate hrep (List.nil_append _).symm (hmvs.trans hcount)
  exact ⟨ls, it, it', s', ls', hrep, hiter, hiterate, hnull, hrep', hflat, hsame, hfreed⟩

/-- Two entries, of which the first one shown is removed. -/
theorem iterate_reachable_two : ∃ rs s,
    run 2 [.insert 1 10 ⟨true, true, 100⟩, .insert 2 20 ⟨true, true, 200⟩] ptrTable.start = some (rs, s) ∧
      ∃ ls it it' s' ls', Represents s ls ∧ petHtableCreateIter true s = some (some it) ∧
        iterate [.remove true, .advance] it s = some (visitsOf (itemOf s.mem.entry) ls.flatten, it', s') ∧
        it'.entry = NULL ∧ Represents s' ls' ∧ ls'.flatten = staying ls.flatten [.remove true, .advance] ∧
        (∀ a ∈ ls'.flatten, itemOf s'.mem.entry a = itemOf s.mem.entry a) ∧
        s'.mem.freed = s.mem.freed ++ freedKeys (itemOf s.mem.entry) ls.flatten [.remove true, .advance] := by
  have hcount : (run 2 [.insert 1 10 ⟨true, true, 100⟩, .insert 2 20 ⟨true, true, 200⟩] ptrTable.start).map
      (fun x => petHtableCount x.2) = some 2 := by decide +kernel
  obtain ⟨⟨rs, s⟩, hrun, hcount⟩ := Option.map_eq_some_iff.mp hcount
  exact ⟨rs, s, hrun, iterate_reachable ptrFns_lawful ptrTable_created (by decide) (by decide +kernel) hrun (by decide)
    hcount.symm⟩

/-- **A search by an iterator and a removal there** are a removal of the key, on every table that a run has led
to: the same table, the same heap, and the value the iterator showed. -/
theorem iterSearch_reachable {fns : KeyFns} {minSize fuel : ℕ} {T : Hashtable} {ops : List Op} {rs : List Ret}
    {s : State} (hlaw : fns.Lawful) (hcreate : petCreateHtable minSize fns (true, true) = some (some T))
    (hfuel : ops.length < fuel) (hfresh : freshRun fuel ops T.start) (hrun : run fuel ops T.start = some (rs, s))
    (it : HashtableIter) (key : BitVec 64) (freeKey : Bool) :
    (petHtableIterSearch fuel it key s = some (0, it) ∧ petHtableRemove fuel key freeKey s = some (0, s)) ∨
      ∃ it₁ v ret it₂ s', petHtableIterSearch fuel it key s = some (-1, it₁) ∧
        petHtableGetIterValue it₁ s = some v ∧ petHtableIterRemove it₁ freeKey s = some (ret, it₂, s') ∧
        petHtableRemove fuel key freeKey s = some (v, s') := by
  obtain ⟨ls, hrep, hfns, hlen⟩ := run_represents hlaw hcreate (Nat.le_of_lt hfuel) hfresh hrun
  exact petHtableIterSearch_spec hrep (hfns ▸ hlaw) (Nat.lt_of_le_of_lt hlen hfuel) it key freeKey

/-- One entry, searched for and removed. -/
theorem iterSearch_reachable_one : ∃ rs s, run 2 [.insert 1 10 ⟨true, true, 100⟩] ptrTable.start = some (rs, s) ∧
    ((petHtableIterSearch 2 ⟨NULL, NULL, 0⟩ 1 s = some (0, ⟨NULL, NULL, 0⟩) ∧
        petHtableRemove 2 1 true s = some (0, s)) ∨
      ∃ it₁ v ret it₂ s', petHtableIterSearch 2 ⟨NULL, NULL, 0⟩ 1 s = some (-1, it₁) ∧
        petHtableGetIterValue it₁ s = some v ∧ petHtableIterRemove it₁ true s = some (ret, it₂, s') ∧
        petHtableRemove 2 1 true s = some (v, s')) := by
  have hsome : (run 2 [.insert 1 10 ⟨true, true, 100⟩] ptrTable.start).isSome := by decide +kernel
  obtain ⟨⟨rs, s⟩, hrun⟩ := Option.isSome_iff_exists.mp hsome
  exact ⟨rs, s, hrun, iterSearch_reachable ptrFns_lawful ptrTable_created (by decide) (by decide +kernel) hrun
    ⟨NULL, NULL, 0⟩ 1 true⟩

end PetLab.Threads.Htable
