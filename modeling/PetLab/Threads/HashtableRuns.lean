import Mathlib.Data.Option.Basic
import PetLab.Threads.HashtableOps

/-!
# The hash table is an ordered multimap

What the table is for: a `Multimap` keeps, for every key, the entries inserted under it, the
latest first. It knows nothing of places, chains or pointers; of the table's size it keeps the
index, because growing is visible: it reverses the entries of every key.

* `run_refines`: every run of operations on a table gives what the multimap gives, result by
  result, and ends in a table that holds what the multimap holds. Where the multimap has no
  result, at an insertion that has to grow the table, does not get a new one and does get
  the old one reallocated, neither has the program.
-/

namespace PetLab.Threads.Htable

open PetLab.Lib

/-! ### The operations -/

/-- A call of a function of the table, with what the allocator answers. -/
inductive Op where
  | insert (key value : BitVec 64) (ans : Answer)
  | change (key value : BitVec 64) (freeValue : Bool)
  | inc (key value : BitVec 64)
  | dec (key value : BitVec 64)
  | search (key : BitVec 64)
  | remove (key : BitVec 64) (freeKey : Bool)
  | count
deriving DecidableEq, Repr

/-- What a call returns: an `int`, a `uintptr_t` or a `uint32_t`. -/
inductive Ret where
  | int (n : ℤ)
  | word (w : BitVec 64)
  | uint (n : ℕ)
deriving DecidableEq, Repr

/-- The call, on a table. -/
def Op.exec (fuel : ℕ) (s : State) : Op → Option (Ret × State)
  | .insert key value ans => (petHtableInsert fuel key value ans s).map (Prod.map .int id)
  | .change key value freeValue => (petHtableChange fuel key value freeValue s).map (Prod.map .int id)
  | .inc key value => (petHtableInc fuel key value s).map (Prod.map .int id)
  | .dec key value => (petHtableDec fuel key value s).map (Prod.map .int id)
  | .search key => (petHtableSearch fuel key s).map fun w => (.word w, s)
  | .remove key freeKey => (petHtableRemove fuel key freeKey s).map (Prod.map .word id)
  | .count => some (.uint (petHtableCount s), s)

/-- The allocator gives no entry that is in use. -/
def Op.fresh (s : State) : Op → Bool
  | .insert _ _ ans => (s.mem.entry ans.newEntry).isNone
  | _ => true

/-- A run of calls, and what they return. -/
def run (fuel : ℕ) : List Op → State → Option (List Ret × State)
  | [], s => some ([], s)
  | op :: ops, s => do
    let (r, s) ← op.exec fuel s
    let (rs, s) ← run fuel ops s
    some (r :: rs, s)

/-- The allocator gives no entry that is in use, all along a run. -/
def freshRun (fuel : ℕ) : List Op → State → Bool
  | [], _ => true
  | op :: ops, s => op.fresh s && (op.exec fuel s).all fun x => freshRun fuel ops x.2

/-- A table and no entries. -/
def Hashtable.start (T : Hashtable) : State := ⟨T, ⟨fun _ => none, []⟩⟩

/-! ### The multimap -/

/-- For every key the entries inserted under it, the first one first. -/
structure Multimap where
  pairs : BitVec 64 → List (BitVec 64 × BitVec 64)
  /-- The number of entries. -/
  count : ℕ
  primeIndex : ℕ
  /-- The keys and values given back to the allocator. -/
  freed : List (BitVec 64)

/-- The entries of the keys equal to `key` become `l`. -/
def Multimap.set (fns : KeyFns) (M : Multimap) (key : BitVec 64) (l : List (BitVec 64 × BitVec 64)) : Multimap :=
  { M with pairs := fun k => if fns.eqFn k key then l else M.pairs k }

/-- The next insertion has the table grow, if there is the memory for it. -/
def Multimap.Full (M : Multimap) : Prop :=
  loadFactors.getD M.primeIndex 0 < u32 (M.count + 1) ∧ M.primeIndex ≠ primeTableLen - 1

instance (M : Multimap) : Decidable M.Full := inferInstanceAs (Decidable (_ ∧ _))

/-- The insertion has to grow the table, gets no new one and gets the old one reallocated. -/
def Multimap.Wild (M : Multimap) (ans : Answer) : Prop := M.Full ∧ ans.newTable = false ∧ ans.realloc = true

/-- The insertion has the table grow. -/
def Multimap.Grows (M : Multimap) (ans : Answer) : Prop := M.Full ∧ ans.newTable = true

instance (M : Multimap) (ans : Answer) : Decidable (M.Wild ans) := inferInstanceAs (Decidable (_ ∧ _))

instance (M : Multimap) (ans : Answer) : Decidable (M.Grows ans) := inferInstanceAs (Decidable (_ ∧ _))

/-- The table has grown: the entries of every key are reversed. -/
def Multimap.reversed (M : Multimap) : Multimap :=
  { M with pairs := fun k => (M.pairs k).reverse, primeIndex := M.primeIndex + 1 }

def Multimap.insert (fns : KeyFns) (M : Multimap) (key value : BitVec 64) (newEntry : ℕ) : Ret × Multimap :=
  if newEntry = NULL then (.int 0, M)
  else (.int (-1), { M.set fns key ((key, value) :: M.pairs key) with count := M.count + 1 })

/-- The first entry of the key gets another value. -/
def Multimap.onFirst (fns : KeyFns) (f : BitVec 64 → BitVec 64) (freeValue : Bool) (M : Multimap) (key : BitVec 64) :
    Ret × Multimap :=
  match M.pairs key with
  | [] => (.int 0, M)
  | (k, v) :: rest =>
    (.int (-1), { M.set fns key ((k, f v) :: rest) with freed := M.freed ++ if freeValue then [v] else [] })

/-- The first entry of the key is taken out. -/
def Multimap.remove (fns : KeyFns) (freeKey : Bool) (M : Multimap) (key : BitVec 64) : Ret × Multimap :=
  match M.pairs key with
  | [] => (.word 0, M)
  | (k, v) :: rest =>
    (.word v, { M.set fns key rest with count := M.count - 1, freed := M.freed ++ if freeKey then [k] else [] })

/-- The call, on a multimap. -/
def Multimap.step (fns : KeyFns) (M : Multimap) : Op → Option (Ret × Multimap)
  | .insert key value ans =>
    if M.Wild ans then none
    else some ((if M.Grows ans then M.reversed else M).insert fns key value ans.newEntry)
  | .change key value freeValue => some (M.onFirst fns (fun _ => value) freeValue key)
  | .inc key value => some (M.onFirst fns (fun v => v + value) false key)
  | .dec key value => some (M.onFirst fns (fun v => v - value) false key)
  | .search key => some (.word ((M.pairs key).head?.elim 0 Prod.snd), M)
  | .remove key freeKey => some (M.remove fns freeKey key)
  | .count => some (.uint (u32 M.count), M)

def Multimap.run (fns : KeyFns) : List Op → Multimap → Option (List Ret × Multimap)
  | [], M => some ([], M)
  | op :: ops, M => do
    let (r, M) ← M.step fns op
    let (rs, M) ← Multimap.run fns ops M
    some (r :: rs, M)

/-! ### Refinement -/

/-- The table holds what the multimap holds. -/
structure Holds (fns : KeyFns) (s : State) (M : Multimap) (ls : List (List ℕ)) : Prop where
  table : Represents s ls
  fns_eq : s.htable.fns = fns
  pairs : ∀ k, M.pairs k = pairsIn fns (itemOf s.mem.entry) k ls.flatten
  count : M.count = ls.flatten.length
  primeIndex : M.primeIndex = s.htable.primeIndex
  freed : M.freed = s.mem.freed

/-- The table holds what the multimap holds, in chains of some kind. -/
def Abstracts (fns : KeyFns) (s : State) (M : Multimap) : Prop := ∃ ls, Holds fns s M ls

/-- Both sides have the same result and agree afterwards, or neither has a result. -/
def Agree {β γ : Type} (fns : KeyFns) (x : Option (γ × State)) (y : Option (γ × β)) (P : KeyFns → State → β → Prop) :
    Prop := Option.Rel (fun x y => x.1 = y.1 ∧ P fns x.2 y.2) x y

section

variable {fns : KeyFns} {s : State} {M : Multimap} {ls : List (List ℕ)} {fuel : ℕ}

theorem Holds.full_iff (h : Holds fns s M ls) : M.Full ↔ s.Full := by
  have hload : loadFactors.getD M.primeIndex 0 = s.htable.loadLimit := by
    rw [List.getD_eq_getElem?_getD, h.primeIndex, h.table.load, Option.getD_some]
  rw [Multimap.Full, State.Full, hload, h.primeIndex, h.count, h.table.count, countUp_eq]

theorem Holds.wild_iff (h : Holds fns s M ls) (ans : Answer) : M.Wild ans ↔ Wild s ans := and_congr_left' h.full_iff

theorem Holds.grows_iff (h : Holds fns s M ls) (ans : Answer) : M.Grows ans ↔ Grows s ans :=
  and_congr_left' h.full_iff

/-- **The first entry of a key** of the table is that of the multimap. -/
theorem Holds.onEntry (h : Holds fns s M ls) (hlaw : fns.Lawful) (hfuel : M.count < fuel)
    (f : BitVec 64 → BitVec 64) (freeValue : Bool) (key : BitVec 64) :
    ∃ s' n, onEntry f freeValue fuel key s = some (n, s') ∧ (M.onFirst fns f freeValue key).1 = .int n ∧
      Abstracts fns s' (M.onFirst fns f freeValue key).2 := by
  obtain rfl := h.fns_eq
  rw [h.count] at hfuel
  rcases onEntry_spec h.table hlaw hfuel f freeValue key with ⟨hnil, heq⟩ |
    ⟨k, v, rest, mem, hpairs, heq, htable, hfreed, hnew⟩
  · rw [← h.pairs] at hnil
    refine ⟨s, 0, heq, ?_, ?_⟩ <;> simp only [Multimap.onFirst, hnil]
    exact ⟨ls, h⟩
  · rw [← h.pairs] at hpairs
    refine ⟨_, -1, heq, ?_, ?_⟩ <;> simp only [Multimap.onFirst, hpairs]
    refine ⟨ls, htable, rfl, fun k' => ?_, h.count, h.primeIndex, by rw [hfreed, h.freed]⟩
    rw [hnew k', ← h.pairs k']
    rfl

theorem Holds.remove (h : Holds fns s M ls) (hlaw : fns.Lawful) (hfuel : M.count < fuel) (freeKey : Bool)
    (key : BitVec 64) : ∃ s' w, petHtableRemove fuel key freeKey s = some (w, s') ∧
      (M.remove fns freeKey key).1 = .word w ∧ Abstracts fns s' (M.remove fns freeKey key).2 := by
  obtain rfl := h.fns_eq
  rw [h.count] at hfuel
  rcases petHtableRemove_spec h.table hlaw hfuel freeKey key with ⟨hnil, heq⟩ |
    ⟨k, v, rest, s', ls', hpairs, heq, htable, hfns, hprime, hlen, hfreed, hnew⟩
  · rw [← h.pairs] at hnil
    refine ⟨s, 0, heq, ?_, ?_⟩ <;> simp only [Multimap.remove, hnil]
    exact ⟨ls, h⟩
  · rw [← h.pairs] at hpairs
    refine ⟨s', v, heq, ?_, ?_⟩ <;> simp only [Multimap.remove, hpairs]
    refine ⟨ls', htable, hfns, fun k' => ?_, ?_, h.primeIndex.trans hprime.symm, by rw [hfreed, h.freed]⟩
    · rw [hnew k', ← h.pairs k']
      rfl
    · show M.count - 1 = _
      rw [h.count]
      omega

theorem Holds.insert (h : Holds fns s M ls) (hlaw : fns.Lawful) (hfuel : M.count < fuel) {ans : Answer}
    (hwild : ¬ M.Wild ans) (hfresh : itemOf s.mem.entry ans.newEntry = none) (key value : BitVec 64) :
    ∃ s' n, petHtableInsert fuel key value ans s = some (n, s') ∧
      ((if M.Grows ans then M.reversed else M).insert fns key value ans.newEntry).1 = .int n ∧
      Abstracts fns s' ((if M.Grows ans then M.reversed else M).insert fns key value ans.newEntry).2 := by
  obtain rfl := h.fns_eq
  rw [h.count] at hfuel
  rw [h.wild_iff] at hwild
  obtain ⟨s', ls', heq, htable, hfns, hfreed, hprime, hlen, hnew⟩ :=
    petHtableInsert_spec h.table hlaw hfuel hwild hfresh key value
  simp only [← h.grows_iff] at hprime hnew
  generalize hM : (if M.Grows ans then M.reversed else M) = M₁
  have hpairs (k : BitVec 64) : M₁.pairs k =
      if M.Grows ans then (pairsIn s.htable.fns (itemOf s.mem.entry) k ls.flatten).reverse
      else pairsIn s.htable.fns (itemOf s.mem.entry) k ls.flatten := by
    rw [← hM, ← h.pairs k]
    split <;> rfl
  have hcount : M₁.count = M.count := by
    rw [← hM]
    split <;> rfl
  have hfreed₁ : M₁.freed = M.freed := by
    rw [← hM]
    split <;> rfl
  have hprime₁ : M₁.primeIndex = s'.htable.primeIndex := by
    rw [← hM, hprime, ← h.primeIndex]
    split <;> rfl
  refine ⟨s', _, heq, ?_, ls', htable, hfns, fun k => ?_, ?_, ?_, ?_⟩
  all_goals rw [Multimap.insert]
  · split <;> rfl
  · rw [hnew k, ← hpairs k]
    by_cases hnull : ans.newEntry = NULL
    · simp [hnull]
    · by_cases hk : s.htable.fns.eqFn k key
      · have hkey : M₁.pairs key = M₁.pairs k := by
          rw [hpairs, hpairs, pairsIn_congr_key hlaw hk]
        simp [hnull, hk, Multimap.set, hkey]
      · simp [hnull, hk, Multimap.set]
  · rw [hlen, ← h.count, ← hcount]
    split <;> rfl
  · rw [← hprime₁]
    split <;> rfl
  · rw [hfreed, ← h.freed, ← hfreed₁]
    split <;> rfl

/-- **One call.** -/
theorem Op.exec_refines (h : Abstracts fns s M) (hlaw : fns.Lawful) (op : Op) (hfuel : M.count < fuel)
    (hfresh : op.fresh s) : Agree fns (op.exec fuel s) (M.step fns op) Abstracts := by
  obtain ⟨ls, h⟩ := h
  have hentry (f : BitVec 64 → BitVec 64) (freeValue : Bool) (key : BitVec 64) :
      Agree fns ((onEntry f freeValue fuel key s).map (Prod.map .int id)) (some (M.onFirst fns f freeValue key))
        Abstracts := by
    obtain ⟨s', n, heq, hret, habs⟩ := h.onEntry hlaw hfuel f freeValue key
    rw [heq]
    exact .some ⟨hret.symm, habs⟩
  cases op with
  | insert key value ans =>
    rw [Op.exec, Multimap.step]
    by_cases hwild : M.Wild ans
    · rw [if_pos hwild, petHtableInsert_eq, growth_wild h.table.toShape ((h.wild_iff ans).mp hwild)]
      exact .none
    · have hitem : itemOf s.mem.entry ans.newEntry = none := by
        simpa [Op.fresh, itemOf, Option.isNone_iff_eq_none] using hfresh
      obtain ⟨s', n, heq, hret, habs⟩ := h.insert hlaw hfuel hwild hitem key value
      rw [if_neg hwild, heq]
      exact .some ⟨hret.symm, habs⟩
  | change key value freeValue => exact hentry _ _ _
  | inc key value => exact hentry _ _ _
  | dec key value => exact hentry _ _ _
  | search key =>
    obtain rfl := h.fns_eq
    rw [Op.exec, petHtableSearch_spec h.table.toShape hlaw (h.count ▸ hfuel), ← h.pairs]
    exact .some ⟨rfl, ls, h⟩
  | remove key freeKey =>
    obtain ⟨s', w, heq, hret, habs⟩ := h.remove hlaw hfuel freeKey key
    rw [Op.exec, heq]
    exact .some ⟨hret.symm, habs⟩
  | count =>
    refine .some ⟨?_, ls, h⟩
    rw [petHtableCount, h.table.count, ← h.count]

/-- A call adds one entry at most. -/
theorem Multimap.count_step {op : Op} {r : Ret} {M' : Multimap} (h : M.step fns op = some (r, M')) :
    M'.count ≤ M.count + 1 := by
  have hfirst (f : BitVec 64 → BitVec 64) (freeValue : Bool) (key : BitVec 64) :
      (M.onFirst fns f freeValue key).2.count = M.count := by
    rw [Multimap.onFirst]
    split <;> rfl
  cases op with
  | insert key value ans =>
    by_cases hwild : M.Wild ans
    · rw [Multimap.step, if_pos hwild] at h
      cases h
    · rw [Multimap.step, if_neg hwild] at h
      obtain rfl : _ = M' := congrArg Prod.snd (Option.some.inj h)
      have hcount : (if M.Grows ans then M.reversed else M).count = M.count := by split <;> rfl
      rw [Multimap.insert]
      split
      · exact Nat.le_succ_of_le (Nat.le_of_eq hcount)
      · exact Nat.succ_le_succ (Nat.le_of_eq hcount)
  | change key value freeValue =>
    obtain rfl : _ = M' := congrArg Prod.snd (Option.some.inj h)
    exact Nat.le_succ_of_le (Nat.le_of_eq (hfirst _ _ _))
  | inc key value =>
    obtain rfl : _ = M' := congrArg Prod.snd (Option.some.inj h)
    exact Nat.le_succ_of_le (Nat.le_of_eq (hfirst _ _ _))
  | dec key value =>
    obtain rfl : _ = M' := congrArg Prod.snd (Option.some.inj h)
    exact Nat.le_succ_of_le (Nat.le_of_eq (hfirst _ _ _))
  | search key =>
    obtain rfl : M = M' := congrArg Prod.snd (Option.some.inj h)
    exact Nat.le_succ _
  | remove key freeKey =>
    obtain rfl : _ = M' := congrArg Prod.snd (Option.some.inj h)
    rw [Multimap.remove]
    split
    · exact Nat.le_succ _
    · exact Nat.le_succ_of_le (Nat.sub_le _ _)
  | count =>
    obtain rfl : M = M' := congrArg Prod.snd (Option.some.inj h)
    exact Nat.le_succ _

/-- A run, from any table that holds what a multimap holds. -/
theorem Abstracts.run {ops : List Op} (h : Abstracts fns s M) (hlaw : fns.Lawful)
    (hfuel : M.count + ops.length < fuel + 1) (hfresh : freshRun fuel ops s) :
    Agree fns (run fuel ops s) (M.run fns ops) Abstracts := by
  induction ops generalizing s M with
  | nil => exact .some ⟨rfl, h⟩
  | cons op ops ih =>
    rw [freshRun, Bool.and_eq_true] at hfresh
    rw [List.length_cons] at hfuel
    have hlt : M.count < fuel := by omega
    have hstep := op.exec_refines h hlaw hlt hfresh.1
    have hrest := hfresh.2
    rw [Htable.run, Multimap.run]
    generalize op.exec fuel s = x at hstep hrest
    generalize hy : M.step fns op = y at hstep
    cases hstep with
    | none => exact .none
    | some hrel =>
      rename_i x y
      obtain ⟨r, s₁⟩ := x
      obtain ⟨r', M₁⟩ := y
      obtain ⟨hr, habs⟩ : r = r' ∧ Abstracts fns s₁ M₁ := hrel
      have hcount := Multimap.count_step hy
      have htail := ih habs (by omega) (by simpa using hrest)
      simp only [Option.bind_eq_bind, Option.bind_some]
      generalize Htable.run fuel ops s₁ = x at htail
      generalize M₁.run fns ops = y at htail
      cases htail with
      | none => exact .none
      | some hrel => exact .some ⟨by rw [hr, hrel.1], hrel.2⟩

end

/-! ### A new table -/

theorem createLoop_spec {minSize i : ℕ} {l : List ℕ} (size : ℕ) (h : ∃ p ∈ l, minSize < p) :
    ∃ k p, createLoop minSize size l i = (p, i + k) ∧ l[k]? = some p ∧ minSize < p ∧
      ∀ q ∈ l.take k, q ≤ minSize := by
  induction l generalizing i with
  | nil => simp at h
  | cons a l ih =>
    by_cases ha : minSize < a
    · exact ⟨0, a, by simp [createLoop, ha], rfl, ha, by simp⟩
    · obtain ⟨k, p, hloop, hk, hp, hbefore⟩ := ih (i := i + 1) (by
        obtain ⟨p, hp, hlt⟩ := h
        rcases List.mem_cons.mp hp with rfl | hp
        · exact absurd hlt ha
        · exact ⟨p, hp, hlt⟩)
      refine ⟨k + 1, p, ?_, hk, hp, ?_⟩
      · rw [createLoop, if_neg ha, hloop, Nat.add_right_comm, Nat.add_assoc]
      · intro q hq
        rcases List.mem_cons.mp hq with rfl | hq
        · omega
        · exact hbefore q hq

/-- **A new table** has the first size above the one asked for, and no entries. -/
theorem petCreateHtable_spec {minSize : ℕ} (hmin : minSize ≤ 2 ^ 30) (fns : KeyFns) :
    ∃ T, petCreateHtable minSize fns (true, true) = some (some T) ∧ T.fns = fns ∧ minSize < T.tableLength ∧
      (∀ q ∈ primes.take T.primeIndex, q ≤ minSize) ∧
      Represents T.start (List.replicate T.tableLength []) := by
  have hex : ∃ p ∈ primes, minSize < p := ⟨1610612741, by decide, by omega⟩
  obtain ⟨k, p, hloop, hk, hp, hbefore⟩ := createLoop_spec (i := 0) (primes.headD 0) hex
  rw [Nat.zero_add] at hloop
  obtain ⟨limit, hlimit⟩ : ∃ n, loadFactors[k]? = some n :=
    ⟨_, List.getElem?_eq_getElem (length_loadFactors ▸ (List.getElem?_eq_some_iff.mp hk).1)⟩
  refine ⟨⟨List.replicate p NULL, p, 0, limit, k, fns⟩, ?_, rfl, hp, hbefore, ?_⟩
  · simp only [petCreateHtable, if_neg (Nat.not_lt.mpr hmin), hloop, hlimit, Option.map_some]
    rfl
  · refine ⟨⟨buckets_replicate p, List.length_replicate, hk, hlimit, ?_, ?_⟩, ?_⟩
    · intro i l a it _ _ hit
      simp [Hashtable.start, itemOf] at hit
    · intro a ha
      simp [Hashtable.start, itemOf] at ha
    · simp [Hashtable.start, u32]

/-- A table that has been created is empty. -/
theorem represents_of_create {fns : KeyFns} {minSize : ℕ} {T : Hashtable}
    (hcreate : petCreateHtable minSize fns (true, true) = some (some T)) :
    T.fns = fns ∧ Represents T.start (List.replicate T.tableLength []) := by
  have hmin : minSize ≤ 2 ^ 30 := by
    apply Nat.le_of_not_lt
    intro hlt
    rw [petCreateHtable, if_pos hlt] at hcreate
    cases hcreate
  obtain ⟨T', hcreate', hfns, -, -, hrep⟩ := petCreateHtable_spec hmin fns
  obtain rfl : T' = T := by simpa using hcreate'.symm.trans hcreate
  exact ⟨hfns, hrep⟩

/-- No entries. -/
def Multimap.empty (primeIndex : ℕ) : Multimap := ⟨fun _ => [], 0, primeIndex, []⟩

/-- A new table holds what the empty multimap holds. -/
theorem abstracts_of_create {fns : KeyFns} {minSize : ℕ} {T : Hashtable}
    (hcreate : petCreateHtable minSize fns (true, true) = some (some T)) :
    Abstracts fns T.start (Multimap.empty T.primeIndex) := by
  obtain ⟨hfns, hrep⟩ := represents_of_create hcreate
  exact ⟨_, hrep, hfns, fun k => by simp [Multimap.empty, pairsIn], by simp [Multimap.empty], rfl, rfl⟩

theorem Multimap.count_run {fns : KeyFns} {ops : List Op} {M M' : Multimap} {rs : List Ret}
    (h : M.run fns ops = some (rs, M')) : M'.count ≤ M.count + ops.length := by
  induction ops generalizing M rs with
  | nil =>
    obtain ⟨-, rfl⟩ : [] = rs ∧ M = M' := by simpa [Multimap.run] using h
    exact Nat.le_refl _
  | cons op ops ih =>
    rw [Multimap.run] at h
    obtain ⟨⟨r, M₁⟩, hstep, h⟩ := Option.bind_eq_some_iff.mp h
    obtain ⟨⟨rs₁, M₂⟩, hrun, h⟩ := Option.bind_eq_some_iff.mp h
    obtain ⟨-, rfl⟩ : r :: rs₁ = rs ∧ M₂ = M' := by simpa using h
    have h₁ := Multimap.count_step hstep
    have h₂ := ih hrun
    rw [List.length_cons]
    omega

/-- What a run leads to is a table, with no more entries than there were calls. -/
theorem run_represents {fns : KeyFns} {minSize fuel : ℕ} {T : Hashtable} {ops : List Op} {rs : List Ret} {s : State}
    (hlaw : fns.Lawful) (hcreate : petCreateHtable minSize fns (true, true) = some (some T))
    (hfuel : ops.length ≤ fuel) (hfresh : freshRun fuel ops T.start) (hrun : run fuel ops T.start = some (rs, s)) :
    ∃ ls, Represents s ls ∧ s.htable.fns = fns ∧ ls.flatten.length ≤ ops.length := by
  have hagree := (abstracts_of_create hcreate).run hlaw (by simpa [Multimap.empty, Nat.lt_succ_iff] using hfuel) hfresh
  rw [hrun] at hagree
  generalize hM : (Multimap.empty T.primeIndex).run fns ops = y at hagree
  cases hagree with
  | some hrel =>
    rename_i y
    obtain ⟨rs', M⟩ := y
    obtain ⟨-, ls, hholds⟩ : _ ∧ Abstracts fns s M := hrel
    have hcount := Multimap.count_run hM
    rw [hholds.count] at hcount
    exact ⟨ls, hholds.table, hholds.fns_eq, by simpa [Multimap.empty] using hcount⟩

/-- The table of the first size, for pointers. -/
def ptrTable : Hashtable := ⟨List.replicate 53 NULL, 53, 0, 35, 0, ptrFns⟩

theorem ptrTable_created : petCreateHtable 10 ptrFns (true, true) = some (some ptrTable) := rfl

/-- **Every run on a new table** gives what the multimap gives, or has no result where it has none. -/
theorem run_refines {fns : KeyFns} {minSize fuel : ℕ} {T : Hashtable} {ops : List Op} (hlaw : fns.Lawful)
    (hcreate : petCreateHtable minSize fns (true, true) = some (some T)) (hfuel : ops.length ≤ fuel)
    (hfresh : freshRun fuel ops T.start) :
    Agree fns (run fuel ops T.start) ((Multimap.empty T.primeIndex).run fns ops) Abstracts :=
  (abstracts_of_create hcreate).run hlaw (by simpa [Multimap.empty, Nat.lt_succ_iff] using hfuel) hfresh

/-- Two entries of one key, of which the later one is found and removed first. -/
theorem run_refines_twice : Agree ptrFns
    (run 5 [.insert 1 10 ⟨true, true, 100⟩, .insert 1 20 ⟨true, true, 200⟩, .search 1, .remove 1 true, .search 1]
      ptrTable.start)
    ((Multimap.empty 0).run ptrFns
      [.insert 1 10 ⟨true, true, 100⟩, .insert 1 20 ⟨true, true, 200⟩, .search 1, .remove 1 true, .search 1])
    Abstracts :=
  run_refines ptrFns_lawful ptrTable_created (by decide) (by decide +kernel)

end PetLab.Threads.Htable
