import PetLab.Threads.HashtableRuns

/-!
# The hash table as a map, and how full it gets

* `run_refines_map`: as long as a key is inserted only while it is absent, as the header of the
  source asks ("if in doubt, remove before insert"), the table is a finite map, and its growing
  is invisible.
* `run_load`: while the table gets the new tables it asks for, it has, unless it is of the largest size,
  no more than 0.65 entries (the total rounded up) for each of its places.
-/

namespace PetLab.Threads.Htable

/-! ### A finite map -/

/-- For every key the entry inserted under it, if there is one. -/
structure KeyMap where
  pair : BitVec 64 → Option (BitVec 64 × BitVec 64)
  count : ℕ

def KeyMap.set (fns : KeyFns) (m : KeyMap) (key : BitVec 64) (x : Option (BitVec 64 × BitVec 64)) (count : ℕ) :
    KeyMap := ⟨fun k => if fns.eqFn k key then x else m.pair k, count⟩

/-- The value under a key, if there is one, is changed. -/
def KeyMap.modify (fns : KeyFns) (f : BitVec 64 → BitVec 64) (m : KeyMap) (key : BitVec 64) : Ret × KeyMap :=
  match m.pair key with
  | none => (.int 0, m)
  | some (k, v) => (.int (-1), m.set fns key (some (k, f v)) m.count)

/-- The call, on a finite map: of the allocator only the answer for the entry matters. -/
def KeyMap.step (fns : KeyFns) (m : KeyMap) : Op → Ret × KeyMap
  | .insert key value ans =>
    if ans.newEntry = NULL then (.int 0, m) else (.int (-1), m.set fns key (some (key, value)) (m.count + 1))
  | .change key value _ => m.modify fns (fun _ => value) key
  | .inc key value => m.modify fns (fun v => v + value) key
  | .dec key value => m.modify fns (fun v => v - value) key
  | .search key => (.word ((m.pair key).elim 0 Prod.snd), m)
  | .remove key _ =>
    match m.pair key with
    | none => (.word 0, m)
    | some (_, v) => (.word v, m.set fns key none (m.count - 1))
  | .count => (.uint (u32 m.count), m)

def KeyMap.run (fns : KeyFns) : List Op → KeyMap → List Ret × KeyMap
  | [], m => ([], m)
  | op :: ops, m =>
    let (r, m) := m.step fns op
    let (rs, m) := KeyMap.run fns ops m
    (r :: rs, m)

/-- An insertion is of a key that is absent, and where the table cannot have a new table it cannot have the
old one reallocated either. -/
def Op.proper (m : KeyMap) : Op → Bool
  | .insert key _ ans => (m.pair key).isNone && (ans.newTable || !ans.realloc)
  | _ => true

/-- Such insertions only, all along a run. -/
def properRun (fns : KeyFns) : List Op → KeyMap → Bool
  | [], _ => true
  | op :: ops, m => op.proper m && properRun fns ops (m.step fns op).2

/-- The multimap has at most one entry for a key, the one of the map. -/
structure Single (M : Multimap) (m : KeyMap) : Prop where
  pairs : ∀ k, M.pairs k = (m.pair k).toList
  count : M.count = m.count

section

variable {fns : KeyFns} {M : Multimap} {m : KeyMap}

theorem Single.set (h : Single M m) (key : BitVec 64) (x : Option (BitVec 64 × BitVec 64)) (k : BitVec 64) :
    (M.set fns key x.toList).pairs k = ((m.set fns key x m.count).pair k).toList := by
  simp only [Multimap.set, KeyMap.set]
  split
  · rfl
  · exact h.pairs k

theorem Single.onFirst (h : Single M m) (f : BitVec 64 → BitVec 64) (freeValue : Bool) (key : BitVec 64) :
    (M.onFirst fns f freeValue key).1 = (m.modify fns f key).1 ∧
      Single (M.onFirst fns f freeValue key).2 (m.modify fns f key).2 := by
  have hkey := h.pairs key
  rw [Multimap.onFirst, KeyMap.modify]
  cases hm : m.pair key with
  | none =>
    rw [hm] at hkey
    simp only [hkey, Option.toList_none]
    exact ⟨trivial, h⟩
  | some x =>
    obtain ⟨k, v⟩ := x
    rw [hm] at hkey
    simp only [hkey, Option.toList_some]
    exact ⟨trivial, h.set key (some (k, f v)), h.count⟩

/-- Reversing one entry is nothing. -/
theorem Single.reversed (h : Single M m) : Single M.reversed m where
  pairs k := by
    show (M.pairs k).reverse = _
    rw [h.pairs k]
    cases m.pair k <;> rfl
  count := h.count

/-- **One call**: growing is invisible. -/
theorem Single.step (h : Single M m) (op : Op) (hproper : op.proper m) :
    ∃ M', M.step fns op = some ((m.step fns op).1, M') ∧ Single M' (m.step fns op).2 := by
  have hmodify (f : BitVec 64 → BitVec 64) (freeValue : Bool) (key : BitVec 64) :
      ∃ M', some (M.onFirst fns f freeValue key) = some ((m.modify fns f key).1, M') ∧
        Single M' (m.modify fns f key).2 := by
    obtain ⟨hret, hsingle⟩ := h.onFirst f freeValue key
    exact ⟨_, by rw [← hret], hsingle⟩
  cases op with
  | insert key value ans =>
    obtain ⟨habsent, hanswer⟩ := Bool.and_eq_true_iff.mp hproper
    have hwild : ¬ M.Wild ans := by
      rintro ⟨-, htable, hrealloc⟩
      simp [htable, hrealloc] at hanswer
    rw [Multimap.step, if_neg hwild, KeyMap.step]
    have h₁ : Single (if M.Grows ans then M.reversed else M) m := by
      split
      · exact h.reversed
      · exact h
    generalize (if M.Grows ans then M.reversed else M) = M₁ at h₁
    have hnil : M₁.pairs key = [] := by
      rw [h₁.pairs, Option.isNone_iff_eq_none.mp habsent, Option.toList_none]
    rw [Multimap.insert, hnil]
    split
    · exact ⟨M₁, rfl, h₁⟩
    · exact ⟨_, rfl, h₁.set key (some (key, value)), congrArg (· + 1) h₁.count⟩
  | change key value freeValue => exact hmodify _ _ _
  | inc key value => exact hmodify _ _ _
  | dec key value => exact hmodify _ _ _
  | search key =>
    refine ⟨M, ?_, h⟩
    rw [Multimap.step, h.pairs, KeyMap.step]
    cases m.pair key <;> rfl
  | remove key freeKey =>
    have hkey := h.pairs key
    rw [Multimap.step, Multimap.remove, KeyMap.step]
    cases hm : m.pair key with
    | none =>
      rw [hm] at hkey
      simp only [hkey, Option.toList_none]
      exact ⟨M, rfl, h⟩
    | some x =>
      obtain ⟨k, v⟩ := x
      rw [hm] at hkey
      simp only [hkey, Option.toList_some]
      exact ⟨_, rfl, h.set key none, congrArg (· - 1) h.count⟩
  | count => exact ⟨M, by rw [Multimap.step, h.count, KeyMap.step], h⟩

theorem Single.run {ops : List Op} (h : Single M m) (hproper : properRun fns ops m) :
    ∃ M', M.run fns ops = some ((m.run fns ops).1, M') ∧ Single M' (m.run fns ops).2 := by
  induction ops generalizing M m with
  | nil => exact ⟨M, rfl, h⟩
  | cons op ops ih =>
    obtain ⟨hop, hops⟩ := Bool.and_eq_true_iff.mp hproper
    obtain ⟨M₁, hstep, h₁⟩ := h.step op hop
    obtain ⟨M₂, hrun, h₂⟩ := ih h₁ hops
    exact ⟨M₂, by simp only [Multimap.run, hstep, hrun, Option.bind_eq_bind, Option.bind_some, KeyMap.run], h₂⟩

end

/-- **The table is a finite map** as long as keys are inserted while they are absent: every call returns what it
returns of the map, and in the end every key has the entry it has in the map. -/
theorem run_refines_map {fns : KeyFns} {minSize fuel : ℕ} {T : Hashtable} {ops : List Op} (hlaw : fns.Lawful)
    (hcreate : petCreateHtable minSize fns (true, true) = some (some T)) (hfuel : ops.length ≤ fuel)
    (hfresh : freshRun fuel ops T.start) (hproper : properRun fns ops ⟨fun _ => none, 0⟩) :
    ∃ s ls, run fuel ops T.start = some ((KeyMap.run fns ops ⟨fun _ => none, 0⟩).1, s) ∧ Represents s ls ∧
      ∀ k, pairsIn fns (itemOf s.mem.entry) k ls.flatten =
        ((KeyMap.run fns ops ⟨fun _ => none, 0⟩).2.pair k).toList := by
  have hempty : Single (Multimap.empty T.primeIndex) ⟨fun _ => none, 0⟩ := ⟨fun _ => rfl, rfl⟩
  obtain ⟨M', hrun, hsingle⟩ := hempty.run hproper
  have hagree := (abstracts_of_create hcreate).run hlaw (by simpa [Multimap.empty, Nat.lt_succ_iff] using hfuel) hfresh
  rw [hrun] at hagree
  generalize run fuel ops T.start = x at hagree
  cases hagree with
  | some hrel =>
    rename_i x
    obtain ⟨rs, s⟩ := x
    obtain ⟨rfl, ls, hholds⟩ := hrel
    exact ⟨s, ls, rfl, hholds.table, fun k => by rw [← hholds.pairs, hsingle.pairs]⟩

/-- Removed before it is inserted again. -/
theorem run_refines_map_again : ∃ s ls, run 5 [.insert 1 10 ⟨true, true, 100⟩, .inc 1 5, .remove 1 false,
      .insert 1 20 ⟨false, false, 100⟩, .search 1] ptrTable.start =
        some ([.int (-1), .int (-1), .word 15, .int (-1), .word 20], s) ∧ Represents s ls ∧
      ∀ k, pairsIn ptrFns (itemOf s.mem.entry) k ls.flatten =
        ((KeyMap.run ptrFns [.insert 1 10 ⟨true, true, 100⟩, .inc 1 5, .remove 1 false,
          .insert 1 20 ⟨false, false, 100⟩, .search 1] ⟨fun _ => none, 0⟩).2.pair k).toList :=
  run_refines_map ptrFns_lawful ptrTable_created (by decide) (by decide +kernel) (by decide +kernel)

/-! ### Load -/

/-- No more entries than the load limit, but in the largest table. -/
def Multimap.Roomy (M : Multimap) : Prop :=
  M.count ≤ loadFactors.getD M.primeIndex 0 ∨ M.primeIndex = primeTableLen - 1

theorem loadFactors_lt : ∀ i < primeTableLen - 1, loadFactors.getD i 0 < loadFactors.getD (i + 1) 0 := by decide

theorem loadFactors_small : ∀ i < primeTableLen, loadFactors.getD i 0 < 2 ^ 32 - 1 := by decide

/-- A load limit is 0.65 of the size, rounded up. -/
theorem loadFactors_le : ∀ i < primeTableLen, 100 * loadFactors.getD i 0 ≤ 65 * primes.getD i 0 + 99 := by decide

/-- The call gets a new table if it asks for one. -/
def Op.granted : Op → Bool
  | .insert _ _ ans => ans.newTable
  | _ => true

section

variable {M : Multimap}

/-- No fewer entries fit when some are gone. -/
theorem Multimap.Roomy.mono (h : M.Roomy) {M' : Multimap} (hcount : M'.count ≤ M.count)
    (hprime : M'.primeIndex = M.primeIndex) : M'.Roomy := by
  rw [Multimap.Roomy, hprime]
  exact h.imp_left (Nat.le_trans hcount)

/-- **One call** keeps the table roomy: the insertion that would be one too many has it grow. -/
theorem Multimap.Roomy.step (h : M.Roomy) (fns : KeyFns) (hprime : M.primeIndex < primeTableLen) {op : Op}
    (hop : op.granted) :
    ∃ r M', M.step fns op = some (r, M') ∧ M'.Roomy ∧ M'.primeIndex < primeTableLen := by
  have hfirst (f : BitVec 64 → BitVec 64) (freeValue : Bool) (key : BitVec 64) :
      (M.onFirst fns f freeValue key).2.count = M.count ∧
        (M.onFirst fns f freeValue key).2.primeIndex = M.primeIndex := by
    rw [Multimap.onFirst]
    split <;> exact ⟨rfl, rfl⟩
  have hkeeps {r : Ret} {M' : Multimap} (hcount : M'.count ≤ M.count) (hidx : M'.primeIndex = M.primeIndex) :
      ∃ r' M'', some (r, M') = some (r', M'') ∧ M''.Roomy ∧ M''.primeIndex < primeTableLen :=
    ⟨r, M', rfl, h.mono hcount hidx, hidx ▸ hprime⟩
  cases op with
  | insert key value ans =>
    have hwild : ¬ M.Wild ans := by
      rintro ⟨-, htable, -⟩
      simp [Op.granted, htable] at hop
    have hput (M₁ : Multimap) : (M₁.insert fns key value ans.newEntry).2.count ≤ M₁.count + 1 ∧
        (M₁.insert fns key value ans.newEntry).2.primeIndex = M₁.primeIndex := by
      rw [Multimap.insert]
      split
      · exact ⟨Nat.le_succ _, rfl⟩
      · exact ⟨Nat.le_refl _, rfl⟩
    obtain ⟨hcount, hidx⟩ := hput (if M.Grows ans then M.reversed else M)
    refine ⟨_, _, by rw [Multimap.step, if_neg hwild], ?_, ?_⟩
    · by_cases hlast : M.primeIndex = primeTableLen - 1
      · have hgrows : ¬ M.Grows ans := fun hgrows => hgrows.1.2 hlast
        rw [if_neg hgrows] at hidx ⊢
        exact .inr (hidx.trans hlast)
      · have hle : M.count ≤ loadFactors.getD M.primeIndex 0 := h.resolve_right hlast
        have hsmall := loadFactors_small M.primeIndex hprime
        have hu32 : u32 (M.count + 1) = M.count + 1 := by
          rw [u32]
          omega
        by_cases hfull : loadFactors.getD M.primeIndex 0 < M.count + 1
        · -- the table is full, and grows
          have hgrows : M.Grows ans := ⟨⟨by rwa [hu32], hlast⟩, hop⟩
          rw [if_pos hgrows] at hcount hidx ⊢
          have hlt := loadFactors_lt M.primeIndex (by omega)
          left
          rw [hidx]
          exact Nat.le_trans hcount (Nat.le_trans (Nat.succ_le_succ hle) hlt)
        · have hgrows : ¬ M.Grows ans := fun hgrows => hfull (hu32 ▸ hgrows.1.1)
          rw [if_neg hgrows] at hcount hidx ⊢
          left
          rw [hidx]
          exact Nat.le_trans hcount (Nat.le_of_not_lt hfull)
    · rw [hidx]
      split
      · rename_i hgrows
        have hne := hgrows.1.2
        show M.primeIndex + 1 < primeTableLen
        omega
      · exact hprime
  | change key value freeValue => exact hkeeps (Nat.le_of_eq (hfirst _ _ _).1) (hfirst _ _ _).2
  | inc key value => exact hkeeps (Nat.le_of_eq (hfirst _ _ _).1) (hfirst _ _ _).2
  | dec key value => exact hkeeps (Nat.le_of_eq (hfirst _ _ _).1) (hfirst _ _ _).2
  | search key => exact hkeeps (Nat.le_refl _) rfl
  | remove key freeKey =>
    have hremove : (M.remove fns freeKey key).2.count ≤ M.count ∧
        (M.remove fns freeKey key).2.primeIndex = M.primeIndex := by
      rw [Multimap.remove]
      split
      · exact ⟨Nat.le_refl _, rfl⟩
      · exact ⟨Nat.sub_le _ _, rfl⟩
    exact hkeeps hremove.1 hremove.2
  | count => exact hkeeps (Nat.le_refl _) rfl

theorem Multimap.Roomy.run {ops : List Op} (h : M.Roomy) (fns : KeyFns) (hprime : M.primeIndex < primeTableLen)
    (hops : ∀ op ∈ ops, op.granted) : ∃ rs M', M.run fns ops = some (rs, M') ∧ M'.Roomy := by
  induction ops generalizing M with
  | nil => exact ⟨[], M, rfl, h⟩
  | cons op ops ih =>
    obtain ⟨r, M₁, hstep, h₁, hprime₁⟩ := h.step fns hprime (hops op List.mem_cons_self)
    obtain ⟨rs, M₂, hrun, h₂⟩ := ih h₁ hprime₁ fun op hop => hops op (List.mem_cons_of_mem _ hop)
    exact ⟨r :: rs, M₂, by simp only [Multimap.run, hstep, hrun, Option.bind_eq_bind, Option.bind_some], h₂⟩

end

/-- **The load factor**: a run that gets every new table it asks for has a result, and its table has 0.65 entries
for each place, rounded up in total, or is of the largest size. -/
theorem run_load {fns : KeyFns} {minSize fuel : ℕ} {T : Hashtable} {ops : List Op} (hlaw : fns.Lawful)
    (hcreate : petCreateHtable minSize fns (true, true) = some (some T)) (hfuel : ops.length ≤ fuel)
    (hfresh : freshRun fuel ops T.start) (hops : ∀ op ∈ ops, op.granted) :
    ∃ rs s ls, run fuel ops T.start = some (rs, s) ∧ Represents s ls ∧
      (100 * ls.flatten.length ≤ 65 * s.htable.tableLength + 99 ∨ s.htable.primeIndex = primeTableLen - 1) := by
  have hagree := (abstracts_of_create hcreate).run hlaw (by simpa [Multimap.empty, Nat.lt_succ_iff] using hfuel) hfresh
  have hprime : (Multimap.empty T.primeIndex).primeIndex < primeTableLen :=
    (List.getElem?_eq_some_iff.mp (represents_of_create hcreate).2.size).1
  have hroomy : (Multimap.empty T.primeIndex).Roomy := .inl (Nat.zero_le _)
  obtain ⟨rs, M', hrun, h'⟩ := hroomy.run fns hprime hops
  rw [hrun] at hagree
  generalize run fuel ops T.start = x at hagree
  cases hagree with
  | some hrel =>
    rename_i x
    obtain ⟨rs', s⟩ := x
    obtain ⟨-, ls, hholds⟩ : _ ∧ Abstracts fns s M' := hrel
    refine ⟨rs', s, ls, rfl, hholds.table, ?_⟩
    rw [← hholds.primeIndex]
    refine h'.imp_left fun hle => ?_
    have hsize := hholds.table.size
    rw [← hholds.primeIndex] at hsize
    have hlt := (List.getElem?_eq_some_iff.mp hsize).1
    have hload := loadFactors_le M'.primeIndex hlt
    have hprimes : primes.getD M'.primeIndex 0 = s.htable.tableLength := by
      rw [List.getD_eq_getElem?_getD, hsize, Option.getD_some]
    rw [hprimes] at hload
    rw [← hholds.count]
    omega

/-- One entry in the table of the first size. -/
theorem run_load_one : ∃ rs s ls, run 1 [.insert 1 10 ⟨true, true, 100⟩] ptrTable.start = some (rs, s) ∧
    Represents s ls ∧
    (100 * ls.flatten.length ≤ 65 * s.htable.tableLength + 99 ∨ s.htable.primeIndex = primeTableLen - 1) :=
  run_load ptrFns_lawful ptrTable_created (by decide) (by decide +kernel) (by decide)

end PetLab.Threads.Htable
