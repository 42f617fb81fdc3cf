import PetLab.Threads.HashtableIter

/-!
# The end of a table

`pet_free_htable` walks every chain and frees its entries, with their keys and values if it is asked to.

* `petFreeHtable_spec`: it frees every entry once, so that nothing of the table is left.
* `petFreeHtable_reachable`: so it is at the end of every run. A second `free` of an entry, or a
  walk that goes on in a freed one, would have no result.
-/

namespace PetLab.Threads.Htable

open PetLab.Lib

/-- What is given to `free` with an entry. -/
def givenUp (freeValues freeKeys : Bool) (item : ℕ → Option Item) (a : ℕ) : List (BitVec 64) :=
  (item a).elim [] fun it => (if freeKeys then [it.key] else []) ++ if freeValues then [it.value] else []

section

variable {s : State} {ls : List (List ℕ)} {l : List ℕ} {m : Mem} {p fuel : ℕ} {freeValues freeKeys : Bool}

/-- A heap in which the entries of a list are freed. -/
structure Released (freeValues freeKeys : Bool) (m : Mem) (l : List ℕ) (m' : Mem) : Prop where
  gone : ∀ a ∈ l, m'.entry a = none
  rest : ∀ a, a ∉ l → m'.entry a = m.entry a
  freed : m'.freed = m.freed ++ l.flatMap (givenUp freeValues freeKeys (itemOf m.entry))

theorem flatMap_givenUp_congr {item item' : ℕ → Option Item} (h : ∀ a ∈ l, item a = item' a) :
    l.flatMap (givenUp freeValues freeKeys item) = l.flatMap (givenUp freeValues freeKeys item') := by
  refine List.flatMap_congr fun a ha => ?_
  rw [givenUp, givenUp, h a ha]

/-- First one list, then another one. -/
theorem Released.append {m₁ m₂ : Mem} {l' : List ℕ} (h : Released freeValues freeKeys m l m₁)
    (h' : Released freeValues freeKeys m₁ l' m₂) (hdisj : l.Disjoint l') :
    Released freeValues freeKeys m (l ++ l') m₂ where
  gone := by
    intro a ha
    by_cases ha' : a ∈ l'
    · exact h'.gone a ha'
    · rw [h'.rest a ha']
      exact h.gone a ((List.mem_append.mp ha).resolve_right ha')
  rest := by
    intro a ha
    rw [List.mem_append, not_or] at ha
    rw [h'.rest a ha.2, h.rest a ha.1]
  freed := by
    rw [h'.freed, h.freed, List.flatMap_append, List.append_assoc]
    congr 2
    refine flatMap_givenUp_congr fun a ha => ?_
    rw [itemOf, itemOf, h.rest a fun hmem => hdisj hmem ha]

/-- A chain is freed. -/
theorem freeLoop_spec (freeValues freeKeys : Bool) (hc : Chain NULL (nextOf m.entry) p l) (hfuel : l.length < fuel) :
    ∃ m', freeLoop freeValues freeKeys fuel p m = some m' ∧ Released freeValues freeKeys m l m' := by
  induction l generalizing p m fuel with
  | nil =>
    obtain ⟨fuel, rfl⟩ := Nat.exists_eq_succ_of_ne_zero (Nat.ne_of_gt hfuel)
    obtain rfl := chain_nil_iff.mp hc
    exact ⟨m, rfl, by simp, fun _ _ => rfl, by simp⟩
  | cons a l ih =>
    obtain ⟨fuel, rfl⟩ := Nat.exists_eq_succ_of_ne_zero (Nat.ne_of_gt (Nat.zero_lt_of_lt hfuel))
    have hnd := List.nodup_cons.mp hc.nodup
    obtain ⟨rfl, hne, q, hq, hc⟩ := chain_cons_iff.mp hc
    obtain ⟨e, he⟩ := entry_isSome_of_next (by rw [hq]; simp)
    obtain rfl : e.next = q := by simpa [nextOf, he] using hq
    let m₁ : Mem := ⟨Function.update m.entry p none, m.freed ++ givenUp freeValues freeKeys (itemOf m.entry) p⟩
    have hgiven : givenUp freeValues freeKeys (itemOf m.entry) p =
        (if freeKeys then [e.key] else []) ++ if freeValues then [e.value] else [] := by
      simp [givenUp, itemOf, he, HashEntry.item]
    have hfree : ((m.freeWord freeKeys e.key).freeWord freeValues e.value).freeEntry p = some m₁ := by
      cases freeKeys <;> cases freeValues <;> simp [Mem.freeWord, Mem.freeEntry, he, m₁, hgiven]
    have hc₁ : Chain NULL (nextOf m₁.entry) e.next l := by
      rw [nextOf_update]
      exact hc.update_of_notMem hnd.1 _
    have hone : Released freeValues freeKeys m [p] m₁ := by
      refine ⟨?_, ?_, by simp [m₁]⟩
      · intro b hb
        rw [List.mem_singleton.mp hb]
        exact Function.update_self ..
      · intro b hb
        exact Function.update_of_ne (by simpa using hb) _ _
    obtain ⟨m₂, hloop, hrel⟩ := ih hc₁ (Nat.lt_of_succ_lt_succ hfuel)
    refine ⟨m₂, ?_, hone.append hrel (by simpa using hnd.1)⟩
    simp only [freeLoop, if_neg hne, he, Option.bind_eq_bind, Option.bind_some, hfree, hloop]

/-- The chains from a place on are freed. -/
theorem freeChains_spec (freeValues freeKeys : Bool) {table : List ℕ} {n i : ℕ} (hn : i + n = ls.length)
    (hc : ∀ j l, i ≤ j → ls[j]? = some l → ∃ p, table[j]? = some p ∧ Chain NULL (nextOf m.entry) p l)
    (hnd : (ls.drop i).flatten.Nodup) (hfuel : ∀ l ∈ ls, l.length < fuel) :
    ∃ m', freeChains table freeValues freeKeys fuel n i m = some m' ∧
      Released freeValues freeKeys m (ls.drop i).flatten m' := by
  induction n generalizing i m with
  | zero =>
    rw [List.drop_of_length_le (by omega)]
    exact ⟨m, rfl, by simp, fun _ _ => rfl, by simp⟩
  | succ n ih =>
    obtain ⟨l, hget⟩ : ∃ l, ls[i]? = some l := ⟨_, List.getElem?_eq_getElem (by omega)⟩
    rw [drop_eq_cons hget, List.flatten_cons] at hnd ⊢
    obtain ⟨p, hp, hchain⟩ := hc i l (Nat.le_refl _) hget
    obtain ⟨m₁, hloop, hrel⟩ := freeLoop_spec freeValues freeKeys hchain (hfuel l (List.mem_of_getElem? hget))
    have hdisj := List.disjoint_of_nodup_append hnd
    have hc₁ (j : ℕ) (l' : List ℕ) (hj : i + 1 ≤ j) (hl' : ls[j]? = some l') :
        ∃ p, table[j]? = some p ∧ Chain NULL (nextOf m₁.entry) p l' := by
      obtain ⟨p', hp', hchain'⟩ := hc j l' (by omega) hl'
      refine ⟨p', hp', hchain'.congr fun a ha => ?_⟩
      have hmem : a ∈ (ls.drop (i + 1)).flatten := by
        apply mem_flatten_of_getElem? (i := j - (i + 1)) _ ha
        rw [List.getElem?_drop, Nat.add_sub_cancel' hj, hl']
      rw [nextOf, nextOf, hrel.rest a fun hal => hdisj hal hmem]
    obtain ⟨m₂, hchains, hrel₂⟩ := ih (by omega) hc₁ (List.nodup_append.mp hnd).2.1
    refine ⟨m₂, ?_, hrel.append hrel₂ hdisj⟩
    simp only [freeChains, hp, Option.bind_eq_bind, Option.bind_some, hloop, hchains]

/-- **The end of a table**: every entry is freed once, and none is left. -/
theorem petFreeHtable_spec (h : Shape s ls) (hfuel : ls.flatten.length < fuel) (freeValues freeKeys : Bool) :
    ∃ m, petFreeHtable fuel freeValues freeKeys s = some m ∧ (∀ a, m.entry a = none) ∧
      m.freed = s.mem.freed ++ ls.flatten.flatMap (givenUp freeValues freeKeys (itemOf s.mem.entry)) := by
  have hc (j : ℕ) (l : List ℕ) (_ : 0 ≤ j) (hl : ls[j]? = some l) := h.buckets.exists_head hl
  obtain ⟨m, hchains, hrel⟩ := freeChains_spec freeValues freeKeys (i := 0)
    (n := s.htable.tableLength) (by rw [h.length_ls, Nat.zero_add]) hc h.buckets.nodup
    fun l hl => length_lt_of_mem hfuel hl
  rw [List.drop_zero] at hrel
  refine ⟨m, hchains, fun a => ?_, hrel.freed⟩
  by_cases ha : a ∈ ls.flatten
  · exact hrel.gone a ha
  · rw [hrel.rest a ha]
    by_contra hne
    exact ha (h.live a (by simpa [itemOf] using hne))

end

/-- **Nothing leaks**: the end of a table that any run has led to leaves no entry allocated, and gives the keys and
values of the entries it had to `free`, each once. -/
theorem petFreeHtable_reachable {fns : KeyFns} {minSize fuel : ℕ} {T : Hashtable} {ops : List Op} {rs : List Ret}
    {s : State} (hlaw : fns.Lawful) (hcreate : petCreateHtable minSize fns (true, true) = some (some T))
    (hfuel : ops.length < fuel) (hfresh : freshRun fuel ops T.start) (hrun : run fuel ops T.start = some (rs, s))
    (freeValues freeKeys : Bool) :
    ∃ ls m, Represents s ls ∧ petFreeHtable fuel freeValues freeKeys s = some m ∧ (∀ a, m.entry a = none) ∧
      m.freed = s.mem.freed ++ ls.flatten.flatMap (givenUp freeValues freeKeys (itemOf s.mem.entry)) := by
  obtain ⟨ls, hrep, -, hlen⟩ := run_represents hlaw hcreate (Nat.le_of_lt hfuel) hfresh hrun
  have hlt : ls.flatten.length < fuel := Nat.lt_of_le_of_lt hlen hfuel
  obtain ⟨m, hfree, hnone, hfreed⟩ := petFreeHtable_spec hrep.toShape hlt freeValues freeKeys
  exact ⟨ls, m, hrep, hfree, hnone, hfreed⟩

/-- One entry, freed with its key. -/
theorem petFreeHtable_reachable_one : ∃ rs s,
    run 2 [.insert 1 10 ⟨true, true, 100⟩] ptrTable.start = some (rs, s) ∧
      ∃ ls m, Represents s ls ∧ petFreeHtable 2 false true s = some m ∧ (∀ a, m.entry a = none) ∧
        m.freed = s.mem.freed ++ ls.flatten.flatMap (givenUp false true (itemOf s.mem.entry)) := by
  have hsome : (run 2 [.insert 1 10 ⟨true, true, 100⟩] ptrTable.start).isSome := by decide +kernel
  obtain ⟨⟨rs, s⟩, hrun⟩ := Option.isSome_iff_exists.mp hsome
  exact ⟨rs, s, hrun, petFreeHtable_reachable ptrFns_lawful ptrTable_created (by decide) (by decide +kernel) hrun
    false true⟩

end PetLab.Threads.Htable
