import Mathlib.Data.List.Basic
import Mathlib.Data.List.Nodup
import Mathlib.Data.List.Perm.Basic
import Mathlib.Logic.Function.Basic

/-!
# Buckets of linked cells

`Chain null next p l`: from the pointer `p` the links `next` lead through the cells `l`, in
this order, to `null`. A cell without a link (`next a = none`) is not allocated, so a chain is
made of allocated cells only. A pointer starts at most one chain (`Chain.unique`), and a chain
has no cell twice (`Chain.nodup`).

`Buckets null next heads ls`: a table of pointers, each the start of a chain, no cell in two of
them. The writes a program makes to such a table are: a new cell at the head of one chain
(`Buckets.push`), the head of a chain taken off (`Buckets.pop`) and a cell inside one taken
out (`Buckets.unlink`). Cells that are put one after the other at the heads of the chains an index
function names are in their chain in the reverse order (`getElem?_distribute`).
-/

namespace PetLab.Lib

variable {α : Type*}

/-! ### One chain -/

/-- From `p` the links lead through `l` to `null`. -/
inductive Chain (null : α) (next : α → Option α) : α → List α → Prop where
  /-- The null pointer. -/
  | nil : Chain null next null []
  /-- A cell, and the chain its link starts. -/
  | cons {p q : α} {l : List α} : p ≠ null → next p = some q → Chain null next q l → Chain null next p (p :: l)

section

variable {null : α} {next next' : α → Option α} {p q a b : α} {l l' l₁ l₂ : List α}

theorem chain_null_iff : Chain null next null l ↔ l = [] := by
  constructor
  · intro h
    cases h with
    | nil => rfl
    | cons hne _ _ => exact absurd rfl hne
  · rintro rfl
    exact .nil

theorem chain_nil_iff : Chain null next p [] ↔ p = null := by
  constructor
  · intro h
    cases h
    rfl
  · rintro rfl
    exact .nil

theorem chain_cons_iff :
    Chain null next p (a :: l) ↔ p = a ∧ a ≠ null ∧ ∃ q, next a = some q ∧ Chain null next q l := by
  constructor
  · intro h
    cases h with
    | cons hne hn h => exact ⟨rfl, hne, _, hn, h⟩
  · rintro ⟨rfl, hne, q, hn, h⟩
    exact .cons hne hn h

/-- A pointer that is not null is the first cell of its chain. -/
theorem Chain.exists_cons (h : Chain null next p l) (hp : p ≠ null) :
    ∃ q l', l = p :: l' ∧ next p = some q ∧ Chain null next q l' := by
  cases h with
  | nil => exact absurd rfl hp
  | cons _ hn h => exact ⟨_, _, rfl, hn, h⟩

theorem Chain.unique (h : Chain null next p l) (h' : Chain null next p l') : l = l' := by
  induction h generalizing l' with
  | nil => exact (chain_null_iff.mp h').symm
  | cons hne hn _ ih =>
    obtain ⟨q', l'', rfl, hn', h''⟩ := h'.exists_cons hne
    obtain rfl : _ = q' := Option.some.inj (hn.symm.trans hn')
    rw [ih h'']

theorem Chain.ne_null (h : Chain null next p l) (ha : a ∈ l) : a ≠ null := by
  induction h with
  | nil => simp at ha
  | cons hne _ _ ih =>
    rcases List.mem_cons.mp ha with rfl | ha
    · exact hne
    · exact ih ha

theorem Chain.allocated (h : Chain null next p l) (ha : a ∈ l) : next a ≠ none := by
  induction h with
  | nil => simp at ha
  | cons _ hn _ ih =>
    rcases List.mem_cons.mp ha with rfl | ha
    · simp [hn]
    · exact ih ha

/-- A chain can be cut before any of its cells. -/
theorem Chain.drop (h : Chain null next p (l₁ ++ a :: l₂)) : Chain null next a (a :: l₂) := by
  induction l₁ generalizing p with
  | nil =>
    obtain rfl := (chain_cons_iff.mp h).1
    exact h
  | cons b l₁ ih =>
    obtain ⟨_, _, q, _, h⟩ := chain_cons_iff.mp h
    exact ih h

/-- The link of a cell leads to the cell after it. -/
theorem Chain.next_eq (h : Chain null next p (l₁ ++ a :: b :: l₂)) : next a = some b := by
  obtain ⟨_, _, q, hn, h⟩ := chain_cons_iff.mp h.drop
  rw [hn, (chain_cons_iff.mp h).1]

theorem Chain.nodup (h : Chain null next p l) : l.Nodup := by
  induction h with
  | nil => exact List.nodup_nil
  | cons hne hn h ih =>
    refine List.nodup_cons.mpr ⟨fun hmem => ?_, ih⟩
    -- a second occurrence would start the same chain, which is shorter than itself
    obtain ⟨l₁, l₂, rfl⟩ := List.append_of_mem hmem
    have heq := h.drop.unique (.cons hne hn h)
    have hlen := congrArg List.length heq
    simp at hlen
    omega

/-- Writes off the chain do not touch it. -/
theorem Chain.congr (h : Chain null next p l) (heq : ∀ a ∈ l, next' a = next a) : Chain null next' p l := by
  induction h with
  | nil => exact .nil
  | cons hne hn _ ih =>
    refine .cons hne ?_ (ih fun a ha => heq a (List.mem_cons_of_mem _ ha))
    rw [heq _ List.mem_cons_self]
    exact hn

variable [DecidableEq α]

theorem Chain.update_of_notMem (h : Chain null next p l) (ha : a ∉ l) (x : Option α) :
    Chain null (Function.update next a x) p l := by
  refine h.congr fun b hb => ?_
  have hne : b ≠ a := by
    rintro rfl
    exact ha hb
  rw [Function.update_of_ne hne]

/-- The cell after `a` is taken out by one write to `a`. -/
theorem Chain.unlink (h : Chain null next p (l₁ ++ a :: b :: l₂)) (hb : next b = some q) :
    Chain null (Function.update next a (some q)) p (l₁ ++ a :: l₂) := by
  have hnd := h.nodup
  induction l₁ generalizing p with
  | nil =>
    obtain ⟨rfl, hne, q', hn, h⟩ := chain_cons_iff.mp h
    obtain ⟨rfl, _, q'', hn', h⟩ := chain_cons_iff.mp h
    obtain rfl : q = q'' := Option.some.inj (hb.symm.trans hn')
    refine .cons hne (Function.update_self ..) (h.update_of_notMem ?_ _)
    intro hmem
    simp [hmem] at hnd
  | cons c l₁ ih =>
    obtain ⟨rfl, hne, q', hn, h⟩ := chain_cons_iff.mp h
    have hpa : p ≠ a := by
      rintro rfl
      simp at hnd
    exact .cons hne (by rwa [Function.update_of_ne hpa]) (ih h (List.nodup_cons.mp hnd).2)

end

/-! ### A table of chains -/

/-- Every pointer of the table starts its chain, and no cell is in two chains. -/
structure Buckets (null : α) (next : α → Option α) (heads : List α) (ls : List (List α)) : Prop where
  /-- One chain for each pointer. -/
  length_eq : heads.length = ls.length
  /-- The chain of a pointer. -/
  chain : ∀ {i : ℕ} {p l}, heads[i]? = some p → ls[i]? = some l → Chain null next p l
  /-- No cell is there twice. -/
  nodup : ls.flatten.Nodup

section

/-- What stands before and after a place of a list, with anything put at the place. -/
theorem exists_split {β : Type*} {ls : List β} {i : ℕ} {l : β} (h : ls[i]? = some l) :
    ∃ L₁ L₂, L₁.length = i ∧ ls = L₁ ++ l :: L₂ ∧ ∀ l', ls.set i l' = L₁ ++ l' :: L₂ := by
  obtain ⟨hi, rfl⟩ := List.getElem?_eq_some_iff.mp h
  refine ⟨ls.take i, ls.drop (i + 1), List.length_take_of_le (by omega), ?_, ?_⟩
  · rw [List.getElem_cons_drop, List.take_append_drop]
  · intro l'
    rw [List.set_eq_take_append_cons_drop, if_pos hi]

variable {null : α} {next next' : α → Option α} {heads : List α} {ls : List (List α)} {i : ℕ} {p q a b : α}
variable {l l' l₁ l₂ : List α}

theorem flatten_set_perm (h : ls[i]? = some l) : ls.flatten.Perm (l ++ (ls.set i []).flatten) ∧
    ∀ l', (ls.set i l').flatten.Perm (l' ++ (ls.set i []).flatten) := by
  obtain ⟨L₁, L₂, rfl, rfl, hset⟩ := exists_split h
  simp only [hset, List.flatten_append, List.flatten_cons, List.nil_append]
  have hp (l : List α) : (L₁.flatten ++ (l ++ L₂.flatten)).Perm (l ++ (L₁.flatten ++ L₂.flatten)) := by
    rw [← List.append_assoc, ← List.append_assoc]
    exact List.Perm.append_right _ List.perm_append_comm
  exact ⟨hp l, hp⟩

theorem Buckets.exists_chain (h : Buckets null next heads ls) (hi : i < heads.length) :
    ∃ p l, heads[i]? = some p ∧ ls[i]? = some l ∧ Chain null next p l := by
  have hp := List.getElem?_eq_getElem hi
  have hl := List.getElem?_eq_getElem (l := ls) (h.length_eq ▸ hi)
  exact ⟨_, _, hp, hl, h.chain hp hl⟩

theorem Buckets.exists_head (h : Buckets null next heads ls) (hl : ls[i]? = some l) :
    ∃ p, heads[i]? = some p ∧ Chain null next p l := by
  have hi := (List.getElem?_eq_some_iff.mp hl).1
  have hp := List.getElem?_eq_getElem (l := heads) (h.length_eq ▸ hi)
  exact ⟨_, hp, h.chain hp hl⟩

theorem mem_flatten_of_getElem? (hl : ls[i]? = some l) (ha : a ∈ l) : a ∈ ls.flatten :=
  List.mem_flatten.mpr ⟨l, List.mem_of_getElem? hl, ha⟩

theorem Buckets.allocated (h : Buckets null next heads ls) (ha : a ∈ ls.flatten) : a ≠ null ∧ next a ≠ none := by
  obtain ⟨l, hl, ha⟩ := List.mem_flatten.mp ha
  obtain ⟨i, hi⟩ := List.mem_iff_getElem?.mp hl
  obtain ⟨p, _, hc⟩ := h.exists_head hi
  exact ⟨hc.ne_null ha, hc.allocated ha⟩

/-- A table of null pointers has only empty chains. -/
theorem buckets_replicate (n : ℕ) : Buckets null next (List.replicate n null) (List.replicate n []) where
  length_eq := by simp
  chain := by
    intro i p l hp hl
    obtain rfl := List.eq_of_mem_replicate (List.mem_of_getElem? hp)
    obtain rfl := List.eq_of_mem_replicate (List.mem_of_getElem? hl)
    exact .nil
  nodup := by simp

/-- One chain changes, and the links of the cells of the others do not. -/
theorem Buckets.set (h : Buckets null next heads ls) (hl : ls[i]? = some l) (hc : Chain null next' p l')
    (hother : ∀ a ∈ (ls.set i []).flatten, a ∉ l' ∧ next' a = next a) :
    Buckets null next' (heads.set i p) (ls.set i l') where
  length_eq := by simp [h.length_eq]
  chain := by
    intro j p' l'' hp' hl''
    by_cases hij : i = j
    · subst hij
      obtain rfl : p = p' := by simpa [List.getElem?_set, (List.getElem?_eq_some_iff.mp hl).1, h.length_eq] using hp'
      obtain rfl : l' = l'' := by simpa [List.getElem?_set, (List.getElem?_eq_some_iff.mp hl).1] using hl''
      exact hc
    · rw [List.getElem?_set_ne hij] at hp' hl''
      refine (h.chain hp' hl'').congr fun a ha => (hother a ?_).2
      apply mem_flatten_of_getElem? (i := j) _ ha
      rw [List.getElem?_set_ne hij, hl'']
  nodup := by
    rw [((flatten_set_perm hl).2 l').nodup_iff]
    have hnd := (flatten_set_perm hl).1.nodup_iff.mp h.nodup
    exact hc.nodup.append (List.nodup_append.mp hnd).2.1 fun a ha ha' => (hother a ha').1 ha

/-- The cells of the other chains. -/
theorem Buckets.notMem_of_mem_others (h : Buckets null next heads ls) (hl : ls[i]? = some l)
    (ha : a ∈ (ls.set i []).flatten) : a ∉ l ∧ a ∈ ls.flatten := by
  have hperm := (flatten_set_perm hl).1
  have hdisj := List.disjoint_of_nodup_append (hperm.nodup_iff.mp h.nodup)
  exact ⟨fun hmem => hdisj hmem ha, hperm.mem_iff.mpr (List.mem_append_right _ ha)⟩

/-- The head of a chain is taken off the table. -/
theorem Buckets.pop (h : Buckets null next heads ls) (hl : ls[i]? = some (a :: l)) (hn : next a = some q) :
    Buckets null next (heads.set i q) (ls.set i l) := by
  obtain ⟨p, hp, hc⟩ := h.exists_head hl
  obtain ⟨rfl, _, q', hn', hc⟩ := chain_cons_iff.mp hc
  obtain rfl : q = q' := Option.some.inj (hn.symm.trans hn')
  refine h.set hl hc fun b hb => ⟨?_, rfl⟩
  exact fun hmem => (h.notMem_of_mem_others hl hb).1 (List.mem_cons_of_mem _ hmem)

variable [DecidableEq α]

/-- Writes off the table do not touch it. -/
theorem Buckets.update_of_notMem (h : Buckets null next heads ls) (ha : a ∉ ls.flatten) (x : Option α) :
    Buckets null (Function.update next a x) heads ls where
  length_eq := h.length_eq
  chain := by
    intro i p l hp hl
    exact (h.chain hp hl).update_of_notMem (fun hmem => ha (mem_flatten_of_getElem? hl hmem)) x
  nodup := h.nodup

/-- A new cell is put at the head of a chain. -/
theorem Buckets.push (h : Buckets null next heads ls) (hp : heads[i]? = some p) (hl : ls[i]? = some l)
    (hne : a ≠ null) (ha : a ∉ ls.flatten) :
    Buckets null (Function.update next a (some p)) (heads.set i a) (ls.set i (a :: l)) := by
  have hal : a ∉ l := fun hmem => ha (mem_flatten_of_getElem? hl hmem)
  refine h.set hl (.cons hne (Function.update_self ..) ((h.chain hp hl).update_of_notMem hal _)) fun b hb => ?_
  obtain ⟨hbl, hb⟩ := h.notMem_of_mem_others hl hb
  have hba : b ≠ a := by
    rintro rfl
    exact ha hb
  rw [Function.update_of_ne hba]
  exact ⟨by simp [hba, hbl], rfl⟩

/-- The cell after `a` is taken out of its chain. -/
theorem Buckets.unlink (h : Buckets null next heads ls) (hl : ls[i]? = some (l₁ ++ a :: b :: l₂))
    (hn : next b = some q) : Buckets null (Function.update next a (some q)) heads (ls.set i (l₁ ++ a :: l₂)) := by
  obtain ⟨p, hp, hc⟩ := h.exists_head hl
  have hset : heads.set i p = heads := by
    obtain ⟨hi, rfl⟩ := List.getElem?_eq_some_iff.mp hp
    exact List.set_getElem_self hi
  rw [← hset]
  refine h.set hl (hc.unlink hn) fun c hc' => ?_
  have hcl := (h.notMem_of_mem_others hl hc').1
  have hca : c ≠ a := by
    rintro rfl
    simp at hcl
  rw [Function.update_of_ne hca]
  exact ⟨fun hmem => hcl (by simp at hmem ⊢; tauto), rfl⟩

end

/-! ### Cells distributed over the chains -/

/-- The cells of `l`, one after the other, go to the head of the chain that `idx` names. -/
def distribute (idx : α → ℕ) (l : List α) (ls : List (List α)) : List (List α) :=
  l.foldl (fun ls a => ls.set (idx a) (a :: (ls[idx a]?).getD [])) ls

section

variable {idx idx' : α → ℕ} {l l' : List α} {ls : List (List α)} {a : α} {i : ℕ}

@[simp] theorem distribute_nil : distribute idx [] ls = ls := rfl

theorem distribute_cons :
    distribute idx (a :: l) ls = distribute idx l (ls.set (idx a) (a :: (ls[idx a]?).getD [])) := rfl

theorem distribute_append : distribute idx (l ++ l') ls = distribute idx l' (distribute idx l ls) :=
  List.foldl_append ..

@[simp] theorem length_distribute : (distribute idx l ls).length = ls.length := by
  induction l generalizing ls with
  | nil => rfl
  | cons a l ih => rw [distribute_cons, ih, List.length_set]

/-- The chain at `i` gets its cells, in the reverse order. -/
theorem getElem?_distribute (h : ls[i]? = some l') :
    (distribute idx l ls)[i]? = some ((l.filter fun a => idx a = i).reverse ++ l') := by
  induction l generalizing ls l' with
  | nil => simpa using h
  | cons a l ih =>
    rw [distribute_cons]
    by_cases ha : idx a = i
    · subst ha
      have hi := (List.getElem?_eq_some_iff.mp h).1
      have hset : (ls.set (idx a) (a :: (ls[idx a]?).getD []))[idx a]? = some (a :: l') := by
        rw [List.getElem?_set_self hi, h]
        rfl
      rw [ih hset]
      simp
    · have hset : (ls.set (idx a) (a :: (ls[idx a]?).getD []))[i]? = some l' := by rw [List.getElem?_set_ne ha, h]
      rw [ih hset]
      simp [ha]

/-- No cell is lost, and none is there twice. -/
theorem distribute_perm (h : ∀ a ∈ l, idx a < ls.length) : (distribute idx l ls).flatten.Perm (l ++ ls.flatten) := by
  induction l generalizing ls with
  | nil => exact .refl _
  | cons a l ih =>
    have hget : ls[idx a]? = some (ls.get ⟨idx a, h a List.mem_cons_self⟩) := List.getElem?_eq_getElem _
    rw [distribute_cons, hget]
    refine (ih fun b hb => by simpa using h b (List.mem_cons_of_mem _ hb)).trans ?_
    refine (List.Perm.append_left l ((flatten_set_perm hget).2 _)).trans ?_
    refine List.perm_middle.trans (List.Perm.cons a (List.Perm.append_left l ?_))
    exact (flatten_set_perm hget).1.symm

end

end PetLab.Lib
