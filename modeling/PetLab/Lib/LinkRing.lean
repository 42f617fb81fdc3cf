import Mathlib.Data.List.Chain
import Mathlib.Data.List.Nodup
import Mathlib.Logic.Function.Basic

/-!
# Circular doubly linked lists

The lists of the kernel: a node has a link to the next node and one to the previous node, and
a list is a head with the nodes that lead back to it. Nothing else says which nodes are in a
list, so that an operation on one list may write into another, or into a node that is
in none.

`LinkRing m h l` says that the links `m` hold the list `l` with head `h`. Adding a node behind the
head and taking a node out do to `l` what they should (`LinkRing.add`, `LinkRing.del`); they write only
to the links of the node and of nodes of the list (`LinkRing.add_kept`, `LinkRing.del_kept`), so that a ring
is kept when the links of its nodes are (`LinkRing.frame`). The links determine the list (`LinkRing.unique`).
-/

namespace PetLab.Lib

/-- The links of all nodes. -/
structure Links (ν : Type*) where
  /-- The node after. -/
  next : ν → ν
  /-- The node before. -/
  prev : ν → ν

variable {ν : Type*}

/-! ### The operations -/

section Operations

variable [DecidableEq ν] (m : Links ν)

/-- `node->next = value`. -/
def Links.setNext (node value : ν) : Links ν := { m with next := Function.update m.next node value }

/-- `node->prev = value`. -/
def Links.setPrev (node value : ν) : Links ν := { m with prev := Function.update m.prev node value }

/-- `INIT_LIST_HEAD`. -/
def Links.initHead (head : ν) : Links ν := (m.setNext head head).setPrev head head

/-- `list_add`: the node comes first. -/
def Links.add (new head : ν) : Links ν :=
  (((m.setPrev (m.next head) new).setNext new (m.next head)).setPrev new head).setNext head new

/-- `list_del`: the neighbours are linked to each other, and the links of the node are poisoned. -/
def Links.del (poison₁ poison₂ entry : ν) : Links ν :=
  (((m.setPrev (m.next entry) (m.prev entry)).setNext (m.prev entry) (m.next entry)).setNext entry poison₁).setPrev
    entry poison₂

variable {m}

theorem add_next (new head x : ν) :
    (m.add new head).next x = if x = head then new else if x = new then m.next head else m.next x := by
  simp only [Links.add, Links.setNext, Links.setPrev, Function.update_apply]

theorem add_prev (new head x : ν) :
    (m.add new head).prev x = if x = new then head else if x = m.next head then new else m.prev x := by
  simp only [Links.add, Links.setNext, Links.setPrev, Function.update_apply]

theorem del_next (p q entry x : ν) :
    (m.del p q entry).next x = if x = entry then p else if x = m.prev entry then m.next entry else m.next x := by
  simp only [Links.del, Links.setNext, Links.setPrev, Function.update_apply]

theorem del_prev (p q entry x : ν) :
    (m.del p q entry).prev x = if x = entry then q else if x = m.next entry then m.prev entry else m.prev x := by
  simp only [Links.del, Links.setNext, Links.setPrev, Function.update_apply]

theorem initHead_next (head x : ν) : (m.initHead head).next x = if x = head then head else m.next x := by
  simp only [Links.initHead, Links.setNext, Links.setPrev, Function.update_apply]

theorem initHead_prev (head x : ν) : (m.initHead head).prev x = if x = head then head else m.prev x := by
  simp only [Links.initHead, Links.setNext, Links.setPrev, Function.update_apply]

end Operations

/-! ### Rings -/

/-- `b` comes after `a`. -/
def Follows (m : Links ν) (a b : ν) : Prop := m.next a = b ∧ m.prev b = a

/-- The links hold the list `l` with head `h`. -/
structure LinkRing (m : Links ν) (h : ν) (l : List ν) : Prop where
  /-- The nodes are different. -/
  nodup : (h :: l).Nodup
  /-- Each leads to the next one, and back. -/
  chain : (h :: (l ++ [h])).IsChain (Follows m)

/-- In a chain of different nodes, the relation may be replaced by one that follows from it, except on what
leads out of the last node and into the first. -/
theorem isChain_imp_inner {R R' : ν → ν → Prop} {l : List ν} (hl : l.Nodup) (h : l.IsChain R)
    (hR : ∀ a ∈ l, ∀ b ∈ l, a ∉ l.getLast? → b ∉ l.head? → R a b → R' a b) : l.IsChain R' := by
  induction l with
  | nil => exact .nil
  | cons a t ih =>
    cases t with
    | nil => exact .singleton a
    | cons b t =>
      obtain ⟨hab, ht⟩ := List.isChain_cons_cons.mp h
      obtain ⟨ha, hbt⟩ := List.nodup_cons.mp hl
      refine List.isChain_cons_cons.mpr ⟨hR a (by simp) b (by simp) (fun hlast => ?_) (fun hhead => ?_) hab, ?_⟩
      · rw [List.getLast?_cons_cons] at hlast
        exact ha (List.mem_of_getLast? hlast)
      · obtain rfl := Option.some.inj hhead
        exact ha List.mem_cons_self
      · refine ih hbt ht fun c hc d hd hlast hhead =>
          hR c (List.mem_cons_of_mem a hc) d (List.mem_cons_of_mem a hd) ?_ ?_
        · rwa [List.getLast?_cons_cons]
        · rintro hda
          obtain rfl := Option.some.inj hda
          exact ha hd

section

variable {m m' : Links ν} {h x : ν} {l : List ν}

/-- The list is empty when the head is linked to itself. -/
theorem LinkRing.next_head (hr : LinkRing m h l) : m.next h = l.headD h := by
  have hc := hr.chain
  cases l with
  | nil => exact (List.isChain_cons_cons.mp hc).1.1
  | cons a l => exact (List.isChain_cons_cons.mp hc).1.1

/-- A ring is kept when the links of its nodes are. -/
theorem LinkRing.frame (hr : LinkRing m h l) (hkept : ∀ a ∈ h :: l, m'.next a = m.next a ∧ m'.prev a = m.prev a) :
    LinkRing m' h l := by
  refine ⟨hr.nodup, hr.chain.imp_of_mem_imp fun a b ha hb hab => ?_⟩
  have hmem : ∀ c, c ∈ h :: (l ++ [h]) → c ∈ h :: l := by
    intro c hc
    simp only [List.mem_cons, List.mem_append, List.not_mem_nil, or_false] at hc ⊢
    tauto
  exact ⟨(hkept a (hmem a ha)).1.trans hab.1, (hkept b (hmem b hb)).2.trans hab.2⟩

/-- The links determine the list. -/
theorem LinkRing.unique {l' : List ν} (hr : LinkRing m h l) (hr' : LinkRing m h l') : l = l' := by
  -- from the same node on, both follow `next` to the head
  have hsuffix : ∀ a (l l' : List ν), (a :: (l ++ [h])).IsChain (Follows m) → (a :: (l' ++ [h])).IsChain (Follows m) →
      h ∉ l → h ∉ l' → l = l' := by
    intro a l
    induction l generalizing a with
    | nil =>
      intro l' hc hc' _ hl'
      cases l' with
      | nil => rfl
      | cons b l' =>
        have hb : h = b := (List.isChain_cons_cons.mp hc).1.1.symm.trans (List.isChain_cons_cons.mp hc').1.1
        exact absurd (hb ▸ List.mem_cons_self) hl'
    | cons b l ih =>
      intro l' hc hc' hl hl'
      obtain ⟨hab, hc⟩ := List.isChain_cons_cons.mp hc
      cases l' with
      | nil =>
        have hb : b = h := hab.1.symm.trans (List.isChain_cons_cons.mp hc').1.1
        exact absurd (hb ▸ List.mem_cons_self) hl
      | cons b' l' =>
        obtain ⟨hab', hc'⟩ := List.isChain_cons_cons.mp hc'
        obtain rfl : b = b' := hab.1.symm.trans hab'.1
        rw [ih b l' hc hc' (fun hm => hl (List.mem_cons_of_mem b hm)) fun hm => hl' (List.mem_cons_of_mem b hm)]
  exact hsuffix h l l' hr.chain hr'.chain (List.nodup_cons.mp hr.nodup).1 (List.nodup_cons.mp hr'.nodup).1

/-- The neighbours of a node of the list. -/
theorem LinkRing.neighbours {l₁ l₂ : List ν} (hr : LinkRing m h (l₁ ++ x :: l₂)) :
    (h :: l₁).getLast? = some (m.prev x) ∧ (l₂ ++ [h]).head? = some (m.next x) := by
  have hc := hr.chain
  rw [show h :: (l₁ ++ x :: l₂ ++ [h]) = (h :: l₁) ++ x :: (l₂ ++ [h]) by simp] at hc
  obtain ⟨-, htail, hjoin⟩ := List.isChain_append.mp hc
  constructor
  · obtain ⟨y, hy⟩ : ∃ y, (h :: l₁).getLast? = some y := Option.isSome_iff_exists.mp (by simp)
    rw [hy]
    exact congrArg some (hjoin y hy x (by simp)).2.symm
  · obtain ⟨y, hy⟩ : ∃ y, (l₂ ++ [h]).head? = some y := Option.isSome_iff_exists.mp (by cases l₂ <;> simp)
    rw [hy]
    exact congrArg some ((List.isChain_cons.mp htail).1 y hy).1.symm

variable [DecidableEq ν]

theorem linkRing_initHead (m : Links ν) (h : ν) : LinkRing (m.initHead h) h [] := by
  refine ⟨by simp, List.isChain_cons_cons.mpr ⟨⟨?_, ?_⟩, .singleton h⟩⟩
  · rw [initHead_next, if_pos rfl]
  · rw [initHead_prev, if_pos rfl]

/-- Heads that are initialised one after another are empty lists. -/
theorem linkRing_initHeads {ι : Type*} (f : ι → ν) (is : List ι) (m : Links ν) {i : ι}
    (hi : i ∈ is ∨ LinkRing m (f i) []) : LinkRing (is.foldl (fun m j => m.initHead (f j)) m) (f i) [] := by
  induction is generalizing m with
  | nil => exact hi.resolve_left List.not_mem_nil
  | cons j is ih =>
    refine ih (m.initHead (f j)) ?_
    by_cases hij : f i = f j
    · rw [hij]
      exact .inr (linkRing_initHead m (f j))
    · rcases hi with hi | hr
      · rcases List.mem_cons.mp hi with rfl | hi
        · exact absurd rfl hij
        · exact .inl hi
      · refine .inr (hr.frame fun a ha => ?_)
        obtain rfl := List.mem_singleton.mp ha
        exact ⟨by rw [initHead_next, if_neg hij], by rw [initHead_prev, if_neg hij]⟩

/-- `list_add` puts the node first. -/
theorem LinkRing.add (hr : LinkRing m h l) (hx : x ∉ h :: l) : LinkRing (m.add x h) h (x :: l) := by
  have hxh : x ≠ h := fun he => hx (he ▸ List.mem_cons_self)
  have hxl : x ∉ l := fun hm => hx (List.mem_cons_of_mem h hm)
  obtain ⟨hhl, hl⟩ := List.nodup_cons.mp hr.nodup
  have hnext : (l ++ [h]).head? = some (m.next h) := by
    rw [hr.next_head]
    cases l <;> rfl
  have hnodup : (l ++ [h]).Nodup := by
    rw [← List.concat_eq_append]
    exact hl.concat hhl
  refine ⟨?_, ?_⟩
  · rw [List.nodup_cons, List.mem_cons, List.nodup_cons, not_or]
    exact ⟨⟨Ne.symm hxh, hhl⟩, hxl, hl⟩
  · rw [List.cons_append, List.isChain_cons_cons]
    refine ⟨⟨by rw [add_next, if_pos rfl], by rw [add_prev, if_pos rfl]⟩, List.isChain_cons.mpr ⟨fun y hy => ?_, ?_⟩⟩
    · obtain rfl : m.next h = y := by
        rw [hnext] at hy
        exact Option.some.inj hy
      have hne : m.next h ≠ x := by
        intro he
        have := List.mem_of_head? hnext
        rw [he, List.mem_append, List.mem_singleton] at this
        exact this.elim hxl hxh
      exact ⟨by rw [add_next, if_neg hxh, if_pos rfl], by rw [add_prev, if_neg hne, if_pos rfl]⟩
    · -- behind the first node nothing changes
      refine isChain_imp_inner hnodup (List.isChain_cons.mp hr.chain).2 fun a ha b hb hlast hhead hab => ?_
      have hmem : ∀ c ∈ l ++ [h], c ≠ x := by
        rintro c hc rfl
        rw [List.mem_append, List.mem_singleton] at hc
        exact hc.elim hxl hxh
      have hah : a ≠ h := by
        rintro rfl
        exact hlast (by simp)
      have hbn : b ≠ m.next h := by
        rintro rfl
        exact hhead hnext
      exact ⟨by rw [add_next, if_neg hah, if_neg (hmem a ha)]; exact hab.1,
        by rw [add_prev, if_neg (hmem b hb), if_neg hbn]; exact hab.2⟩

/-- `list_del` keeps the link between two nodes that are not at the gap. -/
theorem Follows.of_del {a b p q : ν} (hab : Follows m a b) (hax : a ≠ x) (hap : a ≠ m.prev x) (hbx : b ≠ x)
    (hbn : b ≠ m.next x) : Follows (m.del p q x) a b := by
  constructor
  · rw [del_next, if_neg hax, if_neg hap]
    exact hab.1
  · rw [del_prev, if_neg hbx, if_neg hbn]
    exact hab.2

/-- `list_del` takes the node out. -/
theorem LinkRing.del (hr : LinkRing m h l) (p q : ν) (hx : x ∈ l) : LinkRing (m.del p q x) h (l.erase x) := by
  obtain ⟨l₁, l₂, rfl⟩ := List.append_of_mem hx
  obtain ⟨hprev, hnext⟩ := hr.neighbours
  obtain ⟨hhl, hl⟩ := List.nodup_cons.mp hr.nodup
  have hx₁ : x ∉ l₁ := fun hm => (List.nodup_append.mp hl).2.2 x hm x List.mem_cons_self rfl
  have hx₂ : x ∉ l₂ := (List.nodup_cons.mp (List.nodup_append.mp hl).2.1).1
  rw [List.erase_append_right _ hx₁, List.erase_cons_head]
  have hnodup : (h :: (l₁ ++ l₂)).Nodup := by
    refine hr.nodup.sublist (List.Sublist.cons_cons h ?_)
    exact List.Sublist.append_left (List.sublist_cons_self x l₂) l₁
  have hxh : x ≠ h := by
    rintro rfl
    exact hhl hx
  have hc := hr.chain
  rw [show h :: (l₁ ++ x :: l₂ ++ [h]) = (h :: l₁) ++ x :: (l₂ ++ [h]) by simp] at hc
  obtain ⟨hc₁, hc₂, -⟩ := List.isChain_append.mp hc
  -- the nodes before `x`, and those after it with the head
  have hnodup₁ : (h :: l₁).Nodup := hnodup.sublist (List.Sublist.cons_cons h (List.sublist_append_left l₁ l₂))
  have hnodup₂ : (l₂ ++ [h]).Nodup := by
    rw [← List.concat_eq_append]
    refine ((List.nodup_append.mp (List.nodup_cons.mp hnodup).2).2.1).concat fun hm => ?_
    exact (List.nodup_cons.mp hnodup).1 (List.mem_append.mpr (.inr hm))
  have hmem₁ : m.prev x ∈ h :: l₁ := List.mem_of_getLast? hprev
  have hmem₂ : m.next x ∈ l₂ ++ [h] := List.mem_of_head? hnext
  have hapart : ∀ a ∈ l₁, ∀ b ∈ l₂, a ≠ b := fun a ha b hb =>
    (List.nodup_append.mp (List.nodup_cons.mp hnodup).2).2.2 a ha b hb
  have hh₁ : h ∉ l₁ := (List.nodup_cons.mp hnodup₁).1
  have hh₂ : h ∉ l₂ := fun hm => (List.nodup_cons.mp hnodup).1 (List.mem_append.mpr (.inr hm))
  refine ⟨hnodup, ?_⟩
  rw [show h :: (l₁ ++ l₂ ++ [h]) = (h :: l₁) ++ (l₂ ++ [h]) by simp, List.isChain_append]
  refine ⟨isChain_imp_inner hnodup₁ hc₁ ?_, isChain_imp_inner hnodup₂ (List.isChain_cons.mp hc₂).2 ?_, ?_⟩
  · intro a ha b hb hlast hhead hab
    have hax : a ≠ x := by
      rintro rfl
      exact (List.mem_cons.mp ha).elim hxh hx₁
    have hap : a ≠ m.prev x := by
      rintro rfl
      exact hlast hprev
    have hbh : b ≠ h := by
      rintro rfl
      exact hhead rfl
    have hb₁ : b ∈ l₁ := (List.mem_cons.mp hb).resolve_left hbh
    have hbx : b ≠ x := fun he => hx₁ (he ▸ hb₁)
    have hbn : b ≠ m.next x := by
      intro he
      rcases List.mem_append.mp hmem₂ with hn | hn
      · exact hapart b hb₁ (m.next x) hn he
      · exact hbh (he.trans (List.mem_singleton.mp hn))
    exact hab.of_del hax hap hbx hbn
  · intro a ha b hb hlast hhead hab
    have hah : a ≠ h := by
      rintro rfl
      exact hlast (by simp)
    have ha₂ : a ∈ l₂ := (List.mem_append.mp ha).resolve_right fun hm => hah (List.mem_singleton.mp hm)
    have hax : a ≠ x := fun he => hx₂ (he ▸ ha₂)
    have hap : a ≠ m.prev x := by
      intro he
      rcases List.mem_cons.mp hmem₁ with hp | hp
      · exact hah (he.trans hp)
      · exact hapart (m.prev x) hp a ha₂ he.symm
    have hbx : b ≠ x := by
      rintro rfl
      rcases List.mem_append.mp hb with hm | hm
      · exact hx₂ hm
      · exact hxh (List.mem_singleton.mp hm)
    have hbn : b ≠ m.next x := by
      rintro rfl
      exact hhead hnext
    exact hab.of_del hax hap hbx hbn
  · intro a ha b hb
    obtain rfl := Option.some.inj (hprev.symm.trans ha)
    obtain rfl := Option.some.inj (hnext.symm.trans hb)
    have hpx : m.prev x ≠ x := by
      intro he
      rw [he] at hmem₁
      exact (List.mem_cons.mp hmem₁).elim hxh hx₁
    have hnx : m.next x ≠ x := by
      intro he
      rw [he] at hmem₂
      rcases List.mem_append.mp hmem₂ with hm | hm
      · exact hx₂ hm
      · exact hxh (List.mem_singleton.mp hm)
    exact ⟨by rw [del_next, if_neg hpx, if_pos rfl], by rw [del_prev, if_neg hnx, if_pos rfl]⟩

/-! ### What the operations leave alone -/

/-- `list_add` writes to the links of the node and of nodes of the list. -/
theorem LinkRing.add_kept (hr : LinkRing m h l) {y : ν} (hyx : y ≠ x) (hy : y ∉ h :: l) :
    (m.add x h).next y = m.next y ∧ (m.add x h).prev y = m.prev y := by
  have hyh : y ≠ h := fun he => hy (he ▸ List.mem_cons_self)
  have hyn : y ≠ m.next h := by
    rw [hr.next_head]
    cases l with
    | nil => exact hyh
    | cons a l =>
      rintro rfl
      exact hy (List.mem_cons_of_mem h List.mem_cons_self)
  exact ⟨by rw [add_next, if_neg hyh, if_neg hyx], by rw [add_prev, if_neg hyx, if_neg hyn]⟩

/-- And so does `list_del`. -/
theorem LinkRing.del_kept (hr : LinkRing m h l) (p q : ν) (hx : x ∈ l) {y : ν} (hy : y ∉ h :: l) :
    (m.del p q x).next y = m.next y ∧ (m.del p q x).prev y = m.prev y := by
  obtain ⟨l₁, l₂, rfl⟩ := List.append_of_mem hx
  obtain ⟨hprev, hnext⟩ := hr.neighbours
  have hyx : y ≠ x := by
    rintro rfl
    exact hy (by simp)
  have hyp : y ≠ m.prev x := by
    rintro rfl
    have := List.mem_of_getLast? hprev
    exact hy (by simp only [List.mem_cons, List.mem_append] at this ⊢; tauto)
  have hyn : y ≠ m.next x := by
    rintro rfl
    have := List.mem_of_head? hnext
    exact hy (by simp only [List.mem_cons, List.mem_append, List.not_mem_nil, or_false] at this ⊢; tauto)
  exact ⟨by rw [del_next, if_neg hyx, if_neg hyp], by rw [del_prev, if_neg hyx, if_neg hyn]⟩

end

end PetLab.Lib
