import PetLab.VMproject.FreeSpec

/-!
# When the first table decides the walk

`petmem_free_vspace` is right as long as its walk ends in the first table it comes to:
a page table that covers the whole segment and the page after it, or the place where
a table is missing, when the pages that table would have covered are more than the
segment has (`FirstTable`). This module computes the walk in these cases.

Where a table is missing, the walk frees no page of the user. It takes the skip for the
end of the tables below and frees these, through pointers that may still be `NULL`:
`FirstTable` leaves out the alignments for which such a pointer is dereferenced. Where
the page directory has no page table, it also frees the page directory, if its scan
finds nothing in it (`freePages_no_pt`).
-/

namespace PetLab.VMproject

open PetLab.Lib

/-- The walk ends in the first table it comes to. -/
def FirstTable (m : Machine) (s numPages : ℕ) : Prop :=
  match child m m.cr3 (pmlEntry s) with
  | none => pte64Index s = 0 ∧ pde64Index s ≤ 1
  | some pdp =>
    match child m pdp (pdpEntry s) with
    | none => pte64Index s = 0 ∧ numPages < (512 - pde64Index s) * 512
    | some _ => s < petmemRegionEnd ∧ pte64Index s + numPages < 512

/-! ### Nothing is freed -/

/-- Memory after calls that only leave traces in the log, without a page in them. -/
structure Idle (m m' : Machine) : Prop where
  /-- Memory stays. -/
  mem : m'.mem = m.mem
  /-- The top table stays. -/
  cr3 : m'.cr3 = m.cr3
  /-- No page goes back to the allocator. -/
  allocated : m'.allocated = m.allocated
  /-- `free_page` was called with the address `0` at most. -/
  log : ∃ events, m'.log = m.log ++ events ∧ ∀ kind page, .freePage kind page ∈ events → page = none

theorem Idle.refl (m : Machine) : Idle m m := ⟨rfl, rfl, rfl, [], by simp, by simp⟩

theorem Idle.child_eq {m m' : Machine} (h : Idle m m') : child m' = child m := by
  funext f i
  simp only [child, h.mem]

theorem Idle.occupied_eq {m m' : Machine} (h : Idle m m') (base : ℕ) : occupied m' base = occupied m base := by
  simp only [occupied, h.mem]

/-- Clearing an entry that is not present. -/
theorem clearPresent_of_absent {m : Machine} {a : ℕ} (h : (m.mem a).present = false) : m.clearPresent a = m := by
  have he : ({ m.mem a with present := false } : Entry) = m.mem a := by
    rw [← h]
  rw [Machine.clearPresent, Machine.write, he, Function.update_eq_self]

/-- A table that was never looked at is "freed" through the entry that is missing. -/
theorem releaseTable_idle (kind : PageKind) (index indexOld : ℕ) {m : Machine} {p : ℕ}
    (h : (m.mem p).present = false) :
    ∃ m', releaseTable kind true index indexOld none (some p) m = some m' ∧ Idle m m' := by
  by_cases hnear : index = indexOld + 1 ∨ index = indexOld
  · exact ⟨m, releaseTable_of_near hnear, .refl m⟩
  · have hdrop : releaseTable kind true index indexOld none (some p) m =
        some ((m.note (.invlpg none)).freePage kind none) := by
      rw [releaseTable, if_pos (not_or.mp hnear)]
      simp only [if_true, Option.map_none, dropTable, Option.map_some, clearPresent_of_absent h]
    refine ⟨_, hdrop, rfl, rfl, ?_, [.invlpg none, .freePage kind none], ?_, ?_⟩
    · simp [Machine.freePage, Machine.note]
    · simp [Machine.freePage, Machine.note]
    · simp

/-! ### A table is missing -/

theorem room_eq {index : ℕ} (h : index < 512) : room index = 512 - index := by
  rw [room]
  omega

/-- The carry after a skip, which has set the index of the page table to `0`: the index
of the page directory moves a second time. -/
theorem FreeWalk.cascade_skip {w : FreeWalk} (h : w.ptIndex = 0) :
    ∃ pmlIndex pdpIndex, w.cascade = { w with pmlIndex := pmlIndex, pdpIndex := pdpIndex, pdIndex := w.pdIndex + 1 } ∧
      (pdpIndex = w.pdpIndex + 1 ∨ pdpIndex = w.pdpIndex) ∧ (w.pdIndex = 0 → pdpIndex = w.pdpIndex) := by
  unfold FreeWalk.cascade
  simp only [h, Nat.zero_mod, if_true]
  split_ifs with h₁ h₂
  · exact ⟨_, _, rfl, .inl rfl, by omega⟩
  · exact ⟨_, _, rfl, .inl rfl, by omega⟩
  · exact ⟨_, _, rfl, .inr rfl, fun _ => rfl⟩

/-- A walk of one iteration. -/
theorem freePages_one {numPages pmlCur : ℕ} {w : FreeWalk} {m' : Machine} (u : FreeWalk) (h₀ : w.pagesCovered = 0)
    (hbody : w.body pmlCur = some { u with m := m' }) (hend : numPages < u.pagesCovered) :
    freePages numPages pmlCur 1 w = .ok m' := by
  rw [freePages, if_pos (by omega), hbody]
  simp only
  rw [freePages, if_neg (by simpa using hend)]

section Missing

variable {m : Machine} {s numPages : ℕ}

theorem room_pdpe64Index (s : ℕ) : room (pdpe64Index s) = 512 - pdpe64Index s := room_eq (index_lt s 30)

theorem room_pde64Index (s : ℕ) : room (pde64Index s) = 512 - pde64Index s := room_eq (index_lt s 21)

theorem room_pte64Index (s : ℕ) : room (pte64Index s) = 512 - pte64Index s := room_eq (index_lt s 12)

/-- The walk where the top table has no entry. -/
theorem freePages_no_pdp (hpdp : child m m.cr3 (pmlEntry s) = none) (hpt : pte64Index s = 0)
    (hpd : pde64Index s ≤ 1) (hend : numPages < (512 - pdpe64Index s) * (512 - pde64Index s) * 512) :
    ∃ m', freePages numPages (m.cr3 * 512 + (pmlEntry s : ℕ)) 1 (.start m s) = .ok m' ∧ Idle m m' := by
  have habsent := child_eq_none_iff.mp hpdp
  have hprod : (512 - pdpe64Index s) * (512 - pde64Index s) * 512 < 2 ^ 64 := by
    have h₁ : (512 - pdpe64Index s) * (512 - pde64Index s) ≤ 512 * 512 :=
      Nat.mul_le_mul (Nat.sub_le ..) (Nat.sub_le ..)
    omega
  have hlook : (FreeWalk.start m s).look (m.cr3 * 512 + (pmlEntry s : ℕ)) =
      { FreeWalk.start m s with
        pmlIndex := pml4e64Index s + 1, pdpIndex := 0, pdIndex := 0, ptIndex := 0, pdpMine := true,
        pdMine := true, ptMine := true,
        pagesCovered := (512 - pdpe64Index s) * (512 - pde64Index s) * 512 } := by
    simp only [FreeWalk.look, FreeWalk.start, habsent, if_true, FreeWalk.cover, room_pdpe64Index, room_pde64Index,
      room_pte64Index, Nat.zero_add]
    rw [hpt, Nat.sub_zero, Nat.mod_eq_of_lt hprod]
  obtain ⟨pmlIndex, pdpIndex, hcascade, -, hb⟩ := FreeWalk.cascade_skip (congrArg FreeWalk.ptIndex hlook)
  rw [hlook] at hb
  obtain rfl : pdpIndex = 0 := hb rfl
  obtain ⟨m', hm', hidle⟩ := releaseTable_idle .pdp 0 (pdpe64Index s) habsent
  rw [hlook] at hcascade
  refine ⟨m', freePages_one _ rfl (FreeWalk.body_of (by rw [hlook, hcascade]) (releaseTable_of_near (.inr hpt.symm))
    (releaseTable_of_near ?_) hm') hend, hidle⟩
  show 0 + 1 = pde64Index s + 1 ∨ 0 + 1 = pde64Index s
  omega

/-- The walk where the page directory pointer table has no entry. -/
theorem freePages_no_pd {pdp : ℕ} (hpdp : child m m.cr3 (pmlEntry s) = some pdp)
    (hpd : child m pdp (pdpEntry s) = none) (hpt : pte64Index s = 0)
    (hend : numPages < (512 - pde64Index s) * 512) :
    ∃ m', freePages numPages (m.cr3 * 512 + (pmlEntry s : ℕ)) 1 (.start m s) = .ok m' ∧ Idle m m' := by
  obtain ⟨hpres, rfl⟩ := child_eq_some_iff.mp hpdp
  have habsent := child_eq_none_iff.mp hpd
  have hlook : (FreeWalk.start m s).look (m.cr3 * 512 + (pmlEntry s : ℕ)) =
      { FreeWalk.start m s with
        pdpIndex := pdpe64Index s + 1, pdIndex := 0, ptIndex := 0, pdMine := true, ptMine := true,
        pdpCur := some ((m.mem (m.cr3 * 512 + (pmlEntry s : ℕ))).base * 512 + (pdpEntry s : ℕ)),
        pagesCovered := (512 - pde64Index s) * 512 } := by
    have hprod : (512 - pde64Index s) * 512 < 2 ^ 64 := by omega
    have habsent' : (m.mem ((m.mem (m.cr3 * 512 + (pmlEntry s : ℕ))).base * 512 + pdpe64Index s)).present = false :=
      habsent
    simp only [FreeWalk.look, FreeWalk.start, hpres, habsent', Bool.true_eq_false, if_false, if_true,
      FreeWalk.cover, room_pde64Index, room_pte64Index, Nat.zero_add]
    rw [hpt, Nat.sub_zero, Nat.mod_eq_of_lt hprod]
    rfl
  obtain ⟨pmlIndex, pdpIndex, hcascade, -, hb⟩ := FreeWalk.cascade_skip (congrArg FreeWalk.ptIndex hlook)
  rw [hlook] at hb
  obtain rfl : pdpIndex = pdpe64Index s + 1 := hb rfl
  obtain ⟨m', hm', hidle⟩ := releaseTable_idle .pd 1 (pde64Index s) habsent
  rw [hlook] at hcascade
  exact ⟨m', freePages_one _ rfl (FreeWalk.body_of (by rw [hlook, hcascade]) (releaseTable_of_near (.inr hpt.symm))
    hm' (releaseTable_of_near (.inl rfl))) hend, hidle⟩

/-- The walk where the page directory has no entry: it frees the page directory, if the
scan finds nothing in it. -/
theorem freePages_no_pt {pdp pd : ℕ} (hpdp : child m m.cr3 (pmlEntry s) = some pdp)
    (hpd : child m pdp (pdpEntry s) = some pd) (hpt : child m pd (pdEntry s) = none)
    (hend : pte64Index s + numPages < 512) :
    ∃ m₁, Idle m m₁ ∧ freePages numPages (m.cr3 * 512 + (pmlEntry s : ℕ)) 1 (.start m s) =
      .ok (if occupied m pd then m₁
        else ((m₁.clearPresent (pdp * 512 + pdpEntry s)).note (.invlpg (some pd))).freePage .pd (some pd)) := by
  obtain ⟨hpres, rfl⟩ := child_eq_some_iff.mp hpdp
  obtain ⟨hpres', hbase⟩ := child_eq_some_iff.mp hpd
  have habsent := child_eq_none_iff.mp hpt
  set pdpCur := (m.mem (m.cr3 * 512 + (pmlEntry s : ℕ))).base * 512 + (pdpEntry s : ℕ) with hcur
  have hlook : (FreeWalk.start m s).look (m.cr3 * 512 + (pmlEntry s : ℕ)) =
      { FreeWalk.start m s with
        pdIndex := pde64Index s + 1, ptIndex := 0, ptMine := true, pdpCur := some pdpCur,
        pdCur := some (pd * 512 + (pdEntry s : ℕ)), pagesCovered := 512 - pte64Index s } := by
    have hprod : 512 - pte64Index s < 2 ^ 64 := by omega
    have hcur' : (m.mem (m.cr3 * 512 + (pmlEntry s : ℕ))).base * 512 + pdpe64Index s = pdpCur := rfl
    have habsent' : (m.mem (pd * 512 + pde64Index s)).present = false := habsent
    simp only [FreeWalk.look, FreeWalk.start, hpres, hcur', hpres', hbase, habsent', Bool.true_eq_false, if_false,
      if_true, FreeWalk.cover, room_pte64Index, Nat.zero_add, Nat.mod_eq_of_lt hprod]
    rfl
  obtain ⟨pmlIndex, pdpIndex, hcascade, hb, -⟩ := FreeWalk.cascade_skip (congrArg FreeWalk.ptIndex hlook)
  rw [hlook] at hb hcascade
  obtain ⟨m₁, hm₁, hidle⟩ := releaseTable_idle .pt 0 (pte64Index s) habsent
  have hdiv : (pd * 512 + (pdEntry s : ℕ)) / 512 = pd := by
    have := (pdEntry s).isLt
    omega
  have hscan : releaseTable .pd false (pde64Index s + 1 + 1) (pde64Index s) (some (pd * 512 + (pdEntry s : ℕ)))
      (some pdpCur) m₁ =
        some (if occupied m pd then m₁
          else ((m₁.clearPresent pdpCur).note (.invlpg (some pd))).freePage .pd (some pd)) := by
    rw [releaseTable, if_pos (by omega)]
    simp only [Option.map_some, hdiv, dropTable, hidle.occupied_eq, Bool.false_eq_true, if_false]
    split_ifs <;> rfl
  refine ⟨m₁, hidle, freePages_one _ rfl (FreeWalk.body_of (by rw [hlook, hcascade]) hm₁ hscan
    (releaseTable_of_near hb)) ?_⟩
  show numPages < 512 - pte64Index s
  omega

end Missing

/-! ### What a free does -/

/-- The page after the segment is not mapped, and if the walk comes to scan a page
directory, the scan finds something in it or the directory maps no page. -/
structure Spared (m : Machine) (s numPages : ℕ) : Prop where
  /-- The page after. -/
  after : translate m (s + 4096 * numPages) = none
  /-- The scan. -/
  scan : ∀ pdp pd, child m m.cr3 (pmlEntry s) = some pdp → child m pdp (pdpEntry s) = some pd →
    child m pd (pdEntry s) = none → occupied m pd = true ∨ ∀ i j, descend (child m) pd [i, j] = none

/-- Memory after the walk over the segment of `numPages` pages at `s`. -/
structure Freed (m m' : Machine) (s numPages : ℕ) : Prop where
  /-- The tables of the region are still unshared. -/
  unshared : TablesUnshared m'
  /-- The page allocator knows of all pages in use. -/
  tracked : Tracked m'
  /-- No page of the segment is mapped. -/
  gone : ∀ v, s ≤ v → v < s + 4096 * numPages → translate m' v = none
  /-- No page is mapped anew. -/
  fewer : ∀ v, translate m' v = none ∨ translate m' v = translate m v
  /-- The other pages stay, if the walk spares them. -/
  others : Spared m s numPages → ∀ v, ¬ (s ≤ v ∧ v < s + 4096 * numPages) → translate m' v = translate m v
  /-- The frames of the segment are freed once each, and no other, if the walk spares
  them. -/
  log : ∃ events, m'.log = m.log ++ events ∧
    (∀ v f, s ≤ v → v < s + 4096 * numPages → translate m v = some f →
      events.countP (KernelEvent.frees f) = 1) ∧
    (Spared m s numPages → ∀ f, .freePage .user (some f) ∈ events →
      ∃ v, s ≤ v ∧ v < s + 4096 * numPages ∧ translate m v = some f)

section Freed

variable {m m' : Machine} {s numPages : ℕ}

/-- An address of the segment, or of the page after it, lies in the region; the path to it. -/
theorem pagePath_of_segment (hs : InRegion s) (halign : 4096 ∣ s) {v k : ℕ} (hk : pte64Index s + k < 512)
    (h₁ : s ≤ v) (h₂ : v < s + 4096 * (k + 1)) :
    InRegion v ∧ ∃ i : Fin 512, pte64Index s ≤ i ∧ i < pte64Index s + k + 1 ∧ pagePath v = tablePath s ++ [i] := by
  obtain ⟨c, rfl⟩ := halign
  have hlt : pte64Index (4096 * c) + (v / 4096 - c) < 512 := by omega
  have hr := inRegion_of_offset hs hlt
  have hpage : v / 4096 = (4096 * c + 4096 * (v / 4096 - c)) / 4096 := by omega
  have hv := hr.of_page hpage
  refine ⟨hv, ⟨_, hlt⟩, by simp, by simp only; omega, ?_⟩
  rw [← pagePath_offset hlt]
  exact (hr.pagePath_eq_iff hv.canonical).mpr hpage

theorem fin_offset {a : ℕ} {i : Fin 512} (h : a ≤ i) (hlt : a + (i - a) < 512) :
    (⟨a + (i - a), hlt⟩ : Fin 512) = i := by
  rw [Fin.ext_iff]
  show a + (i - a) = i
  omega

/-- The addresses behind an entry of the page table. -/
theorem page_of_pagePath (hs : InRegion s) {v : ℕ} (hv : Canonical v) {i : Fin 512} (hi : pte64Index s ≤ i)
    (h : pagePath v = tablePath s ++ [i]) :
    InRegion (s + 4096 * (i - pte64Index s)) ∧ v / 4096 = (s + 4096 * (i - pte64Index s)) / 4096 := by
  have hlt : pte64Index s + (i - pte64Index s) < 512 := by
    have := i.isLt
    omega
  have hr := inRegion_of_offset hs hlt
  refine ⟨hr, (hr.pagePath_eq_iff hv).mp ?_⟩
  rw [h, pagePath_offset hlt, fin_offset hi hlt]

theorem Cleared.freed (h : Cleared m m' (tablePath s) (pte64Index s) (pte64Index s + numPages + 1))
    (hs : InRegion s) (halign : 4096 ∣ s) (hfit : pte64Index s + numPages < 512) : Freed m m' s numPages := by
  -- a page is behind one of the entries, and unmapped, or stays as it was
  have hcases : ∀ v, Canonical v →
      (∃ i : Fin 512, pte64Index s ≤ i ∧ i < pte64Index s + numPages + 1 ∧ pagePath v = tablePath s ++ [i] ∧
        translate m' v = none) ∨ translate m' v = translate m v := by
    intro v hv
    rw [translate_of_canonical hv, translate_of_canonical hv]
    by_cases hi : ∃ i : Fin 512, pte64Index s ≤ i ∧ i < pte64Index s + numPages + 1 ∧ pagePath v = tablePath s ++ [i]
    · obtain ⟨i, hi₁, hi₂, hp⟩ := hi
      exact .inl ⟨i, hi₁, hi₂, hp, by rw [hp]; exact h.inside i hi₁ hi₂⟩
    · exact .inr (h.outside _ (length_pagePath v) fun i hi₁ hi₂ hp => hi ⟨i, hi₁, hi₂, hp⟩)
  refine ⟨h.unshared, h.tracked, ?_, ?_, ?_, ?_⟩
  · intro v h₁ h₂
    obtain ⟨hv, i, hi₁, hi₂, hp⟩ := pagePath_of_segment hs halign hfit h₁ (by omega)
    rw [translate_of_canonical hv.canonical, hp]
    exact h.inside i hi₁ hi₂
  · intro v
    by_cases hv : Canonical v
    · rcases hcases v hv with ⟨-, -, -, -, hn⟩ | hsame
      · exact .inl hn
      · exact .inr hsame
    · exact .inl (if_neg hv)
  · intro hsp v hout
    by_cases hv : Canonical v
    · rcases hcases v hv with ⟨i, hi₁, hi₂, hp, hn⟩ | hsame
      · -- the entry can only be the one of the page after the segment
        obtain ⟨hr, hpage⟩ := page_of_pagePath hs hv hi₁ hp
        have hlast : (i : ℕ) - pte64Index s = numPages := by
          obtain ⟨c, rfl⟩ := halign
          omega
        rw [hlast] at hr hpage
        rw [hn, translate_congr hr hpage, hsp.after]
      · exact hsame
    · rw [translate, translate, if_neg hv, if_neg hv]
  · obtain ⟨events, hlog, hcount, -, hkind⟩ := h.log
    refine ⟨events, hlog, ?_, ?_⟩
    · intro v f h₁ h₂ hf
      obtain ⟨hv, i, hi₁, hi₂, hp⟩ := pagePath_of_segment hs halign hfit h₁ (by omega)
      rw [translate_of_canonical hv.canonical, hp] at hf
      exact hcount i hi₁ hi₂ f hf
    · intro hsp f hmem
      obtain ⟨i, hi₁, hi₂, g, hg, -, hd⟩ := hkind _ _ hmem
      obtain rfl := Option.some.inj hg
      have hlt : pte64Index s + (i - pte64Index s) < 512 := by
        have := i.isLt
        omega
      have hf : translate m (s + 4096 * (i - pte64Index s)) = some f := by
        rw [translate_of_canonical (inRegion_of_offset hs hlt).canonical, pagePath_offset hlt, fin_offset hi₁ hlt]
        exact hd
      have hne : (i : ℕ) - pte64Index s ≠ numPages := by
        intro he
        rw [he, hsp.after] at hf
        cases hf
      exact ⟨s + 4096 * (i - pte64Index s), by omega, by omega, hf⟩

theorem Idle.translate_eq (h : Idle m m') (v : ℕ) : translate m' v = translate m v := by
  rw [translate, translate, h.child_eq, h.cr3]

theorem Idle.freed (h : Idle m m') (hU : TablesUnshared m) (hT : Tracked m)
    (hnone : ∀ v, s ≤ v → v < s + 4096 * numPages → translate m v = none) : Freed m m' s numPages := by
  obtain ⟨events, hlog, hpages⟩ := h.log
  refine ⟨?_, ?_, ?_, ?_, ?_, events, hlog, ?_, ?_⟩
  · rw [TablesUnshared, h.child_eq, h.cr3]
    exact hU
  · rintro f ⟨js, hjs, hf⟩
    rw [h.child_eq, h.cr3] at hf
    rw [h.allocated]
    exact hT f ⟨js, hjs, hf⟩
  · intro v h₁ h₂
    rw [h.translate_eq, hnone v h₁ h₂]
  · exact fun v => .inr (h.translate_eq v)
  · exact fun _ v _ => h.translate_eq v
  · intro v f h₁ h₂ hf
    rw [hnone v h₁ h₂] at hf
    cases hf
  · intro _ f hmem
    cases hpages _ _ hmem

/-- Freeing the page directory unlinks it from the table above. -/
theorem Idle.unlinked {m₁ : Machine} (h : Idle m m₁) {pdp pd : ℕ} {i : Fin 512} (hpd : child m pdp i = some pd) :
    Unlinked m (((m₁.clearPresent (pdp * 512 + i)).note (.invlpg (some pd))).freePage .pd (some pd)) pdp i pd where
  cr3 := h.cr3
  entry := hpd
  children g k := by rw [child_freePage, child_note, child_clearPresent, h.child_eq]
  allocated := by simp [Machine.freePage, Machine.note, Machine.clearPresent, Machine.write, h.allocated]

/-- A page under a page directory. -/
theorem translate_of_tables {pdp pd v : ℕ} (hv : Canonical v) (hpdp : child m m.cr3 (pmlEntry v) = some pdp)
    (hpd : child m pdp (pdpEntry v) = some pd) : translate m v = descend (child m) pd [pdEntry v, ptEntry v] := by
  rw [translate_of_canonical hv, pagePath, descend_cons, hpdp, Option.bind_some, descend_cons, hpd, Option.bind_some]

theorem Idle.freed_of_drop {m₁ : Machine} (h : Idle m m₁) (hU : TablesUnshared m) (hT : Tracked m)
    (hs : InRegion s) {pdp pd : ℕ} (hpdp : child m m.cr3 (pmlEntry s) = some pdp)
    (hpd : child m pdp (pdpEntry s) = some pd) (hpt : child m pd (pdEntry s) = none) (hscan : occupied m pd = false)
    (hnone : ∀ v, s ≤ v → v < s + 4096 * numPages → translate m v = none) :
    Freed m (((m₁.clearPresent (pdp * 512 + pdpEntry s)).note (.invlpg (some pd))).freePage .pd (some pd)) s
      numPages := by
  have hun := h.unlinked hpd
  have hp : RegionPath ([pmlEntry s] ++ [pdpEntry s]) := hs.regionPath ⟨[pdEntry s, ptEntry s], rfl⟩
  have hd : descend (child m) m.cr3 [pmlEntry s] = some pdp := by
    rw [descend_cons, hpdp]
    rfl
  have hpaths := fun v => hun.paths hU (hp.above (List.prefix_append ..)) (by simp) hd (pagePath v) (by simp)
  have hfewer : ∀ v, translate (((m₁.clearPresent (pdp * 512 + pdpEntry s)).note
      (.invlpg (some pd))).freePage .pd (some pd)) v = none ∨ translate (((m₁.clearPresent
      (pdp * 512 + pdpEntry s)).note (.invlpg (some pd))).freePage .pd (some pd)) v = translate m v := by
    intro v
    by_cases hv : Canonical v
    · rw [translate_of_canonical hv, translate_of_canonical hv]
      rcases hpaths v with ⟨-, h'⟩ | ⟨-, h'⟩
      · exact .inl h'
      · exact .inr h'
    · exact .inl (if_neg hv)
  refine ⟨hun.unshared hU (hp.above (List.prefix_append ..)) (by simp) hd, hun.tracked hU hp (by simp) hd hT,
    ?_, hfewer, ?_, ?_⟩
  · intro v h₁ h₂
    rcases hfewer v with h' | h'
    · exact h'
    · rw [h', hnone v h₁ h₂]
  · intro hsp v _
    by_cases hv : Canonical v
    · rcases hpaths v with ⟨hthrough, h'⟩ | ⟨-, h'⟩
      · -- the page directory that is freed maps no page
        have hempty := (hsp.scan pdp pd hpdp hpd hpt).resolve_left (by rw [hscan]; decide)
        obtain ⟨h₁, h₂, -⟩ : pmlEntry s = pmlEntry v ∧ pdpEntry s = pdpEntry v ∧ True := by
          simpa [pagePath] using hthrough
        rw [h₁] at hpdp
        rw [h₂] at hpd
        rw [translate_of_canonical hv, h', translate_of_tables hv hpdp hpd, hempty]
      · rw [translate_of_canonical hv, translate_of_canonical hv, h']
    · rw [translate, translate, if_neg hv, if_neg hv]
  · obtain ⟨events, hlog, hpages⟩ := h.log
    refine ⟨events ++ [.invlpg (some pd), .freePage .pd (some pd)], ?_, ?_, ?_⟩
    · simp [Machine.freePage, Machine.note, Machine.clearPresent, Machine.write, hlog]
    · intro v f h₁ h₂ hf
      rw [hnone v h₁ h₂] at hf
      cases hf
    · intro _ f hmem
      have hold : .freePage .user (some f) ∈ events := by simpa using hmem
      cases hpages _ _ hold

/-- How the walk ends when the first table decides it: nothing is freed, and the segment and
the page after it are not mapped; or the page directory is, after the scan; or the
entries of the segment and of the page after it are cleared. -/
inductive FirstWalk (m : Machine) (s numPages : ℕ) : Machine → Prop where
  /-- Nothing is freed. -/
  | idle {m' : Machine} (idle : Idle m m')
      (unmapped : ∀ v, s ≤ v → v < s + 4096 * (numPages + 1) → translate m v = none)
      (scan : ∀ pdp pd, child m m.cr3 (pmlEntry s) = some pdp → child m pdp (pdpEntry s) = some pd →
        occupied m pd = true) : FirstWalk m s numPages m'
  /-- The page directory is freed. -/
  | drop {m₁ : Machine} {pdp pd : ℕ} (idle : Idle m m₁) (region : InRegion s)
      (hpdp : child m m.cr3 (pmlEntry s) = some pdp) (hpd : child m pdp (pdpEntry s) = some pd)
      (hpt : child m pd (pdEntry s) = none) (scan : occupied m pd = false)
      (unmapped : ∀ v, s ≤ v → v < s + 4096 * (numPages + 1) → translate m v = none) :
      FirstWalk m s numPages
        (((m₁.clearPresent (pdp * 512 + pdpEntry s)).note (.invlpg (some pd))).freePage .pd (some pd))
  /-- Entries of a page table are cleared. -/
  | clear {m' : Machine} {t : ℕ} (region : InRegion s) (fit : pte64Index s + numPages < 512)
      (table : descend (child m) m.cr3 (tablePath s) = some t)
      (cleared : Cleared m m' (tablePath s) (pte64Index s) (pte64Index s + numPages + 1)) :
      FirstWalk m s numPages m'

/-- **The walk when the first table decides it.** -/
theorem freePages_firstWalk (hU : TablesUnshared m) (hT : Tracked m) (hstart : petmemRegionStart ≤ s)
    (hend : s + 4096 * numPages ≤ petmemRegionEnd) (halign : 4096 ∣ s) (h : FirstTable m s numPages) :
    ∃ fuel m', freePages numPages (m.cr3 * 512 + pml4e64Index s * 8) fuel (.start m s) = .ok m' ∧
      FirstWalk m s numPages m' := by
  obtain ⟨c, rfl⟩ := halign
  simp only [petmemRegionStart, petmemRegionEnd] at hstart hend
  have hpml : ∀ v, v < 2 ^ 39 → pml4e64Index v = 0 := by
    intro v hv
    rw [pml4e64Index_eq]
    omega
  have hcur : m.cr3 * 512 + pml4e64Index (4096 * c) * 8 = m.cr3 * 512 + (pmlEntry (4096 * c) : ℕ) := by
    simp [pmlEntry, hpml (4096 * c) (by omega)]
  rw [hcur]
  have hlow : ∀ v, v < 4096 * c + 4096 * (numPages + 1) → v < 2 ^ 39 := by
    intro v hv
    rw [Nat.mul_succ, ← Nat.add_assoc] at hv
    omega
  have hcanon : ∀ v, v < 4096 * c + 4096 * (numPages + 1) → Canonical v :=
    fun v hv => .inl ((hlow v hv).trans (by decide))
  have htop : ∀ v, v < 4096 * c + 4096 * (numPages + 1) → pmlEntry v = pmlEntry (4096 * c) := by
    intro v hv
    have hv' := hpml v (hlow v hv)
    have hs' := hpml (4096 * c) (by omega)
    rw [Fin.ext_iff]
    exact hv'.trans hs'.symm
  unfold FirstTable at h
  cases hpdp : child m m.cr3 (pmlEntry (4096 * c)) with
  | none =>
    rw [hpdp] at h
    have hcover : numPages < (512 - pdpe64Index (4096 * c)) * (512 - pde64Index (4096 * c)) * 512 := by
      have hp := pdpe64Index_eq (4096 * c)
      rcases Nat.le_one_iff_eq_zero_or_eq_one.mp h.2 with h₀ | h₀
      · rw [h₀]
        omega
      · rw [h₀]
        omega
    obtain ⟨m', hm', hidle⟩ := freePages_no_pdp hpdp h.1 h.2 hcover
    refine ⟨1, m', hm', .idle hidle (fun v _ hv => ?_) fun pdp pd h₁ => ?_⟩
    · rw [translate_of_canonical (hcanon v hv), pagePath, descend_cons, htop v hv, hpdp]
      rfl
    · cases hpdp.symm.trans h₁
  | some pdp =>
    simp only [hpdp] at h
    cases hpd : child m pdp (pdpEntry (4096 * c)) with
    | none =>
      simp only [hpd] at h
      obtain ⟨m', hm', hidle⟩ := freePages_no_pd hpdp hpd h.1 h.2
      refine ⟨1, m', hm', .idle hidle (fun v hv₁ hv => ?_) fun pdp' pd h₁ h₂ => ?_⟩
      · have hsame : pdpEntry v = pdpEntry (4096 * c) := by
          have h₁ := h.1
          have h₂ := h.2
          simp only [pdpEntry, Fin.mk.injEq, pdpe64Index_eq, pde64Index_eq, pte64Index_eq] at h₁ h₂ ⊢
          omega
        rw [translate_of_canonical (hcanon v hv), pagePath, descend_cons, htop v hv, hpdp, Option.bind_some,
          descend_cons, hsame, hpd]
        rfl
      · obtain rfl := Option.some.inj (hpdp.symm.trans h₁)
        cases hpd.symm.trans h₂
    | some pd =>
      simp only [hpd] at h
      have hs : InRegion (4096 * c) := ⟨hstart, h.1⟩
      cases hpt : child m pd (pdEntry (4096 * c)) with
      | none =>
        have hnone : ∀ v, 4096 * c ≤ v → v < 4096 * c + 4096 * (numPages + 1) → translate m v = none := by
          intro v hv₁ hv
          obtain ⟨hv', i, -, -, hp⟩ := pagePath_of_segment hs (Nat.dvd_mul_right ..) h.2 hv₁ hv
          rw [translate_of_canonical hv'.canonical, hp, tablePath]
          simp [descend_cons, hpdp, hpd, hpt]
        obtain ⟨m₁, hidle, hm'⟩ := freePages_no_pt hpdp hpd hpt h.2
        refine ⟨1, _, hm', ?_⟩
        split_ifs with hscan
        · refine .idle hidle hnone fun pdp' pd' h₁ h₂ => ?_
          obtain rfl := Option.some.inj (hpdp.symm.trans h₁)
          obtain rfl := Option.some.inj (hpd.symm.trans h₂)
          exact hscan
        · exact .drop hidle hs hpdp hpd hpt (by simpa using hscan) hnone
      | some t =>
        have ht : descend (child m) m.cr3 (tablePath (4096 * c)) = some t := by
          simp [tablePath, descend_cons, hpdp, hpd, hpt]
        have h₀ : AtPage m (4096 * c) numPages 0 (.start m (4096 * c)) :=
          ⟨rfl, Cleared.refl hU hT _ _, fun _ => ⟨rfl, rfl, rfl⟩⟩
        obtain ⟨m', hm', hc⟩ := freePages_of_atPage hs h.2 ht h₀ (Nat.zero_add _)
        exact ⟨_, m', hm', .clear hs h.2 ht hc⟩

theorem FirstWalk.freed (h : FirstWalk m s numPages m') (hU : TablesUnshared m) (hT : Tracked m)
    (halign : 4096 ∣ s) : Freed m m' s numPages := by
  cases h with
  | idle hidle hnone _ => exact hidle.freed hU hT fun v h₁ h₂ => hnone v h₁ (by omega)
  | drop hidle hs hpdp hpd hpt hscan hnone =>
    exact hidle.freed_of_drop hU hT hs hpdp hpd hpt hscan fun v h₁ h₂ => hnone v h₁ (by omega)
  | clear hs hfit ht hc => exact hc.freed hs halign hfit

/-- An address under the page directory of `s`, by its last two entries. -/
theorem exists_under_pd (hs : InRegion s) (i j : Fin 512) :
    ∃ v, InRegion v ∧ pmlEntry v = pmlEntry s ∧ pdpEntry v = pdpEntry s ∧ pdEntry v = i ∧ ptEntry v = j := by
  have hi := i.isLt
  have hj := j.isLt
  refine ⟨s / 1073741824 * 1073741824 + i * 2097152 + j * 4096, ?_, ?_, ?_, ?_, ?_⟩
  · simp only [InRegion, petmemRegionStart, petmemRegionEnd] at hs ⊢
    omega
  · simp only [pmlEntry, Fin.mk.injEq, pml4e64Index_eq]
    omega
  · simp only [pdpEntry, Fin.mk.injEq, pdpe64Index_eq]
    omega
  · rw [Fin.ext_iff]
    simp only [pdEntry, pde64Index_eq]
    omega
  · rw [Fin.ext_iff]
    simp only [ptEntry, pte64Index_eq]
    omega

/-- The walk takes no translation away exactly when the segment is not mapped and the
others are spared. -/
theorem FirstWalk.same_iff (h : FirstWalk m s numPages m') (hU : TablesUnshared m) (hT : Tracked m)
    (halign : 4096 ∣ s) :
    (∀ v, InRegion v → translate m' v = translate m v) ↔
      Spared m s numPages ∧ ∀ v, s ≤ v → v < s + 4096 * numPages → translate m v = none := by
  have hf := h.freed hU hT halign
  refine ⟨fun hsame => ?_, fun ⟨hsp, hseg⟩ v _ => ?_⟩
  · cases h with
    | idle hidle hnone hscan =>
      exact ⟨⟨hnone _ (by omega) (by omega), fun pdp pd h₁ h₂ _ => .inl (hscan pdp pd h₁ h₂)⟩,
        fun v h₁ h₂ => hnone v h₁ (by omega)⟩
    | @drop m₁ pdp pd hidle hs hpdp hpd hpt hscan hnone =>
      refine ⟨⟨hnone _ (by omega) (by omega), fun pdp' pd' h₁ h₂ _ => ?_⟩, fun v h₁ h₂ => hnone v h₁ (by omega)⟩
      obtain rfl := Option.some.inj (hpdp.symm.trans h₁)
      obtain rfl := Option.some.inj (hpd.symm.trans h₂)
      -- every page under the directory that was dropped is unmapped now
      refine .inr fun i j => ?_
      obtain ⟨v, hv, hpml, hpdpv, hi, hj⟩ := exists_under_pd hs i j
      have hun := hidle.unlinked hpd
      have hp : RegionPath ([pmlEntry s] ++ [pdpEntry s]) := hs.regionPath ⟨[pdEntry s, ptEntry s], rfl⟩
      have hd : descend (child m) m.cr3 [pmlEntry s] = some pdp := by
        rw [descend_cons, hpdp]
        rfl
      rw [← hi, ← hj, ← translate_of_tables hv.canonical (by rw [hpml, hpdp]) (by rw [hpdpv, hpd]), ← hsame v hv,
        translate_of_canonical hv.canonical]
      rcases hun.paths hU (hp.above (List.prefix_append ..)) (by simp) hd (pagePath v) (by simp) with
        ⟨-, hn⟩ | ⟨hnot, -⟩
      · exact hn
      · refine absurd ?_ hnot
        rw [pagePath, hpml, hpdpv]
        exact ⟨[pdEntry v, ptEntry v], rfl⟩
    | @clear m' t hs hfit ht hc =>
      have hgone : ∀ v, s ≤ v → v < s + 4096 * (numPages + 1) → translate m v = none := by
        intro v h₁ h₂
        obtain ⟨hv, i, hi₁, hi₂, hp⟩ := pagePath_of_segment hs halign hfit h₁ h₂
        rw [← hsame v hv, translate_of_canonical hv.canonical, hp]
        exact hc.inside i hi₁ hi₂
      refine ⟨⟨hgone _ (by omega) (by omega), fun pdp pd h₁ h₂ h₃ => ?_⟩, fun v h₁ h₂ => hgone v h₁ (by omega)⟩
      obtain ⟨pdp', pd', h₁', h₂', h₃'⟩ := tables_of_descend ht
      obtain rfl := Option.some.inj (h₁.symm.trans h₁')
      obtain rfl := Option.some.inj (h₂.symm.trans h₂')
      cases h₃.symm.trans h₃'
  · by_cases hin : s ≤ v ∧ v < s + 4096 * numPages
    · rw [hf.gone v hin.1 hin.2, hseg v hin.1 hin.2]
    · exact hf.others hsp v hin

theorem freePages_of_firstTable (hU : TablesUnshared m) (hT : Tracked m) (hstart : petmemRegionStart ≤ s)
    (hend : s + 4096 * numPages ≤ petmemRegionEnd) (halign : 4096 ∣ s) (h : FirstTable m s numPages) :
    ∃ fuel m', freePages numPages (m.cr3 * 512 + pml4e64Index s * 8) fuel (.start m s) = .ok m' ∧
      Freed m m' s numPages := by
  obtain ⟨fuel, m', hm', hw⟩ := freePages_firstWalk hU hT hstart hend halign h
  exact ⟨fuel, m', hm', hw.freed hU hT halign⟩

end Freed

end PetLab.VMproject
