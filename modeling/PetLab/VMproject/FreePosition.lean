import PetLab.VMproject.TableRelease

/-!
# Where the walk of `petmem_free_vspace` stands

The loop keeps its place twice: as four indices, one per level, and as the number of pages
covered. At the start of an iteration the indices should be below 512 and denote the page
that many pages after the start of the segment (`InPosition`), and an iteration should move
both by the same amount (`Advances`).

They come apart in two ways. The index of the page table is not reset when it reaches 512.
And a skip sets it to `0` before the code falls into `cascade`, which takes that for the end
of a table and moves the index of the page directory once more, so that no skip is
exact (`InPosition.not_advances`); when more than one table is missing the product added
to the count is wrong besides.

So the two agree exactly when the walk stays in the page table it starts in, with all
tables there (`position_kept_iff`).
-/

namespace PetLab.VMproject

open PetLab.Lib

/-- The virtual page the four indices denote. -/
def FreeWalk.page (w : FreeWalk) : ℕ := ((w.pmlIndex * 512 + w.pdpIndex) * 512 + w.pdIndex) * 512 + w.ptIndex

/-- The three tables on the way to the page are there. -/
def FreeWalk.tablesPresent (pmlCur : ℕ) (w : FreeWalk) : Prop :=
  let pdpCur := (w.m.mem pmlCur).base * 512 + w.pdpIndex
  let pdCur := (w.m.mem pdpCur).base * 512 + w.pdIndex
  (w.m.mem pmlCur).present = true ∧ (w.m.mem pdpCur).present = true ∧ (w.m.mem pdCur).present = true

/-- The indices are indices, and denote the page as many pages after the start of the
segment as were covered. -/
structure InPosition (freeStart : ℕ) (w : FreeWalk) : Prop where
  pdp : w.pdpIndex < 512
  pd : w.pdIndex < 512
  pt : w.ptIndex < 512
  page : w.page = freeStart / pageSize4KB % 2 ^ 36 + w.pagesCovered

/-- What an iteration that starts at `w` should do up to the end of `cascade`, at `w'`. -/
structure Advances (pmlCur : ℕ) (w w' : FreeWalk) : Prop where
  /-- A skip covers the pages it moves over. -/
  skip : ¬ w.tablesPresent pmlCur → w'.pagesCovered + w.page = w.pagesCovered + w'.page
  /-- No index is carried into twice. -/
  once : w'.pdIndex ≤ w.pdIndex + 1 ∧ w'.pdpIndex ≤ w.pdpIndex + 1 ∧ w'.pmlIndex ≤ w.pmlIndex + 1
  /-- An index that comes to its end is carried into the next one. -/
  carry : w.tablesPresent pmlCur →
    (w'.pdIndex = if w'.ptIndex % 512 = 0 then w.pdIndex + 1 else w.pdIndex) ∧
    (w'.pdpIndex = if w'.ptIndex % 512 = 0 ∧ w'.pdIndex % 512 = 0 then w.pdpIndex + 1 else w.pdpIndex) ∧
    (w'.pmlIndex = if w'.ptIndex % 512 = 0 ∧ w'.pdIndex % 512 = 0 ∧ w'.pdpIndex % 512 = 0 then w.pmlIndex + 1
      else w.pmlIndex)

/-- The walk that frees `numPages` pages from `freeStart` on keeps its place: whenever an
iteration starts, the indices and the count agree, and the iteration moves both alike. -/
def PositionKept (m : Machine) (freeStart numPages pmlCur : ℕ) : Prop :=
  ∀ its w, Exec (WalkStep numPages pmlCur) (.start m freeStart) its w → w.pagesCovered ≤ numPages →
    InPosition freeStart w ∧ Advances pmlCur w (w.look pmlCur).cascade

/-- The walk ends in the page table it starts in, and the three entries on the way to this
table are there and are not among the entries of it that the walk comes to. -/
def StaysInTable (m : Machine) (freeStart numPages pmlCur : ℕ) : Prop :=
  let pdpCur := (m.mem pmlCur).base * 512 + pdpe64Index freeStart
  let pdCur := (m.mem pdpCur).base * 512 + pde64Index freeStart
  let ptCur := (m.mem pdCur).base * 512 + pte64Index freeStart
  pte64Index freeStart + numPages < 512 ∧
    ∀ cur ∈ [pmlCur, pdpCur, pdCur], (m.mem cur).present = true ∧ ∀ k < numPages, cur ≠ ptCur + k

/-! ### A skip is not exact -/

section

variable {pmlCur freeStart : ℕ} {w : FreeWalk}

theorem room_pos {index : ℕ} (h : index < 512) : 1 ≤ room index ∧ room index ≤ 512 ∧ index + room index = 512 := by
  rw [room_eq h]
  omega

/-- The carry after a skip: the index of the page directory is moved. -/
theorem FreeWalk.cascade_of_zero {u : FreeWalk} (h : u.ptIndex = 0) :
    u.cascade.ptIndex = 0 ∧ u.cascade.pdIndex = u.pdIndex + 1 ∧ u.cascade.pagesCovered = u.pagesCovered ∧
      u.pdpIndex ≤ u.cascade.pdpIndex ∧ u.pmlIndex ≤ u.cascade.pmlIndex ∧
      (u.pdIndex = 0 → u.cascade.pdpIndex = u.pdpIndex ∧ u.cascade.pmlIndex = u.pmlIndex) := by
  unfold FreeWalk.cascade
  rw [if_pos (by rw [h])]
  simp only
  by_cases h₁ : (u.pdIndex + 1) % 512 = 0
  · rw [if_pos h₁]
    by_cases h₂ : (u.pdpIndex + 1) % 512 = 0
    · rw [if_pos h₂]
      exact ⟨h, rfl, rfl, Nat.le_succ _, Nat.le_succ _, by omega⟩
    · rw [if_neg h₂]
      exact ⟨h, rfl, rfl, Nat.le_succ _, le_rfl, by omega⟩
  · rw [if_neg h₁]
    exact ⟨h, rfl, rfl, le_rfl, le_rfl, fun _ => ⟨rfl, rfl⟩⟩

/-- What a skip does to the indices and the count: a table is missing below the top table,
below the next one, or below the page directory. -/
theorem FreeWalk.skip_cases {w' : FreeWalk} (h : ¬ w.tablesPresent pmlCur) (hw' : (w.look pmlCur).cascade = w') :
    w'.ptIndex = 0 ∧
    ((w'.pmlIndex = w.pmlIndex + 1 ∧ w'.pdpIndex = 0 ∧ w'.pdIndex = 1 ∧
        w'.pagesCovered = (w.pagesCovered + room w.pdpIndex * room w.pdIndex * room w.ptIndex) % 2 ^ 64) ∨
      (w'.pmlIndex = w.pmlIndex ∧ w'.pdpIndex = w.pdpIndex + 1 ∧ w'.pdIndex = 1 ∧
        w'.pagesCovered = (w.pagesCovered + room w.pdIndex * room w.ptIndex) % 2 ^ 64) ∨
      (w.pmlIndex ≤ w'.pmlIndex ∧ w.pdpIndex ≤ w'.pdpIndex ∧ w'.pdIndex = w.pdIndex + 2 ∧
        w'.pagesCovered = (w.pagesCovered + room w.ptIndex) % 2 ^ 64)) := by
  unfold FreeWalk.tablesPresent at h
  obtain ⟨u, hu⟩ : ∃ u, w.look pmlCur = u := ⟨_, rfl⟩
  rw [hu] at hw'
  subst hw'
  simp only [FreeWalk.look, FreeWalk.cover] at hu
  by_cases h₁ : (w.m.mem pmlCur).present = true
  · by_cases h₂ : (w.m.mem ((w.m.mem pmlCur).base * 512 + w.pdpIndex)).present = true
    · have h₃ : (w.m.mem ((w.m.mem ((w.m.mem pmlCur).base * 512 + w.pdpIndex)).base * 512 + w.pdIndex)).present =
          false := by simpa [h₁, h₂] using h
      simp only [h₁, h₂, h₃, Bool.true_eq_false, if_false, if_true] at hu
      have hpt : u.ptIndex = 0 := by rw [← hu]
      obtain ⟨c₁, c₂, c₃, c₄, c₅, -⟩ := FreeWalk.cascade_of_zero hpt
      refine ⟨c₁, .inr (.inr ⟨?_, ?_, ?_, ?_⟩)⟩
      · rw [← hu] at c₅ ⊢
        exact c₅
      · rw [← hu] at c₄ ⊢
        exact c₄
      · rw [c₂, ← hu]
      · rw [c₃, ← hu]
    · simp only [h₁, h₂, Bool.true_eq_false, if_false, if_true] at hu
      have hpt : u.ptIndex = 0 := by rw [← hu]
      have hpd : u.pdIndex = 0 := by rw [← hu]
      obtain ⟨c₁, c₂, c₃, -, -, c₆⟩ := FreeWalk.cascade_of_zero hpt
      obtain ⟨c₆, c₇⟩ := c₆ hpd
      refine ⟨c₁, .inr (.inl ⟨?_, ?_, by rw [c₂, hpd], ?_⟩)⟩
      · rw [c₇, ← hu]
      · rw [c₆, ← hu]
      · rw [c₃, ← hu]
  · simp only [h₁, if_true] at hu
    have hpt : u.ptIndex = 0 := by rw [← hu]
    have hpd : u.pdIndex = 0 := by rw [← hu]
    obtain ⟨c₁, c₂, c₃, -, -, c₆⟩ := FreeWalk.cascade_of_zero hpt
    obtain ⟨c₆, c₇⟩ := c₆ hpd
    refine ⟨c₁, .inl ⟨?_, ?_, by rw [c₂, hpd], ?_⟩⟩
    · rw [c₇, ← hu]
    · rw [c₆, ← hu]
    · rw [c₃, ← hu]

/-- **No skip is exact**: it moves over more pages than it adds to the count. -/
theorem InPosition.not_advances (hw : InPosition freeStart w) (hcov : w.pagesCovered < 2 ^ 36)
    (h : ¬ w.tablesPresent pmlCur) : ¬ Advances pmlCur w (w.look pmlCur).cascade := by
  intro hadv
  obtain ⟨w', hw'⟩ : ∃ w', (w.look pmlCur).cascade = w' := ⟨_, rfl⟩
  rw [hw'] at hadv
  have hskip := hadv.skip h
  have hcases := FreeWalk.skip_cases h hw'
  obtain ⟨ha₁, ha₂, ha⟩ := room_pos hw.pdp
  obtain ⟨hb₁, hb₂, hb⟩ := room_pos hw.pd
  obtain ⟨hc₁, hc₂, hc⟩ := room_pos hw.pt
  generalize room w.pdpIndex = a at *
  generalize room w.pdIndex = b at *
  generalize room w.ptIndex = c at *
  have hbc : b * c ≤ b * 512 := Nat.mul_le_mul_left b hc₂
  unfold FreeWalk.page at hskip
  obtain ⟨hpt, ⟨h₁, h₂, h₃, h₄⟩ | ⟨h₁, h₂, h₃, h₄⟩ | ⟨h₁, h₂, h₃, h₄⟩⟩ := hcases
  · -- `a * b * c` pages are counted, of the `(a - 1) * 512 ^ 2 + b * 512 + c` moved over
    have habc : a * b * c ≤ (a - 1) * 262144 + b * 512 := by
      obtain ⟨k, rfl⟩ : ∃ k, a = k + 1 := ⟨a - 1, by omega⟩
      have hk : k * (b * c) ≤ k * 262144 := Nat.mul_le_mul_left k (by omega)
      rw [Nat.mul_assoc, Nat.succ_mul, Nat.add_sub_cancel]
      omega
    generalize a * b * c = n at *
    rw [Nat.mod_eq_of_lt (by omega)] at h₄
    rw [h₁, h₂, h₃, h₄, hpt] at hskip
    omega
  · generalize b * c = n at *
    rw [Nat.mod_eq_of_lt (by omega)] at h₄
    rw [h₁, h₂, h₃, h₄, hpt] at hskip
    omega
  · rw [Nat.mod_eq_of_lt (by omega)] at h₄
    rw [h₃, h₄, hpt] at hskip
    omega

/-! ### Along one page table -/

/-- The entries on the way to the first page of the segment, and its own. -/
structure FirstEntries (m : Machine) (freeStart pmlCur pdpCur pdCur ptCur : ℕ) : Prop where
  pdp : pdpCur = (m.mem pmlCur).base * 512 + pdpe64Index freeStart
  pd : pdCur = (m.mem pdpCur).base * 512 + pde64Index freeStart
  pt : ptCur = (m.mem pdCur).base * 512 + pte64Index freeStart

/-- The loop has looked at the first `k` entries of the page table. -/
structure AtEntry (m : Machine) (freeStart ptCur k : ℕ) (w : FreeWalk) : Prop where
  pmlIndex : w.pmlIndex = pml4e64Index freeStart
  pdpIndex : w.pdpIndex = pdpe64Index freeStart
  pdIndex : w.pdIndex = pde64Index freeStart
  ptIndex : w.ptIndex = pte64Index freeStart + k
  covered : w.pagesCovered = k
  /-- No frame in an entry has changed. -/
  base : ∀ a, (w.m.mem a).base = (m.mem a).base
  /-- The entries looked at are not present any more. -/
  present : ∀ a, (w.m.mem a).present = true ↔ (m.mem a).present = true ∧ ∀ j < k, a ≠ ptCur + j

theorem atEntry_start (m : Machine) (freeStart ptCur : ℕ) : AtEntry m freeStart ptCur 0 (.start m freeStart) where
  pmlIndex := rfl
  pdpIndex := rfl
  pdIndex := rfl
  ptIndex := rfl
  covered := rfl
  base _ := rfl
  present a := by simp [FreeWalk.start]

theorem freeUserPage_base (m : Machine) (ptCur a : ℕ) : ((freeUserPage m ptCur).mem a).base = (m.mem a).base := by
  unfold freeUserPage
  split_ifs
  · by_cases h : a = ptCur
    · subst h
      simp [Machine.freePage, Machine.note, Machine.clearPresent, Machine.write]
    · simp [Machine.freePage, Machine.note, Machine.clearPresent, Machine.write, h]
  · rfl

theorem freeUserPage_present (m : Machine) (ptCur a : ℕ) :
    ((freeUserPage m ptCur).mem a).present = true ↔ (m.mem a).present = true ∧ a ≠ ptCur := by
  unfold freeUserPage
  split_ifs with hp
  · by_cases h : a = ptCur
    · subst h
      simp [Machine.freePage, Machine.note, Machine.clearPresent, Machine.write]
    · simp [Machine.freePage, Machine.note, Machine.clearPresent, Machine.write, h]
  · constructor
    · intro ha
      refine ⟨ha, ?_⟩
      rintro rfl
      exact hp ha
    · exact And.left

variable {m : Machine} {pdpCur pdCur ptCur k : ℕ}

theorem AtEntry.inPosition (h : AtEntry m freeStart ptCur k w) (hk : pte64Index freeStart + k < 512) :
    InPosition freeStart w where
  pdp := h.pdpIndex ▸ index_lt freeStart 30
  pd := h.pdIndex ▸ index_lt freeStart 21
  pt := h.ptIndex ▸ hk
  page := by
    rw [FreeWalk.page, h.pmlIndex, h.pdpIndex, h.pdIndex, h.ptIndex, h.covered, pml4e64Index_eq, pdpe64Index_eq,
      pde64Index_eq, pte64Index_eq, pageSize4KB]
    omega

/-- Whether the tables are there, seen from the start. -/
theorem AtEntry.tablesPresent_iff (h : AtEntry m freeStart ptCur k w)
    (he : FirstEntries m freeStart pmlCur pdpCur pdCur ptCur) :
    w.tablesPresent pmlCur ↔
      ∀ cur ∈ [pmlCur, pdpCur, pdCur], (m.mem cur).present = true ∧ ∀ j < k, cur ≠ ptCur + j := by
  unfold FreeWalk.tablesPresent
  simp only [h.base, h.pdpIndex, h.pdIndex, ← he.pdp, ← he.pd, h.present, List.mem_cons, List.not_mem_nil, or_false,
    forall_eq_or_imp, forall_eq]

/-- An iteration with all tables there looks at the next entry. -/
theorem AtEntry.look_eq (h : AtEntry m freeStart ptCur k w) (he : FirstEntries m freeStart pmlCur pdpCur pdCur ptCur)
    (hp : w.tablesPresent pmlCur) :
    w.look pmlCur = { w.cover 1 with
      pdpCur := some pdpCur, pdCur := some pdCur, ptCur := some (ptCur + k), ptIndex := w.ptIndex + 1,
      m := freeUserPage w.m (ptCur + k) } := by
  unfold FreeWalk.tablesPresent at hp
  simp only [h.base, h.pdpIndex, h.pdIndex, ← he.pdp, ← he.pd] at hp
  obtain ⟨h₁, h₂, h₃⟩ := hp
  have hpt : (m.mem pdCur).base * 512 + (pte64Index freeStart + k) = ptCur + k := by
    rw [he.pt, Nat.add_assoc]
  simp only [FreeWalk.look, FreeWalk.cover, h.base, h.pdpIndex, h.pdIndex, h.ptIndex, ← he.pdp, ← he.pd, h₁, h₂, h₃,
    Bool.true_eq_false, if_false, hpt]

/-- What the carry does to the indices. -/
theorem FreeWalk.cascade_carry (u : FreeWalk) :
    (u.cascade.pdIndex = if u.cascade.ptIndex % 512 = 0 then u.pdIndex + 1 else u.pdIndex) ∧
    (u.cascade.pdpIndex =
      if u.cascade.ptIndex % 512 = 0 ∧ u.cascade.pdIndex % 512 = 0 then u.pdpIndex + 1 else u.pdpIndex) ∧
    (u.cascade.pmlIndex =
      if u.cascade.ptIndex % 512 = 0 ∧ u.cascade.pdIndex % 512 = 0 ∧ u.cascade.pdpIndex % 512 = 0 then u.pmlIndex + 1
      else u.pmlIndex) := by
  unfold FreeWalk.cascade
  by_cases h₁ : u.ptIndex % 512 = 0
  · by_cases h₂ : (u.pdIndex + 1) % 512 = 0
    · by_cases h₃ : (u.pdpIndex + 1) % 512 = 0
      · simp [h₁, h₂, h₃]
      · simp [h₁, h₂, h₃]
    · simp [h₁, h₂]
  · simp [h₁]

/-- An iteration that looks at a page carries as it should. -/
theorem AtEntry.advances (h : AtEntry m freeStart ptCur k w) (he : FirstEntries m freeStart pmlCur pdpCur pdCur ptCur)
    (hp : w.tablesPresent pmlCur) : Advances pmlCur w (w.look pmlCur).cascade := by
  have hlook := h.look_eq he hp
  obtain ⟨hpd, hpdp, hpml⟩ := (w.look pmlCur).cascade_carry
  rw [show (w.look pmlCur).pdIndex = w.pdIndex by rw [hlook]; rfl] at hpd
  rw [show (w.look pmlCur).pdpIndex = w.pdpIndex by rw [hlook]; rfl] at hpdp
  rw [show (w.look pmlCur).pmlIndex = w.pmlIndex by rw [hlook]; rfl] at hpml
  refine ⟨fun h => absurd hp h, ⟨?_, ?_, ?_⟩, fun _ => ⟨hpd, hpdp, hpml⟩⟩
  · rw [hpd]
    split_ifs <;> omega
  · rw [hpdp]
    split_ifs <;> omega
  · rw [hpml]
    split_ifs <;> omega

/-- **One iteration** with all tables there goes to the next entry, and stays in the page
table unless that was the last one. -/
theorem AtEntry.step (h : AtEntry m freeStart ptCur k w) (he : FirstEntries m freeStart pmlCur pdpCur pdCur ptCur)
    (hp : w.tablesPresent pmlCur) (hk : pte64Index freeStart + k < 512) :
    ∃ w', w.body pmlCur = some w' ∧ w'.ptIndex = pte64Index freeStart + (k + 1) ∧ w'.pagesCovered = k + 1 ∧
      (pte64Index freeStart + (k + 1) < 512 → AtEntry m freeStart ptCur (k + 1) w') := by
  obtain ⟨u, hu⟩ : ∃ u, w.look pmlCur = u := ⟨_, rfl⟩
  have hlook := h.look_eq he hp
  rw [hu] at hlook
  obtain ⟨hm, hpt, hcov, hpd, hpdp, hsame⟩ := u.cascade_spec
  have hupt : u.ptIndex = w.ptIndex + 1 := by rw [hlook]
  have hucov : u.pagesCovered = k + 1 := by
    rw [hlook]
    show (w.pagesCovered + 1) % 2 ^ 64 = k + 1
    rw [h.covered]
    omega
  have hupd : u.pdIndex = w.pdIndex := by rw [hlook]; rfl
  have hupdp : u.pdpIndex = w.pdpIndex := by rw [hlook]; rfl
  have hbody : w.body pmlCur = some { u.cascade with m := u.cascade.m } := by
    refine FreeWalk.body_of (by rw [hu]) (releaseTable_of_near ?_) (releaseTable_of_near ?_) (releaseTable_of_near ?_)
    · exact .inl (hpt.trans hupt)
    · rwa [hupd] at hpd
    · rwa [hupdp] at hpdp
  refine ⟨_, hbody, ?_, hcov.trans hucov, fun hlt => ?_⟩
  · exact hpt.trans (hupt.trans (by rw [h.ptIndex, Nat.add_assoc]))
  · -- no carry: the index is not at the end
    have hmod : u.ptIndex % 512 ≠ 0 := by
      rw [hupt, h.ptIndex]
      omega
    have hum : u.m = freeUserPage w.m (ptCur + k) := by rw [hlook]
    rw [hsame hmod]
    refine ⟨?_, hupdp.trans h.pdpIndex, hupd.trans h.pdIndex, ?_, hucov, fun a => ?_, fun a => ?_⟩
    · rw [hlook]
      exact h.pmlIndex
    · exact hupt.trans (by rw [h.ptIndex, Nat.add_assoc])
    · show (u.m.mem a).base = _
      rw [hum, freeUserPage_base, h.base]
    · show (u.m.mem a).present = true ↔ _
      rw [hum, freeUserPage_present, h.present, and_assoc]
      refine and_congr_right fun _ => ⟨?_, fun hj => ⟨fun j hjk => hj j (by omega), hj k (by omega)⟩⟩
      rintro ⟨h₁, h₂⟩ j hj
      rcases Nat.lt_succ_iff_lt_or_eq.mp hj with hj | rfl
      · exact h₁ j hj
      · exact h₂

/-! ### The whole walk -/

variable {numPages : ℕ}

/-- If the walk keeps its place it comes to every entry, and finds the tables there. -/
theorem PositionKept.atEntry (h : PositionKept m freeStart numPages pmlCur)
    (he : FirstEntries m freeStart pmlCur pdpCur pdCur ptCur) (hk : k ≤ numPages) :
    ∃ its w, Exec (WalkStep numPages pmlCur) (.start m freeStart) its w ∧ AtEntry m freeStart ptCur k w ∧
      pte64Index freeStart + k < 512 ∧ w.tablesPresent pmlCur := by
  have hcheck : ∀ its w j, Exec (WalkStep numPages pmlCur) (.start m freeStart) its w →
      AtEntry m freeStart ptCur j w → j ≤ numPages → pte64Index freeStart + j < 512 → w.tablesPresent pmlCur := by
    intro its w j hexec hw hj hlt
    obtain ⟨hpos, hadv⟩ := h its w hexec (by rw [hw.covered]; exact hj)
    by_contra hp
    exact hpos.not_advances (by rw [hw.covered]; omega) hp hadv
  induction k with
  | zero =>
    have hlt : pte64Index freeStart + 0 < 512 := index_lt freeStart 12
    exact ⟨[], _, .nil, atEntry_start .., hlt, hcheck [] _ 0 .nil (atEntry_start ..) hk hlt⟩
  | succ k ih =>
    obtain ⟨its, w, hexec, hw, hlt, hp⟩ := ih (by omega)
    obtain ⟨w', hbody, hpt, hcov, hnext⟩ := hw.step he hp hlt
    have hexec' := hexec.snoc (a := ()) ⟨by rw [hw.covered]; omega, hbody⟩
    have hlt' : pte64Index freeStart + (k + 1) < 512 := hpt ▸ (h _ w' hexec' (by rw [hcov]; exact hk)).1.pt
    exact ⟨_, w', hexec', hnext hlt', hlt', hcheck _ w' _ hexec' (hnext hlt') hk hlt'⟩

/-- If the walk stays in the page table, every iteration starts at an entry of it. -/
theorem StaysInTable.atEntry (h : StaysInTable m freeStart numPages pmlCur)
    (he : FirstEntries m freeStart pmlCur pdpCur pdCur ptCur) {its : List Unit}
    (hexec : Exec (WalkStep numPages pmlCur) (.start m freeStart) its w) (hle : w.pagesCovered ≤ numPages) :
    ∃ k, k ≤ numPages ∧ AtEntry m freeStart ptCur k w ∧ w.tablesPresent pmlCur := by
  obtain ⟨hlt, htables⟩ := h
  rw [← he.pdp, ← he.pd, ← he.pt] at htables
  have hpresent : ∀ k w, k ≤ numPages → AtEntry m freeStart ptCur k w → w.tablesPresent pmlCur := by
    intro k w hk hw
    refine (hw.tablesPresent_iff he).mpr fun cur hcur => ?_
    obtain ⟨h₁, h₂⟩ := htables cur hcur
    exact ⟨h₁, fun j hj => h₂ j (by omega)⟩
  induction hexec with
  | nil => exact ⟨0, Nat.zero_le _, atEntry_start .., hpresent 0 _ (Nat.zero_le _) (atEntry_start ..)⟩
  | snoc _ hstep ih =>
    obtain ⟨k, hk, hw, hp⟩ := ih hstep.1
    obtain ⟨w', hbody, -, hcov, hnext⟩ := hw.step he hp (by omega)
    obtain rfl := Option.some.inj (hbody.symm.trans hstep.2)
    have hk' : k + 1 ≤ numPages := hcov ▸ hle
    exact ⟨k + 1, hk', hnext (by omega), hpresent _ _ hk' (hnext (by omega))⟩

end

/-- **The walk keeps its place** exactly when it stays in the page table it starts in: for
every segment, every contents of memory and every entry `pml_cur` of the top table. -/
theorem position_kept_iff (m : Machine) (freeStart numPages pmlCur : ℕ) :
    PositionKept m freeStart numPages pmlCur ↔ StaysInTable m freeStart numPages pmlCur := by
  obtain ⟨pdpCur, pdCur, ptCur, he⟩ : ∃ pdpCur pdCur ptCur, FirstEntries m freeStart pmlCur pdpCur pdCur ptCur :=
    ⟨_, _, _, rfl, rfl, rfl⟩
  constructor
  · intro h
    obtain ⟨-, w, -, hw, hlt, hp⟩ := h.atEntry he le_rfl
    refine ⟨hlt, ?_⟩
    rw [← he.pdp, ← he.pd, ← he.pt]
    exact (hw.tablesPresent_iff he).mp hp
  · intro h its w hexec hle
    obtain ⟨k, hk, hw, hp⟩ := h.atEntry he hexec hle
    have hlt := h.1
    exact ⟨hw.inPosition (by omega), hw.advances he hp⟩

/-- A segment of 1024 pages of which none was touched, with a page behind it that was: after
one iteration the loop has counted 512 pages and stands 1024 pages further on, at the page
table of the other segment. -/
theorem position_lost : ∃ st w',
    Exec (VmStep .bump) .blank [.alloc 1024, .alloc 1, .pagefault (petmemRegionStart + 4096 * 1024) 0] st ∧
    ⟨1, petmemRegionStart, 4096 * 1024, 1, 0⟩ ∈ st.map.nodes ∧
    WalkStep 1024 (st.m.cr3 * 512 + pml4e64Index petmemRegionStart * 8) (.start st.m petmemRegionStart) () w' ∧
    w'.pagesCovered = 512 ∧ w'.page = (FreeWalk.start st.m petmemRegionStart).page + 1024 ∧
    ¬ PositionKept st.m petmemRegionStart 1024 (st.m.cr3 * 512 + pml4e64Index petmemRegionStart * 8) := by
  obtain ⟨st, hst⟩ : ∃ st, st = [VmOp.alloc 1024, .alloc 1,
      .pagefault (petmemRegionStart + 4096 * 1024) 0].foldl Process.call .blank := ⟨_, rfl⟩
  have hrun : Exec (VmStep .bump) .blank
      [.alloc 1024, .alloc 1, .pagefault (petmemRegionStart + 4096 * 1024) 0] st := by
    rw [hst]
    exact (exec_call (C := fun _ _ => True) (fun _ _ _ => trivial) _ (by simp)).mono fun _ _ _ h => h.2
  have hmap : ((FreeWalk.start st.m petmemRegionStart).body
      (st.m.cr3 * 512 + pml4e64Index petmemRegionStart * 8)).map (fun w' => (w'.pagesCovered, w'.page)) =
      some (512, (FreeWalk.start st.m petmemRegionStart).page + 1024) := by
    rw [hst]
    decide +kernel
  obtain ⟨w', hw', he⟩ := Option.map_eq_some_iff.mp hmap
  obtain ⟨hcov, hpage⟩ := Prod.mk.inj he
  have hstep : WalkStep 1024 (st.m.cr3 * 512 + pml4e64Index petmemRegionStart * 8)
      (.start st.m petmemRegionStart) () w' :=
    ⟨Nat.zero_le _, hw'⟩
  refine ⟨st, w', hrun, by rw [hst]; decide +kernel, hstep, hcov, hpage, fun h => ?_⟩
  have hpos := (h [()] w' (.single hstep) (by rw [hcov]; decide)).1.page
  have hstart : (FreeWalk.start st.m petmemRegionStart).page = 0x1000000 := by
    simp only [FreeWalk.page, FreeWalk.start]
    decide
  rw [hpage, hcov, hstart] at hpos
  exact absurd hpos (by decide)

end PetLab.VMproject
