import PetLab.VMproject.FreeStmts
import PetLab.VMproject.VmRuns

/-!
# When a page table page is freed

`petmem_free_vspace` frees the page of a table when its index has moved by something else
than one, which it takes for the end of that table (`releaseTable`). The page is the one
the cursor of that level points into; the entry it clears is the one the cursor above
points to. In an iteration that finds a table missing the lower cursors are still those of
an earlier iteration, so the two need not belong together, and a page directory that has no
page table for the segment is freed when a scan that looks at every eighth entry finds
nothing in it.

`ReleasesOk` is what should hold of an iteration: a table page that goes to `free_page` has
no present entry at that moment, and no entry of the tables points to it at the end. It
does for an iteration without such leftovers exactly when the scan is right
(`releasesOk_iff`), and so in every walk whose iterations are all of that kind
(`walk_releases_ok`).
-/

namespace PetLab.VMproject

open PetLab.Lib

/-- The table pages that statements hand to `free_page`, each with memory at that moment. -/
def tablesFreed : Machine → List Stmt → List (ℕ × Machine)
  | _, [] => []
  | m, s :: ss =>
    (match s with
      | .freePage kind (some t) => if kind = .user then [] else [(t, m)]
      | _ => []) ++ tablesFreed (s.exec m) ss

/-- No entry of the tables of the process points to the frame. -/
def Unreferenced (m : Machine) (t : ℕ) : Prop :=
  ∀ js : List (Fin 512), js ≠ [] → js.length ≤ 4 → descend (child m) m.cr3 js ≠ some t

/-- The table pages freed in the iteration from `w` to `w'` are empty when they are freed,
and nothing points to them afterwards. -/
def ReleasesOk (pmlCur : ℕ) (w w' : FreeWalk) : Prop :=
  ∀ r ∈ tablesFreed w.m (w.stmts pmlCur), (∀ i, child r.2 r.1 i = none) ∧ Unreferenced w'.m r.1

/-- The iteration takes no cursor of an earlier one for the end of a table. It may do so
only when it finds a table missing: for the page table if `pt_index` is not at `0`, for the
page directory if `pd_index` is not at `0` or `1` either, and for the table above
if the top table has no entry. -/
def NoLeftover (pmlCur : ℕ) (w : FreeWalk) : Prop :=
  let pdpCur := (w.m.mem pmlCur).base * 512 + w.pdpIndex
  let pdCur := (w.m.mem pdpCur).base * 512 + w.pdIndex
  if (w.m.mem pmlCur).present = false then
    (w.ptIndex = 0 ∨ w.ptCur = none) ∧ (w.pdIndex ≤ 1 ∨ w.pdCur = none) ∧ (w.pdpIndex = 0 ∨ w.pdpCur = none)
  else if (w.m.mem pdpCur).present = false then
    (w.ptIndex = 0 ∨ w.ptCur = none) ∧ (w.pdIndex ≤ 1 ∨ w.pdCur = none)
  else if (w.m.mem pdCur).present = false then w.ptIndex = 0 ∨ w.ptCur = none
  else True

/-- If the iteration finds that the page directory has no page table, the scan finds
something in the directory, or the directory is empty and only the entry above it
points to it. -/
def ScanOk (pmlCur : ℕ) (w : FreeWalk) : Prop :=
  let pdpCur := (w.m.mem pmlCur).base * 512 + w.pdpIndex
  let pdCur := (w.m.mem pdpCur).base * 512 + w.pdIndex
  (w.m.mem pmlCur).present = true → (w.m.mem pdpCur).present = true → (w.m.mem pdCur).present = false →
    (w.pdMine = false ∧ occupied w.m (pdCur / 512) = true) ∨
      ((∀ i, child (w.m.clearPresent pdpCur) (pdCur / 512) i = none) ∧
        Unreferenced (w.m.clearPresent pdpCur) (pdCur / 512))

/-! ### Lists of statements -/

theorem tablesFreed_append (m : Machine) (ss ss' : List Stmt) :
    tablesFreed m (ss ++ ss') = tablesFreed m ss ++ tablesFreed (ss.foldl Stmt.exec m) ss' := by
  induction ss generalizing m with
  | nil => rfl
  | cons s ss ih => simp only [List.cons_append, tablesFreed, ih, List.foldl_cons, List.append_assoc]

theorem tablesFreed_freeUserPage (m m' : Machine) (ptCur : ℕ) : tablesFreed m (freeUserPageStmts m' ptCur) = [] := by
  unfold freeUserPageStmts
  split_ifs <;> rfl

theorem releaseTableStmts_of_near {kind : PageKind} {mine : Bool} {index indexOld : ℕ} {cur parent : Option ℕ}
    {m : Machine} (h : index = indexOld + 1 ∨ index = indexOld) :
    releaseTableStmts kind mine index indexOld cur parent m = [] := by
  rw [releaseTableStmts, if_neg]
  rintro ⟨h₁, h₂⟩
  exact h.elim h₁ h₂

/-- A cursor that is still `NULL` frees no table. -/
theorem tablesFreed_release_null (kind : PageKind) (index indexOld : ℕ) (parent : Option ℕ) (m m' : Machine) :
    tablesFreed m (releaseTableStmts kind true index indexOld none parent m') = [] := by
  by_cases hmoved : index ≠ indexOld + 1 ∧ index ≠ indexOld
  · rw [releaseTableStmts, if_pos hmoved]
    cases parent <;> rfl
  · rw [releaseTableStmts, if_neg hmoved]
    rfl

/-- The block of a level frees no table: its index has moved by one at most, or its cursor is
still `NULL`. -/
def Quiet (mine : Bool) (index indexOld : ℕ) (cur : Option ℕ) : Prop :=
  (index = indexOld + 1 ∨ index = indexOld) ∨ (mine = true ∧ cur = none)

theorem Quiet.tablesFreed {mine : Bool} {index indexOld : ℕ} {cur : Option ℕ} (h : Quiet mine index indexOld cur)
    (kind : PageKind) (parent : Option ℕ) (m m' : Machine) :
    tablesFreed m (releaseTableStmts kind mine index indexOld cur parent m') = [] := by
  rcases h with hnear | ⟨rfl, rfl⟩
  · rw [releaseTableStmts_of_near hnear]
    rfl
  · exact tablesFreed_release_null ..

/-! ### One iteration -/

section

variable {pmlCur : ℕ} {w w' : FreeWalk}

/-- What the statements of an iteration free, block by block. -/
theorem tablesFreed_stmts {u : FreeWalk} (hu : (w.look pmlCur).cascade = u) {ss : List Stmt} {m₁ : Machine}
    (hss : releaseTableStmts .pt u.ptMine u.ptIndex w.ptIndex u.ptCur u.pdCur u.m = ss)
    (hm₁ : ss.foldl Stmt.exec u.m = m₁) : ∃ m₂, tablesFreed w.m (w.stmts pmlCur) =
      tablesFreed u.m ss ++
      tablesFreed m₁ (releaseTableStmts .pd u.pdMine u.pdIndex w.pdIndex u.pdCur u.pdpCur m₁) ++
      tablesFreed m₂ (releaseTableStmts .pdp u.pdpMine u.pdpIndex w.pdpIndex u.pdpCur (some pmlCur) m₂) := by
  have hlook : tablesFreed w.m (w.lookStmts pmlCur) = [] := by
    unfold FreeWalk.lookStmts
    simp only
    split_ifs
    · rfl
    · rfl
    · rfl
    · exact tablesFreed_freeUserPage ..
  have hm : (w.lookStmts pmlCur).foldl Stmt.exec w.m = u.m := by
    rw [← FreeWalk.look_stmts, ← (w.look pmlCur).cascade_spec.1, hu]
  subst hu hss hm₁
  unfold FreeWalk.stmts
  simp only [tablesFreed_append, List.foldl_append, hlook, hm, List.nil_append]
  exact ⟨_, rfl⟩

theorem tablesFreed_of_quiet {u : FreeWalk} (hu : (w.look pmlCur).cascade = u)
    (hpt : Quiet u.ptMine u.ptIndex w.ptIndex u.ptCur) (hpd : Quiet u.pdMine u.pdIndex w.pdIndex u.pdCur)
    (hpdp : Quiet u.pdpMine u.pdpIndex w.pdpIndex u.pdpCur) : tablesFreed w.m (w.stmts pmlCur) = [] := by
  obtain ⟨m₂, hfreed⟩ := tablesFreed_stmts hu rfl rfl
  rw [hfreed, hpt.tablesFreed, hpd.tablesFreed, hpdp.tablesFreed]
  rfl

/-- The top table has no entry. -/
theorem tablesFreed_no_pml (hl : NoLeftover pmlCur w) (h : (w.m.mem pmlCur).present = false) :
    tablesFreed w.m (w.stmts pmlCur) = [] := by
  simp only [NoLeftover, h, if_true] at hl
  obtain ⟨hpt, hpd, hpdp⟩ := hl
  have hlook : w.look pmlCur = { w.cover (room w.pdpIndex * room w.pdIndex * room w.ptIndex) with
      pmlIndex := w.pmlIndex + 1, pdpIndex := 0, pdpMine := true, pdIndex := 0, pdMine := true,
      ptIndex := 0, ptMine := true } := by
    rw [FreeWalk.look, if_pos h]
  obtain ⟨pmlIndex, pdpIndex, hcascade, -, hb⟩ := FreeWalk.cascade_skip (congrArg FreeWalk.ptIndex hlook)
  rw [hlook] at hb hcascade
  obtain rfl : pdpIndex = 0 := hb rfl
  refine tablesFreed_of_quiet (by rw [hlook, hcascade]) ?_ ?_ ?_
  · exact hpt.imp (fun h₀ => .inr h₀.symm) fun h₀ => ⟨rfl, h₀⟩
  · refine hpd.imp (fun h₀ => ?_) fun h₀ => ⟨rfl, h₀⟩
    show 0 + 1 = w.pdIndex + 1 ∨ 0 + 1 = w.pdIndex
    omega
  · exact hpdp.imp (fun h₀ => .inr h₀.symm) fun h₀ => ⟨rfl, h₀⟩

/-- The table below it has none. -/
theorem tablesFreed_no_pdp (hl : NoLeftover pmlCur w) (hpml : (w.m.mem pmlCur).present = true)
    (h : (w.m.mem ((w.m.mem pmlCur).base * 512 + w.pdpIndex)).present = false) :
    tablesFreed w.m (w.stmts pmlCur) = [] := by
  simp only [NoLeftover, hpml, h, Bool.true_eq_false, if_true, if_false] at hl
  obtain ⟨hpt, hpd⟩ := hl
  have hlook : w.look pmlCur = { w.cover (room w.pdIndex * room w.ptIndex) with
      pdpCur := some ((w.m.mem pmlCur).base * 512 + w.pdpIndex), pdpIndex := w.pdpIndex + 1, pdIndex := 0,
      pdMine := true, ptIndex := 0, ptMine := true } := by
    simp only [FreeWalk.look, hpml, h, Bool.true_eq_false, if_true, if_false]
    rfl
  obtain ⟨pmlIndex, pdpIndex, hcascade, -, hb⟩ := FreeWalk.cascade_skip (congrArg FreeWalk.ptIndex hlook)
  rw [hlook] at hb hcascade
  obtain rfl : pdpIndex = w.pdpIndex + 1 := hb rfl
  refine tablesFreed_of_quiet (by rw [hlook, hcascade]) ?_ ?_ ?_
  · exact hpt.imp (fun h₀ => .inr h₀.symm) fun h₀ => ⟨rfl, h₀⟩
  · refine hpd.imp (fun h₀ => ?_) fun h₀ => ⟨rfl, h₀⟩
    show 0 + 1 = w.pdIndex + 1 ∨ 0 + 1 = w.pdIndex
    omega
  · exact .inl (.inl rfl)

/-- All tables are there: only a user page is freed. -/
theorem tablesFreed_page (hpml : (w.m.mem pmlCur).present = true)
    (hpdp : (w.m.mem ((w.m.mem pmlCur).base * 512 + w.pdpIndex)).present = true)
    (hpd : (w.m.mem ((w.m.mem ((w.m.mem pmlCur).base * 512 + w.pdpIndex)).base * 512 + w.pdIndex)).present = true) :
    tablesFreed w.m (w.stmts pmlCur) = [] := by
  have hpt : (w.look pmlCur).ptIndex = w.ptIndex + 1 ∧ (w.look pmlCur).pdIndex = w.pdIndex ∧
      (w.look pmlCur).pdpIndex = w.pdpIndex := by
    simp [FreeWalk.look, FreeWalk.cover, hpml, hpdp, hpd]
  obtain ⟨-, cpt, -, cpd, cpdp, -⟩ := (w.look pmlCur).cascade_spec
  rw [hpt.1] at cpt
  rw [hpt.2.1] at cpd
  rw [hpt.2.2] at cpdp
  exact tablesFreed_of_quiet rfl (.inl (.inl cpt)) (.inl cpd) (.inl cpdp)

/-- The block of the page directory: it is freed, unless it does not belong to the segment and
the scan finds something in it. -/
theorem release_pd (m : Machine) (mine : Bool) (index pdCur pdpCur : ℕ) :
    let base := some (pdCur / 512)
    (mine = false ∧ occupied m (pdCur / 512) = true →
      releaseTableStmts .pd mine (index + 1 + 1) index (some pdCur) (some pdpCur) m = []) ∧
    (¬ (mine = false ∧ occupied m (pdCur / 512) = true) →
      releaseTableStmts .pd mine (index + 1 + 1) index (some pdCur) (some pdpCur) m =
        [.clearPresent pdpCur, .invlpg base, .freePage .pd base] ∧
      releaseTable .pd mine (index + 1 + 1) index (some pdCur) (some pdpCur) m =
        some (((m.clearPresent pdpCur).note (.invlpg base)).freePage .pd base)) := by
  have hmoved : index + 1 + 1 ≠ index + 1 ∧ index + 1 + 1 ≠ index := by omega
  simp only [releaseTableStmts, releaseTable, if_pos hmoved]
  cases mine with
  | true => exact ⟨fun h => absurd h.1 (by decide), fun _ => ⟨rfl, rfl⟩⟩
  | false =>
    refine ⟨fun h => ?_, fun h => ?_⟩
    · simp [h.2]
    · have hscan : occupied m (pdCur / 512) = false := by simpa using h
      simp only [Bool.false_eq_true, if_false, Option.map_some, Option.elim_some, hscan]
      exact ⟨rfl, rfl⟩

/-- The page directory has no entry. -/
theorem tablesFreed_no_pd {pdpCur pdCur : ℕ} (hpdpCur : (w.m.mem pmlCur).base * 512 + w.pdpIndex = pdpCur)
    (hpdCur : (w.m.mem pdpCur).base * 512 + w.pdIndex = pdCur) (hpt : w.ptIndex = 0 ∨ w.ptCur = none)
    (hpml : (w.m.mem pmlCur).present = true) (hpdp : (w.m.mem pdpCur).present = true)
    (h : (w.m.mem pdCur).present = false) :
    (w.pdMine = false ∧ occupied w.m (pdCur / 512) = true → tablesFreed w.m (w.stmts pmlCur) = []) ∧
    (¬ (w.pdMine = false ∧ occupied w.m (pdCur / 512) = true) → ∃ m₁, Idle w.m m₁ ∧
      tablesFreed w.m (w.stmts pmlCur) =
        [(pdCur / 512, (m₁.clearPresent pdpCur).note (.invlpg (some (pdCur / 512))))] ∧
      ∀ w', w.body pmlCur = some w' → w'.m =
        ((m₁.clearPresent pdpCur).note (.invlpg (some (pdCur / 512)))).freePage .pd (some (pdCur / 512))) := by
  have hlook : w.look pmlCur = { w.cover (room w.ptIndex) with
      pdpCur := some pdpCur, pdCur := some pdCur, pdIndex := w.pdIndex + 1, ptIndex := 0, ptMine := true } := by
    simp only [FreeWalk.look, hpml, hpdpCur, hpdp, hpdCur, h, Bool.true_eq_false, if_true, if_false]
    rfl
  obtain ⟨pmlIndex, pdpIndex, hcascade, hb, -⟩ := FreeWalk.cascade_skip (congrArg FreeWalk.ptIndex hlook)
  rw [hlook] at hb hcascade
  obtain ⟨u, hu⟩ : ∃ u, u = (w.look pmlCur).cascade := ⟨_, rfl⟩
  have hfields : u.m = w.m ∧ u.ptMine = true ∧ u.ptIndex = 0 ∧ u.ptCur = w.ptCur ∧ u.pdMine = w.pdMine ∧
      u.pdIndex = w.pdIndex + 1 + 1 ∧ u.pdCur = some pdCur ∧ u.pdpIndex = pdpIndex ∧ u.pdpCur = some pdpCur := by
    rw [hu, hlook, hcascade]
    exact ⟨rfl, rfl, rfl, rfl, rfl, rfl, rfl, rfl, rfl⟩
  obtain ⟨hm, hptMine, hptIndex, hptCur, hpdMine, hpdIndex, hpdCur', hpdpIndex, hpdpCur'⟩ := hfields
  -- the page table block does nothing: the entry it clears is the missing one
  obtain ⟨m₁, hm₁, hidle⟩ : ∃ m₁, releaseTable .pt u.ptMine u.ptIndex w.ptIndex u.ptCur u.pdCur u.m = some m₁ ∧
      Idle w.m m₁ := by
    rw [hm, hptMine, hptIndex, hptCur, hpdCur']
    rcases hpt with h₀ | h₀
    · exact ⟨w.m, releaseTable_of_near (.inr h₀.symm), .refl _⟩
    · rw [h₀]
      exact releaseTable_idle .pt 0 w.ptIndex h
  have hquiet : Quiet u.ptMine u.ptIndex w.ptIndex u.ptCur := by
    rw [hptMine, hptIndex, hptCur]
    exact hpt.imp (fun h₀ => .inr h₀.symm) fun h₀ => ⟨rfl, h₀⟩
  have hnear : u.pdpIndex = w.pdpIndex + 1 ∨ u.pdpIndex = w.pdpIndex := by
    rw [hpdpIndex]
    exact hb
  obtain ⟨hkeep, hdrop⟩ := release_pd m₁ w.pdMine w.pdIndex pdCur pdpCur
  rw [hidle.occupied_eq] at hkeep hdrop
  obtain ⟨m₂, hfreed⟩ := tablesFreed_stmts hu.symm rfl (releaseTable_stmts hm₁).symm
  rw [hquiet.tablesFreed, Quiet.tablesFreed (.inl hnear), List.nil_append, List.append_nil, hpdMine, hpdIndex,
    hpdCur', hpdpCur'] at hfreed
  refine ⟨fun hk => ?_, fun hk => ⟨m₁, hidle, ?_, fun w' hw' => ?_⟩⟩
  · rw [hfreed, hkeep hk]
    rfl
  · rw [hfreed, (hdrop hk).1]
    rfl
  · have hbody := FreeWalk.body_of hu.symm hm₁ (by rw [hpdMine, hpdIndex, hpdCur', hpdpCur']; exact (hdrop hk).2)
      (releaseTable_of_near hnear)
    rw [hbody] at hw'
    rw [← Option.some.inj hw']

theorem Idle.child_clearPresent {m m₁ : Machine} (h : Idle m m₁) (a : ℕ) :
    child (m₁.clearPresent a) = child (m.clearPresent a) := by
  have hmem : (m₁.clearPresent a).mem = (m.clearPresent a).mem := by
    rw [Machine.clearPresent, Machine.clearPresent, Machine.write, Machine.write, h.mem]
  funext f i
  simp only [child, hmem]

/-- **An iteration without leftovers** frees table pages as it should exactly when the scan is
right. -/
theorem releasesOk_iff (hl : NoLeftover pmlCur w) (hbody : w.body pmlCur = some w') :
    ReleasesOk pmlCur w w' ↔ ScanOk pmlCur w := by
  have hquiet : tablesFreed w.m (w.stmts pmlCur) = [] → ReleasesOk pmlCur w w' := by
    intro h r hr
    rw [h] at hr
    cases hr
  unfold ScanOk
  cases hpml : (w.m.mem pmlCur).present with
  | false => exact iff_of_true (hquiet (tablesFreed_no_pml hl hpml)) fun h => absurd h (by decide)
  | true =>
    cases hpdp : (w.m.mem ((w.m.mem pmlCur).base * 512 + w.pdpIndex)).present with
    | false =>
      refine iff_of_true (hquiet (tablesFreed_no_pdp hl hpml hpdp)) fun _ h => ?_
      cases hpdp.symm.trans h
    | true =>
      cases hpd : (w.m.mem ((w.m.mem ((w.m.mem pmlCur).base * 512 + w.pdpIndex)).base * 512 + w.pdIndex)).present with
      | true =>
        refine iff_of_true (hquiet (tablesFreed_page hpml hpdp hpd)) fun _ _ h => ?_
        cases hpd.symm.trans h
      | false =>
        simp only [NoLeftover, hpml, hpdp, hpd, Bool.true_eq_false, if_true, if_false] at hl
        simp only [hpdp, hpd, forall_const]
        obtain ⟨hkeep, hdrop⟩ := tablesFreed_no_pd rfl rfl hl hpml hpdp hpd
        by_cases hk : w.pdMine = false ∧ occupied w.m
            (((w.m.mem ((w.m.mem pmlCur).base * 512 + w.pdpIndex)).base * 512 + w.pdIndex) / 512) = true
        · exact iff_of_true (hquiet (hkeep hk)) (.inl hk)
        · -- the directory is freed
          obtain ⟨m₁, hidle, hfreed, hw'⟩ := hdrop hk
          rw [or_iff_right hk, ReleasesOk, hfreed, hw' w' hbody]
          simp only [List.mem_singleton, forall_eq, child_note, Unreferenced, child_freePage, hidle.child_clearPresent]
          rw [show (((m₁.clearPresent ((w.m.mem pmlCur).base * 512 + w.pdpIndex)).note _).freePage _ _).cr3 = w.m.cr3
            from hidle.cr3]
          rfl

end

/-! ### Whole walks -/

/-- An iteration of the loop. -/
def WalkStep (numPages pmlCur : ℕ) (w : FreeWalk) (_ : Unit) (w' : FreeWalk) : Prop :=
  w.pagesCovered ≤ numPages ∧ w.body pmlCur = some w'

/-- The cursors are `NULL` at the start. -/
theorem noLeftover_start (pmlCur : ℕ) (m : Machine) (s : ℕ) : NoLeftover pmlCur (.start m s) := by
  simp [NoLeftover, FreeWalk.start]

/-- **Table pages are freed when empty and unreferenced**, in every walk whose iterations take
no leftover cursor for the end of a table and scan a page directory rightly; in the first
iteration, where there is no leftover, exactly when the scan is right. This is for any
contents of memory, and for any entry `pml_cur` of the top table. -/
theorem walk_releases_ok (m : Machine) (s numPages pmlCur : ℕ) (its : List Unit) (w : FreeWalk)
    (h : Exec (Guard (fun w _ => NoLeftover pmlCur w ∧ ScanOk pmlCur w) (WalkStep numPages pmlCur)) (.start m s) its
      w) :
    Exec (fun w i w' => WalkStep numPages pmlCur w i w' ∧ ReleasesOk pmlCur w w') (.start m s) its w ∧
    ∀ w', WalkStep numPages pmlCur (.start m s) () w' →
      (ReleasesOk pmlCur (.start m s) w' ↔ ScanOk pmlCur (.start m s)) := by
  refine ⟨h.mono fun w i w' hstep => ⟨hstep.2, ?_⟩, fun w' hstep => ?_⟩
  · exact (releasesOk_iff hstep.1.1 hstep.2.2).mpr hstep.1.2
  · exact releasesOk_iff (noLeftover_start ..) hstep.2

/-- Tables down to a page directory, in frame 9, that is empty. -/
def Machine.emptyDirectory : Machine where
  mem a := if a = 7 * 512 then ⟨true, true, true, false, 8⟩
    else if a = 8 * 512 + 64 then ⟨true, true, true, false, 9⟩ else Entry.zero
  cr3 := 7
  allocated := [7, 8, 9]
  log := []

/-- The free of a page under an empty page directory frees the directory, as it should. -/
theorem walk_releases_ok_empty : ∃ w',
    tablesFreed .emptyDirectory ((FreeWalk.start .emptyDirectory petmemRegionStart).stmts (7 * 512)) ≠ [] ∧
    Exec (fun w i w' => WalkStep 1 (7 * 512) w i w' ∧ ReleasesOk (7 * 512) w w')
      (.start .emptyDirectory petmemRegionStart) [()] w' := by
  have hsome : ((FreeWalk.start .emptyDirectory petmemRegionStart).body (7 * 512)).isSome = true := by decide +kernel
  obtain ⟨w', hw'⟩ := Option.isSome_iff_exists.mp hsome
  have htop : ∀ i, child (Machine.emptyDirectory.clearPresent (8 * 512 + 64)) 7 i = none ∨
      child (Machine.emptyDirectory.clearPresent (8 * 512 + 64)) 7 i = some 8 := by decide +kernel
  have hpdp : ∀ i, child (Machine.emptyDirectory.clearPresent (8 * 512 + 64)) 8 i = none := by decide +kernel
  have hunref : Unreferenced (Machine.emptyDirectory.clearPresent (8 * 512 + 64)) 9 := by
    intro js hne _
    obtain ⟨i, is, rfl⟩ := List.exists_cons_of_ne_nil hne
    show descend (child (Machine.emptyDirectory.clearPresent (8 * 512 + 64))) 7 (i :: is) ≠ some 9
    rw [descend_cons]
    rcases htop i with h | h
    · simp [h]
    · rw [h, Option.bind_some]
      cases is with
      | nil => decide
      | cons k ks => simp [descend_cons, hpdp]
  have hscan : ScanOk (7 * 512) (.start .emptyDirectory petmemRegionStart) := by
    intro _ _ _
    refine .inr ⟨?_, hunref⟩
    have hempty : ∀ i, child (Machine.emptyDirectory.clearPresent (8 * 512 + 64)) 9 i = none := by decide +kernel
    exact hempty
  have hrun : Exec (Guard (fun w _ => NoLeftover (7 * 512) w ∧ ScanOk (7 * 512) w) (WalkStep 1 (7 * 512)))
      (.start .emptyDirectory petmemRegionStart) [()] w' :=
    .single ⟨⟨noLeftover_start .., hscan⟩, Nat.zero_le _, hw'⟩
  exact ⟨w', by decide +kernel,
    (walk_releases_ok .emptyDirectory petmemRegionStart 1 (7 * 512) [()] w' hrun).1⟩

/-- A page directory with a page table for the second 2MB of the region only, in which page 1
is mapped: the free of a page of the first 2MB frees the directory. The scan has looked
at entries 0, 8, 16 and so on. -/
theorem free_drops_directory_in_use : ∃ st w',
    Exec (VmStep .bump) .blank [.alloc 1, .alloc 511, .alloc 2, .pagefault (petmemRegionStart + 4096 * 513) 0] st ∧
    ⟨1, petmemRegionStart, 4096, 1, 0⟩ ∈ st.map.nodes ∧
    WalkStep 1 (st.m.cr3 * 512 + pml4e64Index petmemRegionStart * 8) (.start st.m petmemRegionStart) () w' ∧
    ¬ ReleasesOk (st.m.cr3 * 512 + pml4e64Index petmemRegionStart * 8) (.start st.m petmemRegionStart) w' := by
  obtain ⟨st, hst⟩ : ∃ st, st = [VmOp.alloc 1, .alloc 511, .alloc 2,
      .pagefault (petmemRegionStart + 4096 * 513) 0].foldl Process.call .blank := ⟨_, rfl⟩
  have hrun : Exec (VmStep .bump) .blank
      [.alloc 1, .alloc 511, .alloc 2, .pagefault (petmemRegionStart + 4096 * 513) 0] st := by
    rw [hst]
    exact (exec_call (C := fun _ _ => True) (fun _ _ _ => trivial) _ (by simp)).mono fun _ _ _ h => h.2
  have hsome : ((FreeWalk.start st.m petmemRegionStart).body
      (st.m.cr3 * 512 + pml4e64Index petmemRegionStart * 8)).isSome = true := by
    rw [hst]
    decide +kernel
  obtain ⟨w', hw'⟩ := Option.isSome_iff_exists.mp hsome
  refine ⟨st, w', hrun, by rw [hst]; decide +kernel, ⟨Nat.zero_le _, hw'⟩, fun hok => ?_⟩
  -- page directory 9 is freed while its entry 1 points to the page table
  have hfreed : ∃ r ∈ tablesFreed st.m ((FreeWalk.start st.m petmemRegionStart).stmts
      (st.m.cr3 * 512 + pml4e64Index petmemRegionStart * 8)), child r.2 r.1 1 ≠ none := by
    rw [hst]
    decide +kernel
  obtain ⟨r, hr, hne⟩ := hfreed
  exact hne ((hok r hr).1 1)

end PetLab.VMproject
