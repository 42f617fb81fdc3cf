import PetLab.VMproject.FreeSpec

/-!
# The walk of `petmem_free_vspace`, statement by statement

`FreeWalk.body` gives memory at the end of an iteration. What the processor may do in
between, and what is true at the moment `free_page` is called, depends on the statements
one by one: this module lists those that touch memory, the TLB or the page allocator, in
the order they are executed (`FreeWalk.stmts`, `freeStmts`), and proves that they make up
the iteration and the walk (`FreeWalk.body_stmts`, `freePages_stmts`).

The walk only ever clears present bits, so it takes translations away and adds none
(`Fewer`), whatever it comes across.
-/

namespace PetLab.VMproject

open PetLab.Lib

/-- A statement of the walk. -/
inductive Stmt where
  /-- `cur->present = 0`. -/
  | clearPresent (cur : ℕ)
  /-- `invlpg`. -/
  | invlpg (page : Option ℕ)
  /-- `free_page`, and what the caller frees. -/
  | freePage (kind : PageKind) (page : Option ℕ)
  deriving DecidableEq, Repr

/-- What a statement does. -/
def Stmt.exec (m : Machine) : Stmt → Machine
  | .clearPresent cur => m.clearPresent cur
  | .invlpg page => m.note (.invlpg page)
  | .freePage kind page => m.freePage kind page

/-- The statements of `freeUserPage`. -/
def freeUserPageStmts (m : Machine) (ptCur : ℕ) : List Stmt :=
  if (m.mem ptCur).present then
    let userPage := some (m.mem ptCur).base
    [.clearPresent ptCur, .invlpg userPage, .freePage .user userPage]
  else []

/-- The statements of `dropTable`. -/
def dropTableStmts (kind : PageKind) (base parent : Option ℕ) : List Stmt :=
  parent.elim [] fun p => [.clearPresent p, .invlpg base, .freePage kind base]

/-- The statements of `releaseTable`. -/
def releaseTableStmts (kind : PageKind) (mine : Bool) (index indexOld : ℕ) (cur parent : Option ℕ) (m : Machine) :
    List Stmt :=
  if index ≠ indexOld + 1 ∧ index ≠ indexOld then
    let base := cur.map (· / 512)
    if mine then dropTableStmts kind base parent
    else base.elim [] fun b => if occupied m b then [] else dropTableStmts kind base parent
  else []

/-- The statements of an iteration down to the label `cascade`. -/
def FreeWalk.lookStmts (pmlCur : ℕ) (w : FreeWalk) : List Stmt :=
  if (w.m.mem pmlCur).present = false then []
  else
    let pdpCur := (w.m.mem pmlCur).base * 512 + w.pdpIndex
    if (w.m.mem pdpCur).present = false then []
    else
      let pdCur := (w.m.mem pdpCur).base * 512 + w.pdIndex
      if (w.m.mem pdCur).present = false then []
      else freeUserPageStmts w.m ((w.m.mem pdCur).base * 512 + w.ptIndex)

/-- The statements of an iteration. Each of the blocks that free a table starts from what
the one before it left. -/
def FreeWalk.stmts (pmlCur : ℕ) (w : FreeWalk) : List Stmt :=
  let w' := (w.look pmlCur).cascade
  let ss₁ := releaseTableStmts .pt w'.ptMine w'.ptIndex w.ptIndex w'.ptCur w'.pdCur w'.m
  let m₁ := ss₁.foldl Stmt.exec w'.m
  let ss₂ := releaseTableStmts .pd w'.pdMine w'.pdIndex w.pdIndex w'.pdCur w'.pdpCur m₁
  let m₂ := ss₂.foldl Stmt.exec m₁
  let ss₃ := releaseTableStmts .pdp w'.pdpMine w'.pdpIndex w.pdpIndex w'.pdpCur (some pmlCur) m₂
  w.lookStmts pmlCur ++ ss₁ ++ ss₂ ++ ss₃

/-- The statements of the loop, with a bound on the number of iterations. -/
def freeStmts (numPages pmlCur : ℕ) : ℕ → FreeWalk → List Stmt
  | 0, _ => []
  | fuel + 1, w =>
    if w.pagesCovered ≤ numPages then
      w.stmts pmlCur ++ (w.body pmlCur).elim [] fun w' => freeStmts numPages pmlCur fuel w'
    else []

/-! ### The statements make up the walk -/

theorem freeUserPage_stmts (m : Machine) (ptCur : ℕ) :
    freeUserPage m ptCur = (freeUserPageStmts m ptCur).foldl Stmt.exec m := by
  unfold freeUserPage freeUserPageStmts
  split_ifs <;> rfl

theorem dropTable_stmts {kind : PageKind} {base parent : Option ℕ} {m m' : Machine}
    (h : dropTable kind base parent m = some m') : m' = (dropTableStmts kind base parent).foldl Stmt.exec m := by
  obtain ⟨p, rfl, rfl⟩ := Option.map_eq_some_iff.mp h
  rfl

theorem releaseTable_stmts {kind : PageKind} {mine : Bool} {index indexOld : ℕ} {cur parent : Option ℕ}
    {m m' : Machine} (h : releaseTable kind mine index indexOld cur parent m = some m') :
    m' = (releaseTableStmts kind mine index indexOld cur parent m).foldl Stmt.exec m := by
  unfold releaseTable at h
  unfold releaseTableStmts
  split_ifs at h ⊢ with hmoved hmine
  · exact dropTable_stmts h
  · cases cur with
    | none => cases h
    | some c =>
      simp only [Option.map_some, Option.elim_some] at h ⊢
      split_ifs at h ⊢ with hocc
      · exact (Option.some.inj h).symm
      · exact dropTable_stmts h
  · exact (Option.some.inj h).symm

theorem FreeWalk.look_stmts (pmlCur : ℕ) (w : FreeWalk) :
    (w.look pmlCur).m = (w.lookStmts pmlCur).foldl Stmt.exec w.m := by
  unfold FreeWalk.look FreeWalk.lookStmts
  simp only
  split_ifs
  · rfl
  · rfl
  · rfl
  · exact freeUserPage_stmts _ _

/-- **An iteration** leaves memory as its statements do. -/
theorem FreeWalk.body_stmts {pmlCur : ℕ} {w w' : FreeWalk} (h : w.body pmlCur = some w') :
    w'.m = (w.stmts pmlCur).foldl Stmt.exec w.m := by
  unfold FreeWalk.body at h
  obtain ⟨m₁, h₁, h⟩ := Option.bind_eq_some_iff.mp h
  obtain ⟨m₂, h₂, h⟩ := Option.bind_eq_some_iff.mp h
  obtain ⟨m₃, h₃, rfl⟩ := Option.map_eq_some_iff.mp h
  have e₁ := releaseTable_stmts h₁
  have e₂ := releaseTable_stmts h₂
  have e₃ := releaseTable_stmts h₃
  have e₀ : (w.look pmlCur).cascade.m = (w.lookStmts pmlCur).foldl Stmt.exec w.m := by
    rw [(w.look pmlCur).cascade_spec.1, FreeWalk.look_stmts]
  unfold FreeWalk.stmts
  simp only [List.foldl_append]
  rw [← e₀, ← e₁, ← e₂, ← e₃]

/-- **The walk** leaves memory as its statements do. -/
theorem freePages_stmts {numPages pmlCur fuel : ℕ} {w : FreeWalk} {m' : Machine}
    (h : freePages numPages pmlCur fuel w = .ok m') :
    m' = (freeStmts numPages pmlCur fuel w).foldl Stmt.exec w.m := by
  induction fuel generalizing w with
  | zero =>
    rw [freePages] at h
    split_ifs at h
    exact (Outcome.ok.inj h).symm
  | succ fuel ih =>
    rw [freePages] at h
    rw [freeStmts]
    split_ifs at h ⊢ with hc
    · cases hb : w.body pmlCur with
      | none => rw [hb] at h; cases h
      | some w' =>
        rw [hb] at h
        rw [List.foldl_append, ← FreeWalk.body_stmts hb]
        exact ih h
    · exact (Outcome.ok.inj h).symm

/-! ### The walk only takes translations away -/

/-- The tables of `m'` have no entry that those of `m` do not have. -/
structure Fewer (m m' : Machine) : Prop where
  /-- The top table stays. -/
  cr3 : m'.cr3 = m.cr3
  /-- An entry that is there was there before. -/
  children : ∀ f i g, child m' f i = some g → child m f i = some g

theorem Fewer.refl (m : Machine) : Fewer m m := ⟨rfl, fun _ _ _ h => h⟩

theorem Fewer.trans {m₁ m₂ m₃ : Machine} (h : Fewer m₁ m₂) (h' : Fewer m₂ m₃) : Fewer m₁ m₃ :=
  ⟨h'.cr3.trans h.cr3, fun f i g hg => h.children f i g (h'.children f i g hg)⟩

theorem Fewer.descend {m m' : Machine} (h : Fewer m m') {js : List (Fin 512)} {u : ℕ}
    (hu : descend (child m') m'.cr3 js = some u) : descend (child m) m.cr3 js = some u := by
  rw [h.cr3] at hu
  exact descend_mono h.children hu

theorem Fewer.translate {m m' : Machine} (h : Fewer m m') {v f : ℕ} (hf : translate m' v = some f) :
    translate m v = some f := by
  unfold VMproject.translate at hf ⊢
  split_ifs at hf ⊢ with hv
  exact h.descend hf

theorem Fewer.unshared {m m' : Machine} (h : Fewer m m') (hU : TablesUnshared m) : TablesUnshared m' :=
  fun is js t his hjs h₁ h₂ => hU is js t his hjs (h.descend h₁) (h.descend h₂)

theorem fewer_clearPresent (m : Machine) (a : ℕ) : Fewer m (m.clearPresent a) := by
  refine ⟨rfl, fun f i g h => ?_⟩
  rw [child_eq_some_iff] at h ⊢
  unfold Machine.clearPresent Machine.write at h
  by_cases ha : f * 512 + (i : ℕ) = a
  · simp [ha] at h
  · simpa [ha] using h

theorem Stmt.fewer (m : Machine) (s : Stmt) : Fewer m (s.exec m) := by
  cases s with
  | clearPresent cur => exact fewer_clearPresent m cur
  | invlpg page => exact ⟨rfl, fun _ _ _ h => h⟩
  | freePage kind page => exact ⟨rfl, fun _ _ _ h => h⟩

theorem fewer_stmts (m : Machine) (ss : List Stmt) : Fewer m (ss.foldl Stmt.exec m) := by
  induction ss generalizing m with
  | nil => exact .refl m
  | cons s ss ih => exact (s.fewer m).trans (ih _)

end PetLab.VMproject
