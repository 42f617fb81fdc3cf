import PetLab.VMproject.DemandPaging

/-!
# The walk of `petmem_free_vspace`

After the node is off the map, `petmem_free_vspace` walks the page tables from the
start of the segment, frees the user pages it finds and, when it thinks that it has
passed the end of a table, the table. It keeps one index per level and a count of
the pages it has covered.

## The model

`FreeWalk` is the local variables of the loop, `FreeWalk.body` one iteration, in
three parts: `look` down to the label `cascade`, the `cascade`, and the three
`releaseTable` blocks, which the source writes out one after the other. The
variables are `unsigned long`: the page count is kept modulo `2 ^ 64`, as the
subtractions from 512 may wrap once an index has run past its table. `pml_cur` is
computed once, before the loop.

A dereference of `NULL` is an oops of the kernel (`none`, `Outcome.oops`): the call
does not return. The loop is run with a bound on the number of iterations; the call
returns when some bound is enough (`FreeVspace`), and then every larger one gives the
same result (`freePages_mono`).
-/

namespace PetLab.VMproject

open PetLab.Lib

/-- The local variables of the loop, and memory. -/
structure FreeWalk where
  /-- Memory. -/
  m : Machine
  /-- The index into the top table. -/
  pmlIndex : ℕ
  /-- The index into the page directory pointer table. -/
  pdpIndex : ℕ
  /-- The index into the page directory. -/
  pdIndex : ℕ
  /-- The index into the page table. -/
  ptIndex : ℕ
  /-- The entry of the page directory pointer table looked at last. -/
  pdpCur : Option ℕ
  /-- The entry of the page directory looked at last. -/
  pdCur : Option ℕ
  /-- The entry of the page table looked at last. -/
  ptCur : Option ℕ
  /-- The pages covered so far. -/
  pagesCovered : ℕ
  /-- The page directory pointer table belongs to the segment. -/
  pdpMine : Bool
  /-- The page directory does. -/
  pdMine : Bool
  /-- The page table does. -/
  ptMine : Bool

/-- The subtraction `512 - index` of `unsigned long`. -/
def room (index : ℕ) : ℕ := (512 + 2 ^ 64 - index) % 2 ^ 64

/-- `pages_covered += n`. -/
def FreeWalk.cover (w : FreeWalk) (n : ℕ) : FreeWalk := { w with pagesCovered := (w.pagesCovered + n) % 2 ^ 64 }

/-- The lines that free a user page, if the entry at `ptCur` has one. -/
def freeUserPage (m : Machine) (ptCur : ℕ) : Machine :=
  if (m.mem ptCur).present then
    let userPage := some (m.mem ptCur).base
    ((m.clearPresent ptCur).note (.invlpg userPage)).freePage .user userPage
  else m

/-- The iteration down to the label `cascade`: skip what the first missing table would
have covered, or look at one entry of a page table and free the page it maps. -/
def FreeWalk.look (pmlCur : ℕ) (w : FreeWalk) : FreeWalk :=
  if (w.m.mem pmlCur).present = false then
    { w.cover (room w.pdpIndex * room w.pdIndex * room w.ptIndex) with
      pmlIndex := w.pmlIndex + 1, pdpIndex := 0, pdpMine := true, pdIndex := 0, pdMine := true,
      ptIndex := 0, ptMine := true }
  else
    let pdpCur := (w.m.mem pmlCur).base * 512 + w.pdpIndex
    let w := { w with pdpCur := some pdpCur }
    if (w.m.mem pdpCur).present = false then
      { w.cover (room w.pdIndex * room w.ptIndex) with
        pdpIndex := w.pdpIndex + 1, pdIndex := 0, pdMine := true, ptIndex := 0, ptMine := true }
    else
      let pdCur := (w.m.mem pdpCur).base * 512 + w.pdIndex
      let w := { w with pdCur := some pdCur }
      if (w.m.mem pdCur).present = false then
        { w.cover (room w.ptIndex) with pdIndex := w.pdIndex + 1, ptIndex := 0, ptMine := true }
      else
        let ptCur := (w.m.mem pdCur).base * 512 + w.ptIndex
        { w.cover 1 with ptCur := some ptCur, ptIndex := w.ptIndex + 1, m := freeUserPage w.m ptCur }

/-- The carry from one index to the next. The index that ran to its end is not reset. -/
def FreeWalk.cascade (w : FreeWalk) : FreeWalk :=
  if w.ptIndex % 512 = 0 then
    let w := { w with pdIndex := w.pdIndex + 1 }
    if w.pdIndex % 512 = 0 then
      let w := { w with pdpIndex := w.pdpIndex + 1 }
      if w.pdpIndex % 512 = 0 then { w with pmlIndex := w.pmlIndex + 1 } else w
    else w
  else w

/-- The scan of a table for an entry that is present: `c = base + i * sizeof(*c)` is
scaled twice, so it looks at every eighth word of the table and of the seven frames
after it. -/
def occupied (m : Machine) (base : ℕ) : Bool :=
  (List.range 512).any fun i => (m.mem (base * 512 + i * 8)).present

/-- The lines that free a table: `parent->present = 0`, `invlpg`, `free_page`. -/
def dropTable (kind : PageKind) (base parent : Option ℕ) (m : Machine) : Option Machine :=
  parent.map fun p => ((m.clearPresent p).note (.invlpg base)).freePage kind base

/-- The block that frees a table "as necessary": when its index has moved by something
else than one, the table is freed if it belongs to the segment, or if the scan finds
nothing in it. -/
def releaseTable (kind : PageKind) (mine : Bool) (index indexOld : ℕ) (cur parent : Option ℕ)
    (m : Machine) : Option Machine :=
  if index ≠ indexOld + 1 ∧ index ≠ indexOld then
    let base := cur.map (· / 512)
    if mine then dropTable kind base parent m
    else
      match base with
      | none => none
      | some b => if occupied m b then some m else dropTable kind base parent m
  else some m

/-- One iteration of the loop. -/
def FreeWalk.body (pmlCur : ℕ) (w : FreeWalk) : Option FreeWalk :=
  let w' := (w.look pmlCur).cascade
  (releaseTable .pt w'.ptMine w'.ptIndex w.ptIndex w'.ptCur w'.pdCur w'.m).bind fun m₁ =>
  (releaseTable .pd w'.pdMine w'.pdIndex w.pdIndex w'.pdCur w'.pdpCur m₁).bind fun m₂ =>
  (releaseTable .pdp w'.pdpMine w'.pdpIndex w.pdpIndex w'.pdpCur (some pmlCur) m₂).map fun m₃ =>
    { w' with m := m₃ }

/-- How a call ends. -/
inductive Outcome (α : Type) where
  /-- It returns. -/
  | ok (a : α)
  /-- It dereferences `NULL`. -/
  | oops
  /-- It needs more iterations than it was given. -/
  | timeout
  deriving DecidableEq

/-- It returns, with a value that passes the test. -/
def Outcome.returns {α : Type} (test : α → Bool) : Outcome α → Bool
  | .ok a => test a
  | _ => false

theorem Outcome.exists_of_returns {α : Type} (test : α → Bool) (o : Outcome α) (h : o.returns test = true) :
    ∃ a, o = .ok a ∧ test a = true := by
  cases o with
  | ok a => exact ⟨a, rfl, h⟩
  | oops => cases h
  | timeout => cases h

/-- The loop, with a bound on the number of iterations. -/
def freePages (numPages pmlCur : ℕ) : ℕ → FreeWalk → Outcome Machine
  | 0, w => if w.pagesCovered ≤ numPages then .timeout else .ok w.m
  | fuel + 1, w =>
    if w.pagesCovered ≤ numPages then
      match w.body pmlCur with
      | none => .oops
      | some w' => freePages numPages pmlCur fuel w'
    else .ok w.m

/-- The variables before the loop. -/
def FreeWalk.start (m : Machine) (freeStart : ℕ) : FreeWalk where
  m := m
  pmlIndex := pml4e64Index freeStart
  pdpIndex := pdpe64Index freeStart
  pdIndex := pde64Index freeStart
  ptIndex := pte64Index freeStart
  pdpCur := none
  pdCur := none
  ptCur := none
  pagesCovered := 0
  pdpMine := false
  pdMine := false
  ptMine := false

/-- `petmem_free_vspace`: the node goes from the map, then its pages are freed. -/
def petmemFreeVspace (fuel : ℕ) (st : Process) (vaddr : ℕ) : Outcome Process :=
  match freeLoop vaddr st.map.nodes with
  | none => .ok st
  | some p =>
    match freePages (p.cursor.size / pageSize4KB) (st.m.cr3 * 512 + pml4e64Index p.cursor.start * 8) fuel
        (.start st.m p.cursor.start) with
    | .ok m => .ok ⟨petmemFreeNode st.map vaddr, m⟩
    | .oops => .oops
    | .timeout => .timeout

/-- `petmem_free_vspace` returns, in state `st'`. -/
def FreeVspace (st : Process) (vaddr : ℕ) (st' : Process) : Prop :=
  ∃ fuel, petmemFreeVspace fuel st vaddr = .ok st'

/-! ### The bound does not matter -/

theorem freePages_mono {numPages pmlCur fuel fuel' : ℕ} {w : FreeWalk} {m : Machine}
    (h : freePages numPages pmlCur fuel w = .ok m) (hle : fuel ≤ fuel') :
    freePages numPages pmlCur fuel' w = .ok m := by
  induction fuel generalizing w fuel' with
  | zero =>
    rw [freePages] at h
    split_ifs at h with hc
    cases fuel' with
    | zero => rw [freePages, if_neg hc]; exact h
    | succ fuel' => rw [freePages, if_neg hc]; exact h
  | succ fuel ih =>
    obtain ⟨fuel', rfl⟩ : ∃ k, fuel' = k + 1 := ⟨fuel' - 1, by omega⟩
    rw [freePages] at h ⊢
    split_ifs at h ⊢ with hc
    · cases hb : w.body pmlCur with
      | none => rw [hb] at h; cases h
      | some w' =>
        rw [hb] at h
        exact ih h (by omega)
    · exact h

theorem petmemFreeVspace_mono {st st' : Process} {vaddr fuel fuel' : ℕ}
    (h : petmemFreeVspace fuel st vaddr = .ok st') (hle : fuel ≤ fuel') :
    petmemFreeVspace fuel' st vaddr = .ok st' := by
  unfold petmemFreeVspace at h ⊢
  cases hp : freeLoop vaddr st.map.nodes with
  | none =>
    rw [hp] at h
    exact h
  | some p =>
    simp only [hp] at h ⊢
    split at h
    · rename_i m hm
      rw [freePages_mono hm hle]
      exact h
    · cases h
    · cases h

/-- The call returns in at most one state. -/
theorem FreeVspace.unique {st st₁ st₂ : Process} {vaddr : ℕ} (h₁ : FreeVspace st vaddr st₁)
    (h₂ : FreeVspace st vaddr st₂) : st₁ = st₂ := by
  obtain ⟨f₁, h₁⟩ := h₁
  obtain ⟨f₂, h₂⟩ := h₂
  have h := (petmemFreeVspace_mono h₁ (Nat.le_max_left f₁ f₂)).symm.trans
    (petmemFreeVspace_mono h₂ (Nat.le_max_right f₁ f₂))
  exact Outcome.ok.inj h

/-- The list part is what the map's own model says. -/
theorem FreeVspace.map_eq {st st' : Process} {vaddr : ℕ} (h : FreeVspace st vaddr st') :
    st'.map = petmemFreeNode st.map vaddr := by
  obtain ⟨fuel, h⟩ := h
  unfold petmemFreeVspace at h
  cases hp : freeLoop vaddr st.map.nodes with
  | none =>
    rw [hp] at h
    rw [petmemFreeNode, hp, Outcome.ok.inj h]
  | some p =>
    simp only [hp] at h
    split at h
    · rw [← Outcome.ok.inj h]
    · cases h
    · cases h

end PetLab.VMproject
