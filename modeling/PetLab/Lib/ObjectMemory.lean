import PetLab.Lib.Run
import Mathlib.Data.Set.Basic
import Mathlib.Logic.Function.Basic

/-!
# Memory made of objects

What a program expects of memory it allocates: objects, each a set of cells, are granted
and released under a name, no two live objects share a cell, and a live cell holds what
was last written to it, or `z` if nothing was since its object was granted.

`MemStep` says so of one event. What is in a cell is then found in the history, in the events
since the grant of its object (`stored_of_run`, `stored_of_read`). So two memories with the same
history agree on all that is live (`ObjMem.Agree.exec`).
-/

namespace PetLab.Lib

/-- A memory: the live objects, and what is in the cells. -/
structure ObjMem (κ α W : Type*) where
  /-- The cells of the object of that name, if it is live. -/
  cells : κ → Option (Set α)
  /-- What is in a cell. -/
  word : α → W

/-- What a program does with it. -/
inductive MemEvent (κ α W : Type*) where
  /-- An object is granted. -/
  | grant (k : κ) (s : Set α)
  /-- The object of that name is released, if there is one. -/
  | release (k : κ)
  /-- A cell is read. -/
  | read (a : α) (w : W)
  /-- A cell is written. -/
  | write (a : α) (w : W)
  /-- A cell is found to belong to no object. -/
  | trap (a : α)

variable {κ α W : Type*} {z : W}

/-- The cell belongs to a live object. -/
def ObjMem.Live (M : ObjMem κ α W) (a : α) : Prop := ∃ k s, M.cells k = some s ∧ a ∈ s

/-- No objects. -/
def ObjMem.empty (z : W) : ObjMem κ α W := ⟨fun _ => none, fun _ => z⟩

/-- The same objects, with the same words in them. -/
structure ObjMem.Agree (M M' : ObjMem κ α W) : Prop where
  /-- The objects are the same. -/
  cells : M.cells = M'.cells
  /-- So is what is in them. -/
  word : ∀ a, M.Live a → M.word a = M'.word a

theorem ObjMem.Agree.live_iff {M M' : ObjMem κ α W} (h : M.Agree M') {a : α} : M.Live a ↔ M'.Live a := by
  rw [ObjMem.Live, ObjMem.Live, h.cells]

theorem ObjMem.Agree.symm {M M' : ObjMem κ α W} (h : M.Agree M') : M'.Agree M :=
  ⟨h.cells.symm, fun a ha => (h.word a (h.live_iff.mpr ha)).symm⟩

/-! ### The history of a cell -/

/-- Since `es` began, `w` was the last word written to the cell, or nothing was and it is `z`. -/
def LastWrite (z : W) (es : List (MemEvent κ α W)) (a : α) (w : W) : Prop :=
  (w = z ∧ ∀ u, .write a u ∉ es) ∨ ∃ es₁ es₂, es = es₁ ++ .write a w :: es₂ ∧ ∀ u, .write a u ∉ es₂

theorem LastWrite.snoc {es : List (MemEvent κ α W)} {a : α} {w : W} {e : MemEvent κ α W} (h : LastWrite z es a w)
    (he : ∀ u, e ≠ .write a u) : LastWrite z (es ++ [e]) a w := by
  have hkeep : ∀ es' : List (MemEvent κ α W), (∀ u, .write a u ∉ es') → ∀ u, .write a u ∉ es' ++ [e] := by
    intro es' hes u hmem
    rcases List.mem_append.mp hmem with hmem | hmem
    · exact hes u hmem
    · exact he u (List.mem_singleton.mp hmem).symm
  rcases h with ⟨rfl, hno⟩ | ⟨es₁, es₂, rfl, hno⟩
  · exact .inl ⟨rfl, hkeep es hno⟩
  · exact .inr ⟨es₁, es₂ ++ [e], by simp, hkeep es₂ hno⟩

/-- In the history `es`, the object `k` with the cells `s` was granted and has not been
released since, and `w` was the last word written to its cell `a` since. -/
def Stored (z : W) (es : List (MemEvent κ α W)) (k : κ) (s : Set α) (a : α) (w : W) : Prop :=
  ∃ es₁ es₂, es = es₁ ++ .grant k s :: es₂ ∧ .release k ∉ es₂ ∧ LastWrite z es₂ a w

theorem Stored.snoc {es : List (MemEvent κ α W)} {k : κ} {s : Set α} {a : α} {w : W} {e : MemEvent κ α W}
    (h : Stored z es k s a w) (hrelease : e ≠ .release k) (hwrite : ∀ u, e ≠ .write a u) :
    Stored z (es ++ [e]) k s a w := by
  obtain ⟨es₁, es₂, rfl, hk, hw⟩ := h
  exact ⟨es₁, es₂ ++ [e], by simp, by simpa [hrelease.symm] using hk, hw.snoc hwrite⟩

theorem Stored.write {es : List (MemEvent κ α W)} {k : κ} {s : Set α} {a : α} {w : W} (u : W)
    (h : Stored z es k s a w) : Stored z (es ++ [.write a u]) k s a u := by
  obtain ⟨es₁, es₂, rfl, hk, -⟩ := h
  exact ⟨es₁, es₂ ++ [.write a u], by simp, by simpa using hk, .inr ⟨es₂, [], rfl, by simp⟩⟩

/-! ### One event -/

variable [DecidableEq κ]

/-- An object is granted under a name that is not in use, of cells that are not; it is clear. -/
structure Grants (z : W) (M : ObjMem κ α W) (k : κ) (s : Set α) (M' : ObjMem κ α W) : Prop where
  /-- The name is new. -/
  name : M.cells k = none
  /-- So are the cells. -/
  apart : ∀ a ∈ s, ¬ M.Live a
  /-- The object is live afterwards. -/
  cells : M'.cells = Function.update M.cells k (some s)
  /-- Its cells are clear. -/
  clear : ∀ a ∈ s, M'.word a = z
  /-- The other objects keep what they hold. -/
  frame : ∀ a, M.Live a → M'.word a = M.word a

/-- One event. -/
def MemStep (z : W) (M : ObjMem κ α W) : MemEvent κ α W → ObjMem κ α W → Prop
  | .grant k s, M' => Grants z M k s M'
  | .release k, M' => M' = { M with cells := Function.update M.cells k none }
  | .read a w, M' => M.Live a ∧ w = M.word a ∧ M' = M
  | .write a w, M' => M.Live a ∧ M'.cells = M.cells ∧ M'.word a = w ∧ ∀ b ≠ a, M'.word b = M.word b
  | .trap a, M' => ¬ M.Live a ∧ M' = M

/-- **What is in a live cell** is what the history of its object says. -/
theorem stored_of_run {es : List (MemEvent κ α W)} {M : ObjMem κ α W} (h : Exec (MemStep z) (.empty z) es M) {k : κ}
    {s : Set α} (hk : M.cells k = some s) {a : α} (ha : a ∈ s) : Stored z es k s a (M.word a) := by
  induction h with
  | nil => cases hk
  | @snoc es e M M' _ hstep ih =>
    cases e with
    | grant k' s' =>
      have hcells := hstep.cells
      by_cases hkk : k = k'
      · subst hkk
        obtain rfl : s' = s := by
          rw [hcells, Function.update_self] at hk
          exact Option.some.inj hk
        exact ⟨es, [], rfl, by simp, .inl ⟨hstep.clear a ha, by simp⟩⟩
      · rw [hcells, Function.update_of_ne hkk] at hk
        rw [hstep.frame a ⟨k, s, hk, ha⟩]
        exact (ih hk).snoc (by simp) (by simp)
    | release k' =>
      obtain rfl : M' = { M with cells := Function.update M.cells k' none } := hstep
      have hkk : k ≠ k' := by
        rintro rfl
        simp at hk
      have hk' : M.cells k = some s := by simpa [Function.update_of_ne hkk] using hk
      exact (ih hk').snoc (by simpa using hkk.symm) (by simp)
    | read b w =>
      obtain ⟨-, -, rfl⟩ := hstep
      exact (ih hk).snoc (by simp) (by simp)
    | write b w =>
      obtain ⟨-, hcells, hb, hothers⟩ := hstep
      rw [hcells] at hk
      by_cases hab : a = b
      · subst hab
        rw [hb]
        exact (ih hk).write w
      · rw [hothers a hab]
        exact (ih hk).snoc (by simp) (by simp [Ne.symm hab])
    | trap b =>
      obtain ⟨-, rfl⟩ := hstep
      exact (ih hk).snoc (by simp) (by simp)

/-- **What is read** was written last since the object was granted, or nothing was. -/
theorem stored_of_read {es : List (MemEvent κ α W)} {M : ObjMem κ α W} {a : α} {w : W}
    (h : Exec (MemStep z) (.empty z) (es ++ [.read a w]) M) : ∃ k s, a ∈ s ∧ Stored z es k s a w := by
  obtain ⟨M', hrun, ⟨k, s, hk, ha⟩, rfl, -⟩ := exec_concat_iff.mp h
  exact ⟨k, s, ha, stored_of_run hrun hk ha⟩

/-! ### Memories that agree -/

section Agree

variable {M M' N N' : ObjMem κ α W}

/-- Memories that agree do so after an event. -/
theorem ObjMem.Agree.step (h : M.Agree M') {e : MemEvent κ α W} (hN : MemStep z M e N) (hN' : MemStep z M' e N') :
    N.Agree N' := by
  cases e with
  | grant k s =>
    have hcells : N.cells = N'.cells := by rw [hN.cells, hN'.cells, h.cells]
    refine ⟨hcells, ?_⟩
    rintro a ⟨k', s', hk', ha⟩
    by_cases hkk : k' = k
    · subst hkk
      rw [hN.cells, Function.update_self] at hk'
      obtain rfl := Option.some.inj hk'
      rw [hN.clear a ha, hN'.clear a ha]
    · rw [hN.cells, Function.update_of_ne hkk] at hk'
      have hlive : M.Live a := ⟨k', s', hk', ha⟩
      rw [hN.frame a hlive, hN'.frame a (h.live_iff.mp hlive), h.word a hlive]
  | release k =>
    obtain rfl : N = { M with cells := Function.update M.cells k none } := hN
    obtain rfl : N' = { M' with cells := Function.update M'.cells k none } := hN'
    refine ⟨by simp only [h.cells], ?_⟩
    rintro a ⟨k', s', hk', ha⟩
    refine h.word a ⟨k', s', ?_, ha⟩
    by_cases hkk : k' = k
    · subst hkk
      simp at hk'
    · simpa [Function.update_of_ne hkk] using hk'
  | read a w =>
    obtain ⟨-, -, rfl⟩ := hN
    obtain ⟨-, -, rfl⟩ := hN'
    exact h
  | write a w =>
    obtain ⟨-, hcells, ha, hothers⟩ := hN
    obtain ⟨-, hcells', ha', hothers'⟩ := hN'
    refine ⟨by rw [hcells, hcells', h.cells], fun b hb => ?_⟩
    by_cases hba : b = a
    · rw [hba, ha, ha']
    · have hlive : M.Live b := by rwa [ObjMem.Live, hcells] at hb
      rw [hothers b hba, hothers' b hba, h.word b hlive]
  | trap a =>
    obtain ⟨-, rfl⟩ := hN
    obtain ⟨-, rfl⟩ := hN'
    exact h

/-- **One history, one memory**: memories that agree do so after the same events. -/
theorem ObjMem.Agree.exec {es : List (MemEvent κ α W)} (h : M.Agree M') (hN : Exec (MemStep z) M es N)
    (hN' : Exec (MemStep z) M' es N') : N.Agree N' := by
  induction hN generalizing N' with
  | nil =>
    obtain rfl := exec_nil_iff.mp hN'
    exact h
  | snoc _ hstep ih =>
    obtain ⟨t, ht, hstep'⟩ := exec_concat_iff.mp hN'
    exact (ih ht).step hstep hstep'

end Agree

end PetLab.Lib
