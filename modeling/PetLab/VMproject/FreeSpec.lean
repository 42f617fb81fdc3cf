import PetLab.VMproject.FreeWalk

/-!
# The walk of `petmem_free_vspace` in one page table

Where the tables on the way to a segment are there and one page table covers the
segment and the page after it, the walk clears the entries of the segment and of
the page after it (`Cleared`, `freePages_of_atPage`): the loop runs while
`pages_covered <= num_pages`, once too often. The pages these entries mapped are
freed once each, and nothing else changes.
-/

namespace PetLab.VMproject

open PetLab.Lib

/-! ### Unlinking a page -/

/-- Memory afterwards: entry `i` of table `t`, which pointed to `f`, is clear, and `f` is
back with the page allocator. -/
structure Unlinked (m m' : Machine) (t : ℕ) (i : Fin 512) (f : ℕ) : Prop where
  /-- The top table stays. -/
  cr3 : m'.cr3 = m.cr3
  /-- The entry pointed to `f`. -/
  entry : child m t i = some f
  /-- One entry is cleared. -/
  children : ∀ g k, child m' g k = if g = t ∧ k = i then none else child m g k
  /-- The page allocator has `f` again. -/
  allocated : m'.allocated = m.allocated.filter fun g => some f ≠ some g

theorem child_clearPresent (m : Machine) (t g : ℕ) (i k : Fin 512) :
    child (m.clearPresent (t * 512 + i)) g k = if g = t ∧ k = i then none else child m g k := by
  rw [Machine.clearPresent, child_write]
  rfl

theorem freeUserPage_unlinked {m : Machine} {t f : ℕ} {i : Fin 512} (h : child m t i = some f) :
    Unlinked m (freeUserPage m (t * 512 + i)) t i f ∧
      (freeUserPage m (t * 512 + i)).log = m.log ++ [.invlpg (some f), .freePage .user (some f)] := by
  obtain ⟨hp, rfl⟩ := child_eq_some_iff.mp h
  unfold freeUserPage
  rw [if_pos hp]
  refine ⟨⟨rfl, h, fun g k => ?_, rfl⟩, ?_⟩
  · rw [child_freePage, child_note, child_clearPresent]
  · simp [Machine.freePage, Machine.note, Machine.clearPresent, Machine.write]

theorem freeUserPage_of_none {m : Machine} {t : ℕ} {i : Fin 512} (h : child m t i = none) :
    freeUserPage m (t * 512 + i) = m := by
  unfold freeUserPage
  rw [if_neg (by rw [child_eq_none_iff.mp h]; decide)]

section Unlink

variable {m m' : Machine} {is : List (Fin 512)} {t f : ℕ} {i : Fin 512}

theorem Unlinked.writeAt (h : Unlinked m m' t i f) : WriteAt (child m) (child m') m.cr3 3 t i := by
  intro js u k _ _ hne
  rw [h.children, if_neg fun he => hne he.1 he.2]

theorem Unlinked.clear (h : Unlinked m m' t i f) : child m' t i = none := by
  rw [h.children, if_pos ⟨rfl, rfl⟩]

/-- The paths through the entry are cut off, and no other. -/
theorem Unlinked.paths (h : Unlinked m m' t i f) (hU : TablesUnshared m) (his : RegionPath is)
    (hlen : is.length ≤ 3) (ht : descend (child m) m.cr3 is = some t) (js : List (Fin 512)) (hjs : js.length ≤ 4) :
    (is ++ [i] <+: js ∧ descend (child m') m'.cr3 js = none) ∨
      (¬ is ++ [i] <+: js ∧ descend (child m') m'.cr3 js = descend (child m) m.cr3 js) := by
  rw [h.cr3]
  exact hU.descend_clear his ht h.writeAt hlen h.clear js hjs

theorem Unlinked.unshared (h : Unlinked m m' t i f) (hU : TablesUnshared m) (his : RegionPath is)
    (hlen : is.length ≤ 3) (ht : descend (child m) m.cr3 is = some t) : TablesUnshared m' := by
  rw [TablesUnshared, h.cr3]
  exact hU.clear his ht h.writeAt hlen h.clear fun _ => RegionPath.length_le

/-- What is in use afterwards was in use before, and is not the page unlinked. -/
theorem Unlinked.inUse (h : Unlinked m m' t i f) (hU : TablesUnshared m) (hp : RegionPath (is ++ [i]))
    (hlen : is.length ≤ 3) (ht : descend (child m) m.cr3 is = some t) {g : ℕ} (hg : InUse m' g) :
    InUse m g ∧ g ≠ f := by
  obtain ⟨js, hjs, hd⟩ := hg
  have hlen' : js.length ≤ 4 := by
    rcases hjs with h | h
    · omega
    · exact h.length_le
  rcases h.paths hU (hp.above (List.prefix_append ..)) hlen ht js hlen' with ⟨-, hn⟩ | ⟨hnot, hs⟩
  · rw [hn] at hd
    cases hd
  · rw [hs] at hd
    refine ⟨⟨js, hjs, hd⟩, ?_⟩
    rintro rfl
    -- only the path through the entry led to the page
    have hf : descend (child m) m.cr3 (is ++ [i]) = some g := by
      rw [descend_concat, ht]
      exact h.entry
    obtain rfl := hU _ js g hp hjs hf hd
    exact hnot (List.prefix_refl _)

theorem Unlinked.tracked (h : Unlinked m m' t i f) (hU : TablesUnshared m) (hp : RegionPath (is ++ [i]))
    (hlen : is.length ≤ 3) (ht : descend (child m) m.cr3 is = some t) (hT : Tracked m) : Tracked m' := by
  intro g hg
  obtain ⟨hu, hne⟩ := h.inUse hU hp hlen ht hg
  rw [h.allocated, List.mem_filter]
  exact ⟨hT g hu, by simpa using fun he => hne he.symm⟩

end Unlink

/-! ### Clearing a run of entries of one page table -/

/-- The event hands the frame `f` to `free_page`. -/
def KernelEvent.frees (f : ℕ) : KernelEvent → Bool
  | .freePage _ page => page = some f
  | _ => false

/-- Memory after the walk has looked at entries `a` to `b - 1` of the page table that
`path` leads to: these entries are clear, and the pages they mapped are freed. -/
structure Cleared (m m' : Machine) (path : List (Fin 512)) (a b : ℕ) : Prop where
  /-- The top table stays. -/
  cr3 : m'.cr3 = m.cr3
  /-- The tables of the region are still unshared. -/
  unshared : TablesUnshared m'
  /-- The page allocator knows of all pages in use. -/
  tracked : Tracked m'
  /-- The tables stay. -/
  tables : ∀ js, js.length ≤ 3 → descend (child m') m'.cr3 js = descend (child m) m.cr3 js
  /-- The pages of these entries are unmapped. -/
  inside : ∀ i : Fin 512, a ≤ i → i < b → descend (child m') m'.cr3 (path ++ [i]) = none
  /-- The other pages are mapped as they were. -/
  outside : ∀ js, js.length = 4 → (∀ i : Fin 512, a ≤ i → i < b → js ≠ path ++ [i]) →
    descend (child m') m'.cr3 js = descend (child m) m.cr3 js
  /-- The frames the entries mapped are freed once each, as user pages, and no other;
  none of them is in use any more. -/
  log : ∃ events, m'.log = m.log ++ events ∧
    (∀ i : Fin 512, a ≤ i → i < b → ∀ f, descend (child m) m.cr3 (path ++ [i]) = some f →
      events.countP (KernelEvent.frees f) = 1) ∧
    (∀ f, InUse m' f → events.countP (KernelEvent.frees f) = 0) ∧
    ∀ kind page, .freePage kind page ∈ events → ∃ i : Fin 512, a ≤ i ∧ i < b ∧ ∃ f, page = some f ∧
      kind = .user ∧ descend (child m) m.cr3 (path ++ [i]) = some f

theorem Cleared.refl {m : Machine} (hU : TablesUnshared m) (hT : Tracked m) (path : List (Fin 512)) (a : ℕ) :
    Cleared m m path a a where
  cr3 := rfl
  unshared := hU
  tracked := hT
  tables _ _ := rfl
  inside i h₁ h₂ := by omega
  outside _ _ _ := rfl
  log := ⟨[], by simp, fun i h₁ h₂ => by omega, by simp, by simp⟩

section Step

variable {m m' : Machine} {path : List (Fin 512)} {a t : ℕ} {i : Fin 512}

theorem eq_or_lt_of_lt_succ {k : Fin 512} (hk : (k : ℕ) < i + 1) : k = i ∨ (k : ℕ) < i := by
  rw [Fin.ext_iff]
  omega

/-- The next entry is as it was. -/
theorem Cleared.next_eq (h : Cleared m m' path a i) (hlen : path.length = 3) :
    descend (child m') m'.cr3 (path ++ [i]) = descend (child m) m.cr3 (path ++ [i]) := by
  refine h.outside _ (by simp [hlen]) fun k _ hk he => ?_
  have : i = k := by simpa using he
  omega

/-- The next entry maps nothing. -/
theorem Cleared.step_absent (h : Cleared m m' path a i) (hlen : path.length = 3)
    (hnone : descend (child m) m.cr3 (path ++ [i]) = none) : Cleared m m' path a (i + 1) := by
  obtain ⟨events, hlog, hcount, hgone, hkind⟩ := h.log
  refine ⟨h.cr3, h.unshared, h.tracked, h.tables, ?_, ?_, events, hlog, ?_, hgone, ?_⟩
  · intro k hk₁ hk₂
    rcases eq_or_lt_of_lt_succ hk₂ with rfl | hk
    · rw [h.next_eq hlen, hnone]
    · exact h.inside k hk₁ hk
  · exact fun js hjs hne => h.outside js hjs fun k hk₁ hk₂ => hne k hk₁ (by omega)
  · intro k hk₁ hk₂ f hf
    rcases eq_or_lt_of_lt_succ hk₂ with rfl | hk
    · rw [hnone] at hf
      cases hf
    · exact hcount k hk₁ hk f hf
  · intro kind page hm
    obtain ⟨k, hk₁, hk₂, hk⟩ := hkind kind page hm
    exact ⟨k, hk₁, by omega, hk⟩

/-- The next entry maps frame `g`, which is freed. -/
theorem Cleared.step_present {m'' : Machine} {g : ℕ} (h : Cleared m m' path a i) (ha : a ≤ i)
    (hp : RegionPath (path ++ [i])) (hlen : path.length = 3) (ht : descend (child m') m'.cr3 path = some t)
    (hentry : descend (child m) m.cr3 (path ++ [i]) = some g) (hun : Unlinked m' m'' t i g)
    (hlog' : m''.log = m'.log ++ [.invlpg (some g), .freePage .user (some g)]) : Cleared m m'' path a (i + 1) := by
  obtain ⟨events, hlog, hcount, hgone, hkind⟩ := h.log
  have his : RegionPath path := hp.above (List.prefix_append ..)
  have hpaths := fun js hjs => hun.paths h.unshared his (by omega) ht js hjs
  have hg : InUse m' g := ⟨path ++ [i], .inr hp, by rw [h.next_eq hlen, hentry]⟩
  -- the events so far do not free `g`, which is still in use
  have hne : ∀ f, events.countP (KernelEvent.frees f) ≠ 0 → f ≠ g := by
    rintro f hf rfl
    exact hf (hgone f hg)
  have hnew : ∀ f, [KernelEvent.invlpg (some g), .freePage .user (some g)].countP (KernelEvent.frees f) =
      if f = g then 1 else 0 := by
    intro f
    by_cases hfg : f = g
    · simp [KernelEvent.frees, hfg]
    · simp [KernelEvent.frees, hfg, Ne.symm hfg]
  refine ⟨hun.cr3.trans h.cr3, hun.unshared h.unshared his (by omega) ht,
    hun.tracked h.unshared hp (by omega) ht h.tracked, ?_, ?_, ?_, _, by rw [hlog', hlog, List.append_assoc],
    ?_, ?_, ?_⟩
  · intro js hjs
    rcases hpaths js (by omega) with ⟨hthrough, -⟩ | ⟨-, hs⟩
    · have := hthrough.length_le
      rw [List.length_append, List.length_singleton] at this
      omega
    · rw [hs, h.tables js hjs]
  · intro k hk₁ hk₂
    rcases hpaths (path ++ [k]) (by simp [hlen]) with ⟨-, hn⟩ | ⟨hnot, hs⟩
    · exact hn
    · rcases eq_or_lt_of_lt_succ hk₂ with rfl | hk
      · exact absurd (List.prefix_refl _) hnot
      · rw [hs, h.inside k hk₁ hk]
  · intro js hjs hne'
    rcases hpaths js (by omega) with ⟨hthrough, -⟩ | ⟨-, hs⟩
    · exact absurd (hthrough.eq_of_length (by simp [hlen, hjs])).symm (hne' i ha (by omega))
    · rw [hs, h.outside js hjs fun k hk₁ hk₂ => hne' k hk₁ (by omega)]
  · intro k hk₁ hk₂ f hf
    rw [List.countP_append, hnew]
    rcases eq_or_lt_of_lt_succ hk₂ with rfl | hk
    · rw [hentry] at hf
      obtain rfl := Option.some.inj hf
      rw [hgone g hg, if_pos rfl]
    · have hone := hcount k hk₁ hk f hf
      rw [hone, if_neg (hne f (by omega))]
  · intro f hf
    obtain ⟨hf', hfg⟩ := hun.inUse h.unshared hp (by omega) ht hf
    rw [List.countP_append, hnew, hgone f hf', if_neg hfg]
  · intro kind page hm
    rcases List.mem_append.mp hm with hm | hm
    · obtain ⟨k, hk₁, hk₂, hk⟩ := hkind kind page hm
      exact ⟨k, hk₁, by omega, hk⟩
    · simp only [List.mem_cons, reduceCtorEq, KernelEvent.freePage.injEq, List.not_mem_nil, or_false,
        false_or] at hm
      exact ⟨i, ha, by omega, g, hm.2, hm.1, hentry⟩

/-- One more entry. -/
theorem Cleared.step (h : Cleared m m' path a i) (ha : a ≤ i) (hp : RegionPath (path ++ [i])) (hlen : path.length = 3)
    (ht : descend (child m) m.cr3 path = some t) : Cleared m (freeUserPage m' (t * 512 + i)) path a (i + 1) := by
  have ht' : descend (child m') m'.cr3 path = some t := by rw [h.tables path (by omega), ht]
  have hentry : descend (child m) m.cr3 (path ++ [i]) = child m' t i := by
    rw [← h.next_eq hlen, descend_concat, ht']
    rfl
  cases hc : child m' t i with
  | none =>
    rw [freeUserPage_of_none hc]
    exact h.step_absent hlen (hentry.trans hc)
  | some g =>
    obtain ⟨hun, hlog⟩ := freeUserPage_unlinked hc
    exact h.step_present ha hp hlen ht' (hentry.trans hc) hun hlog

end Step

/-! ### The loop in one page table -/

/-- One iteration whose three tables are present looks at one entry of the page table. -/
theorem FreeWalk.look_of_tables {w : FreeWalk} {c pdp pd t : ℕ} {i : Fin 512}
    (hpdp : child w.m c i = some pdp) {j : Fin 512} (hj : w.pdpIndex = j) (hpd : child w.m pdp j = some pd)
    {k : Fin 512} (hk : w.pdIndex = k) (ht : child w.m pd k = some t) :
    w.look (c * 512 + i) =
      { w.cover 1 with pdpCur := some (pdp * 512 + j), pdCur := some (pd * 512 + k),
                       ptCur := some (t * 512 + w.ptIndex), ptIndex := w.ptIndex + 1,
                       m := freeUserPage w.m (t * 512 + w.ptIndex) } := by
  obtain ⟨h₁, rfl⟩ := child_eq_some_iff.mp hpdp
  obtain ⟨h₂, rfl⟩ := child_eq_some_iff.mp hpd
  obtain ⟨h₃, rfl⟩ := child_eq_some_iff.mp ht
  simp only [FreeWalk.look, FreeWalk.cover, hj, hk, h₁, h₂, h₃, Bool.true_eq_false, if_false]

/-- A table whose index has moved by at most one stays. -/
theorem releaseTable_of_near {kind : PageKind} {mine : Bool} {index indexOld : ℕ} {cur parent : Option ℕ}
    {m : Machine} (h : index = indexOld + 1 ∨ index = indexOld) :
    releaseTable kind mine index indexOld cur parent m = some m := by
  rw [releaseTable, if_neg]
  rintro ⟨h₁, h₂⟩
  exact h.elim h₁ h₂

/-- One iteration, from what its parts do. -/
theorem FreeWalk.body_of {w u : FreeWalk} {pmlCur : ℕ} {m₁ m₂ m₃ : Machine} (hu : (w.look pmlCur).cascade = u)
    (h₁ : releaseTable .pt u.ptMine u.ptIndex w.ptIndex u.ptCur u.pdCur u.m = some m₁)
    (h₂ : releaseTable .pd u.pdMine u.pdIndex w.pdIndex u.pdCur u.pdpCur m₁ = some m₂)
    (h₃ : releaseTable .pdp u.pdpMine u.pdpIndex w.pdpIndex u.pdpCur (some pmlCur) m₂ = some m₃) :
    w.body pmlCur = some { u with m := m₃ } := by
  subst hu
  simp only [FreeWalk.body, h₁, h₂, h₃, Option.bind_some, Option.map_some]

/-- The carry moves the upper indices by at most one, and none of them when the index
of the page table has not come to the end of it. -/
theorem FreeWalk.cascade_spec (w : FreeWalk) :
    w.cascade.m = w.m ∧ w.cascade.ptIndex = w.ptIndex ∧ w.cascade.pagesCovered = w.pagesCovered ∧
      (w.cascade.pdIndex = w.pdIndex + 1 ∨ w.cascade.pdIndex = w.pdIndex) ∧
      (w.cascade.pdpIndex = w.pdpIndex + 1 ∨ w.cascade.pdpIndex = w.pdpIndex) ∧
      (w.ptIndex % 512 ≠ 0 → w.cascade = w) := by
  unfold FreeWalk.cascade
  by_cases h₁ : w.ptIndex % 512 = 0
  · by_cases h₂ : (w.pdIndex + 1) % 512 = 0
    · by_cases h₃ : (w.pdpIndex + 1) % 512 = 0
      · simp [h₁, h₂, h₃]
      · simp [h₁, h₂, h₃]
    · simp [h₁, h₂]
  · simp [h₁]

/-- Where the loop stands after `k` entries of the page table of `s`, of which it is
to look at those of `numPages` pages and one more. -/
structure AtPage (m : Machine) (s numPages k : ℕ) (w : FreeWalk) : Prop where
  /-- `k` pages are covered. -/
  covered : w.pagesCovered = k
  /-- Their entries are clear. -/
  cleared : Cleared m w.m (tablePath s) (pte64Index s) (pte64Index s + k)
  /-- The next entry is the one after. -/
  next : k ≤ numPages →
    w.pdpIndex = pdpe64Index s ∧ w.pdIndex = pde64Index s ∧ w.ptIndex = pte64Index s + k

/-- The tables on the way to the page table of an address. -/
theorem tables_of_descend {m : Machine} {s t : ℕ} (h : descend (child m) m.cr3 (tablePath s) = some t) :
    ∃ pdp pd, child m m.cr3 (pmlEntry s) = some pdp ∧ child m pdp (pdpEntry s) = some pd ∧
      child m pd (pdEntry s) = some t := by
  simp only [tablePath, descend_cons, descend_nil, Option.bind_eq_some_iff, Option.some.injEq, exists_eq_right] at h
  obtain ⟨pdp, h₁, pd, h₂, h₃⟩ := h
  exact ⟨pdp, pd, h₁, h₂, h₃⟩

/-- An address on the pages behind `s` that one page table covers. -/
theorem inRegion_of_offset {s k : ℕ} (hs : InRegion s) (hk : pte64Index s + k < 512) : InRegion (s + 4096 * k) := by
  rw [pte64Index_eq] at hk
  simp only [InRegion, petmemRegionStart, petmemRegionEnd] at hs ⊢
  omega

/-- The path to the page `k` pages behind `s`. -/
theorem pagePath_offset {s k : ℕ} (hk : pte64Index s + k < 512) :
    pagePath (s + 4096 * k) = tablePath s ++ [⟨pte64Index s + k, hk⟩] := by
  have h := hk
  rw [pte64Index_eq] at h
  simp only [pagePath, tablePath, pmlEntry, pdpEntry, pdEntry, ptEntry, pml4e64Index_eq, pdpe64Index_eq,
    pde64Index_eq, pte64Index_eq, List.cons_append, List.nil_append, List.cons.injEq, Fin.mk.injEq, and_true]
  omega

/-- One iteration in the page table. -/
theorem AtPage.body {m : Machine} {s numPages k t : ℕ} {w : FreeWalk} (h : AtPage m s numPages k w)
    (hs : InRegion s) (hfit : pte64Index s + numPages < 512) (hk : k ≤ numPages)
    (ht : descend (child m) m.cr3 (tablePath s) = some t) :
    ∃ w', w.body (m.cr3 * 512 + (pmlEntry s : ℕ)) = some w' ∧ AtPage m s numPages (k + 1) w' := by
  obtain ⟨hpdpIndex, hpdIndex, hptIndex⟩ := h.next hk
  have ht' : descend (child w.m) w.m.cr3 (tablePath s) = some t := by
    rw [h.cleared.tables _ (by simp [tablePath]), ht]
  obtain ⟨pdp, pd, h₁, h₂, h₃⟩ := tables_of_descend ht'
  rw [← h.cleared.cr3]
  have hlook := FreeWalk.look_of_tables h₁ hpdpIndex h₂ hpdIndex h₃
  set u := w.look (w.m.cr3 * 512 + (pmlEntry s : ℕ)) with hu
  have hmem : u.m = freeUserPage w.m (t * 512 + (pte64Index s + k)) := by rw [hlook, ← hptIndex]
  have hpt : u.ptIndex = w.ptIndex + 1 := by rw [hlook]
  have hpd : u.pdIndex = w.pdIndex := by rw [hlook]; rfl
  have hpdp : u.pdpIndex = w.pdpIndex := by rw [hlook]; rfl
  obtain ⟨cm, cpt, ccov, cpd, cpdp, csame⟩ := u.cascade_spec
  refine ⟨u.cascade, ?_, ?_, ?_, ?_⟩
  · -- no index has moved by more than one
    have hpt' : u.cascade.ptIndex = w.ptIndex + 1 ∨ u.cascade.ptIndex = w.ptIndex := .inl (by rw [cpt, hpt])
    rw [hpd] at cpd
    rw [hpdp] at cpdp
    exact FreeWalk.body_of (congrArg FreeWalk.cascade hu.symm) (releaseTable_of_near hpt')
      (releaseTable_of_near cpd) (releaseTable_of_near cpdp)
  · rw [ccov, hlook]
    simp only [FreeWalk.cover, h.covered]
    omega
  · rw [cm, hmem]
    have hlt : pte64Index s + k < 512 := by omega
    have hp : RegionPath (tablePath s ++ [⟨pte64Index s + k, hlt⟩]) := by
      rw [← pagePath_offset hlt]
      exact (inRegion_of_offset hs hlt).regionPath (List.prefix_refl _)
    exact Cleared.step (i := ⟨pte64Index s + k, hlt⟩) h.cleared (Nat.le_add_right ..) hp rfl ht
  · intro hk'
    rw [csame (by omega), hpdp, hpd, hpt]
    exact ⟨hpdpIndex, hpdIndex, by omega⟩

/-- **The loop in one page table** clears the entries of the segment and one more. -/
theorem freePages_of_atPage {m : Machine} {s numPages k t : ℕ} (hs : InRegion s)
    (hfit : pte64Index s + numPages < 512) (ht : descend (child m) m.cr3 (tablePath s) = some t)
    {w : FreeWalk} (h : AtPage m s numPages k w) {fuel : ℕ} (hfuel : k + fuel = numPages + 1) :
    ∃ m', freePages numPages (m.cr3 * 512 + (pmlEntry s : ℕ)) fuel w = .ok m' ∧
      Cleared m m' (tablePath s) (pte64Index s) (pte64Index s + numPages + 1) := by
  induction fuel generalizing k w with
  | zero =>
    obtain rfl : k = numPages + 1 := hfuel
    exact ⟨w.m, by rw [freePages, if_neg (by rw [h.covered]; omega)], h.cleared⟩
  | succ fuel ih =>
    have hk : k ≤ numPages := by omega
    obtain ⟨w', hb, h'⟩ := h.body hs hfit hk ht
    rw [freePages, if_pos (by rw [h.covered]; exact hk), hb]
    exact ih h' (by omega)

end PetLab.VMproject
