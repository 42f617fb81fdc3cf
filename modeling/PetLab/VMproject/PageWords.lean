import PetLab.VMproject.Isolation

/-!
# What the driver leaves alone

The page tables and the pages of the user lie in one memory. The driver writes the words of
tables, and clears pages that are not in use; the process writes the words of its own pages.
As no page of the region is a table (`TablesUnshared.page_ne_table`), neither comes in the
way of the other: a fault and a free leave what is in the pages of the region as it is
(`PagesKept`), and a store leaves the tables as they are (`store_descend`).

What belongs to other processes is left alone too. A call changes and gives back frames that
the process owns, and takes frames that nobody has (`Footprint`).
-/

namespace PetLab.VMproject

open PetLab.Lib

/-- Every page of the region that is mapped holds what it held. -/
def PagesKept (m m' : Machine) : Prop :=
  ∀ v g, InRegion v → translate m v = some g → ∀ k : Fin 512, m'.mem (g * 512 + k) = m.mem (g * 512 + k)

theorem PagesKept.refl (m : Machine) : PagesKept m m := fun _ _ _ _ _ => rfl

/-- In between, no page of the region has been unmapped. -/
theorem PagesKept.trans {m₁ m₂ m₃ : Machine} (h : PagesKept m₁ m₂) (h' : PagesKept m₂ m₃)
    (hmapped : ∀ v g, InRegion v → translate m₁ v = some g → translate m₂ v = some g) : PagesKept m₁ m₃ :=
  fun v g hv hg k => (h' v g hv (hmapped v g hv hg) k).trans (h v g hv hg k)

/-- Memory is kept where it is the same outside one table. -/
theorem PagesKept.of_table {m m' : Machine} {t : ℕ} (hpage : ∀ v, InRegion v → translate m v ≠ some t)
    (h : ∀ g, g ≠ t → ∀ k : Fin 512, m'.mem (g * 512 + k) = m.mem (g * 512 + k)) : PagesKept m m' := by
  intro v g hv hg k
  refine h g ?_ k
  rintro rfl
  exact hpage v hv hg

/-- A page of the region is no table. -/
theorem TablesUnshared.page_ne_table {m : Machine} (hU : TablesUnshared m) (is : List (Fin 512)) {t : ℕ}
    (hlen : is.length ≤ 3) (ht : descend (child m) m.cr3 is = some t) {v : ℕ} (hv : InRegion v) :
    translate m v ≠ some t := by
  intro h
  rw [translate_of_canonical hv.canonical] at h
  have heq := hU _ is t (hv.regionPath (List.prefix_refl _)) (.inl hlen) h ht
  have := congrArg List.length heq
  rw [length_pagePath] at this
  omega

theorem InRegion.inUse {m : Machine} {v g : ℕ} (hv : InRegion v) (hg : translate m v = some g) : InUse m g := by
  rw [translate_of_canonical hv.canonical] at hg
  exact ⟨pagePath v, .inr (hv.regionPath (List.prefix_refl _)), hg⟩

theorem mem_write_of_ne {m : Machine} {t g : ℕ} (h : g ≠ t) (i k : Fin 512) (e : Entry) :
    (m.write (t * 512 + i) e).mem (g * 512 + k) = m.mem (g * 512 + k) := by
  have hne : g * 512 + (k : ℕ) ≠ t * 512 + (i : ℕ) := fun he => h (slot_inj.mp he).1
  simp only [Machine.write, Function.update_of_ne hne]

/-! ### What a call may touch -/

/-- A table or a page of the region of the process. -/
def Owned (m : Machine) (f : ℕ) : Prop := ∃ js, RegionPath js ∧ descend (child m) m.cr3 js = some f

/-- From `m` to `m'`, of the frames handed out only those that the process owns are written or
given back, and only frames not handed out have come into use. -/
structure Footprint (m m' : Machine) : Prop where
  /-- The top table stays. -/
  cr3 : m'.cr3 = m.cr3
  /-- Frames of others are not written. -/
  writes : ∀ g ∈ m.allocated, ¬ Owned m g → ∀ k : Fin 512, m'.mem (g * 512 + k) = m.mem (g * 512 + k)
  /-- They are not given back. -/
  keeps : ∀ g ∈ m.allocated, ¬ Owned m g → g ∈ m'.allocated
  /-- They do not become the process's own. -/
  owned : ∀ g ∈ m.allocated, Owned m' g → Owned m g
  /-- They do not come into use. -/
  inUse : ∀ g ∈ m.allocated, InUse m' g → InUse m g

theorem Owned.inUse {m : Machine} {f : ℕ} (h : Owned m f) : InUse m f := by
  obtain ⟨js, hjs, hf⟩ := h
  exact ⟨js, .inr hjs, hf⟩

theorem Footprint.refl (m : Machine) : Footprint m m :=
  ⟨rfl, fun _ _ _ _ => rfl, fun _ h _ => h, fun _ _ h => h, fun _ _ h => h⟩

theorem Footprint.trans {m₁ m₂ m₃ : Machine} (h : Footprint m₁ m₂) (h' : Footprint m₂ m₃) : Footprint m₁ m₃ where
  cr3 := h'.cr3.trans h.cr3
  writes g hg hno k := by
    have hno' : ¬ Owned m₂ g := fun ho => hno (h.owned g hg ho)
    exact (h'.writes g (h.keeps g hg hno) hno' k).trans (h.writes g hg hno k)
  keeps g hg hno := h'.keeps g (h.keeps g hg hno) fun ho => hno (h.owned g hg ho)
  owned g hg ho := by
    by_cases hown : Owned m₁ g
    · exact hown
    · exact h.owned g hg (h'.owned g (h.keeps g hg hown) ho)
  inUse g hg hu := by
    by_cases hown : Owned m₁ g
    · exact hown.inUse
    · exact h.inUse g hg (h'.inUse g (h.keeps g hg hown) hu)

theorem length_le_of_watched {js : List (Fin 512)} (h : Watched 3 RegionPath js) : js.length ≤ 4 := by
  rcases h with h | h
  · omega
  · exact h.length_le

/-- A frame is left alone by a write to a table or a page of the process, if every path leads to
where it did, or nowhere, or to a new frame. -/
theorem Footprint.of_paths {m m' : Machine} {t : ℕ} (ht : Owned m t) (hcr3 : m'.cr3 = m.cr3)
    (hmem : ∀ g ∈ m.allocated, g ≠ t → ∀ k : Fin 512, m'.mem (g * 512 + k) = m.mem (g * 512 + k))
    (hkeeps : ∀ g ∈ m.allocated, ¬ Owned m g → g ∈ m'.allocated)
    (hpaths : ∀ js g, js.length ≤ 4 → g ∈ m.allocated → descend (child m') m'.cr3 js = some g →
      descend (child m) m.cr3 js = some g) : Footprint m m' where
  cr3 := hcr3
  writes g hg hno := hmem g hg (by rintro rfl; exact hno ht)
  keeps := hkeeps
  owned g hg := fun ⟨js, hjs, hd⟩ => ⟨js, hjs, hpaths js g hjs.length_le hg hd⟩
  inUse g hg := fun ⟨js, hjs, hd⟩ => ⟨js, hjs, hpaths js g (length_le_of_watched hjs) hg hd⟩

/-- The log does not matter. -/
theorem Footprint.of_log {m m' : Machine} (h : Footprint m m') (log : List KernelEvent) :
    Footprint m { m' with log := log } := ⟨h.cr3, h.writes, h.keeps, h.owned, h.inUse⟩

/-- The top table is a table of the region. -/
theorem owned_cr3 (m : Machine) : Owned m m.cr3 :=
  ⟨[], ⟨petmemRegionStart, by decide, List.nil_prefix⟩, rfl⟩

/-- `get_zeroed_page` succeeds, and hands out no page twice. -/
def Kernel.Fresh (K : Kernel) : Prop := ∀ m, ∃ f, K.getZeroedPage m = some f ∧ f ∉ m.allocated

theorem Kernel.Fresh.serves {K : Kernel} (hK : K.Fresh) : K.Serves Tracked := Kernel.serves_of_not_mem_allocated hK

/-! ### A fault -/

section Fault

variable {K : Kernel} {m : Machine} {t : ℕ}

/-- Linking a new page writes the table and the page. -/
theorem mem_install {f g : ℕ} (hget : K.getZeroedPage m = some f) (hgt : g ≠ t) (hgf : g ≠ f) (i k : Fin 512) :
    (m.install K (t * 512 + i)).2.mem (g * 512 + k) = m.mem (g * 512 + k) := by
  have hdiv : (g * 512 + (k : ℕ)) / 512 = g := by
    have := k.isLt
    omega
  simp only [Machine.install, getZeroedPage, hget]
  rw [mem_write_of_ne hgt]
  simp only [Machine.zeroFrame, hdiv, if_neg hgf]

/-- An entry is created in a table, for a page that was not handed out. -/
theorem walkLevel_kept {m' : Machine} (is : List (Fin 512)) (i : Fin 512) (hK : K.Fresh) (hU : TablesUnshared m)
    (hT : Tracked m) (his : RegionPath is) (hlen : is.length ≤ 3) (ht : descend (child m) m.cr3 is = some t)
    (hdown : walkLevel K true m (t * 512 + i) = .down m') : PagesKept m m' ∧ Footprint m m' := by
  rcases walkLevel_down_cases hdown with rfl | ⟨-, rfl⟩
  · exact ⟨.refl _, .refl _⟩
  · obtain ⟨f, hget, hf⟩ := hK m
    have hfresh : ¬ InUse m f := fun hu => hf (hT f hu)
    have hl := install_linked hget hfresh is hlen ht i
    refine ⟨fun v g hv hg => mem_install hget ?_ ?_ i, .of_paths ⟨is, his, ht⟩ hl.cr3
      (fun g hg hgt => mem_install hget hgt ?_ i) (fun g hg _ => ?_) fun js g hjs hg hd => ?_⟩
    · rintro rfl
      exact hU.page_ne_table is hlen ht hv hg
    · rintro rfl
      exact hfresh (hv.inUse hg)
    · rintro rfl
      exact hf hg
    · rw [hl.allocated]
      exact List.mem_cons_of_mem _ hg
    · rw [hl.cr3] at hd
      rcases hU.descend_of_link his ht hl.write hlen hl.entry hl.clear hjs hd with ⟨-, rfl⟩ | hd'
      · exact absurd hg hf
      · exact hd'

/-- Creating tables changes no translation. -/
theorem Walked.translate_eq {J : Machine → Prop} {m' : Machine} (h : Walked J m m') (v : ℕ) :
    translate m' v = translate m v := by
  unfold translate
  split_ifs
  · exact h.same _ (length_pagePath v)
  · rfl

/-- What creating tables on the way to an address does, and what it leaves alone. -/
structure WalkedKept (m m' : Machine) : Prop where
  /-- No translation changes. -/
  walked : Walked Tracked m m'
  /-- No page of the region changes. -/
  kept : PagesKept m m'
  /-- Nothing of others is touched. -/
  footprint : Footprint m m'

theorem WalkedKept.trans {m₁ m₂ m₃ : Machine} (h : WalkedKept m₁ m₂) (h' : WalkedKept m₂ m₃) : WalkedKept m₁ m₃ :=
  ⟨h.walked.trans h'.walked, h.kept.trans h'.kept fun v g _ hg => by rw [h.walked.translate_eq, hg],
    h.footprint.trans h'.footprint⟩

/-- One level of the walk, to the next table. -/
theorem walkLevel_walkedKept {m' : Machine} {dest : ℕ} (is : List (Fin 512)) (i : Fin 512) (hK : K.Fresh)
    (hU : TablesUnshared m) (hT : Tracked m) (hp : RegionPath (is ++ [i])) (hlen : is.length ≤ 2)
    (ht : descend (child m) m.cr3 is = some t) (hdest : dest = t * 512 + i)
    (hdown : walkLevel K true m dest = .down m') :
    WalkedKept m m' ∧ descend (child m') m'.cr3 (is ++ [i]) = some (m'.mem dest).base := by
  subst hdest
  obtain ⟨hkept, hfoot⟩ := walkLevel_kept is i hK hU hT (hp.above (List.prefix_append ..)) (by omega) ht hdown
  rcases walkLevel_spec is i hK.serves.toKeeps hU hT hp hlen ht with ⟨m'', he, hw, hd⟩ | ⟨he, -⟩
  · obtain rfl : m' = m'' := LevelResult.down.inj (hdown.symm.trans he)
    exact ⟨⟨hw, hkept, hfoot⟩, hd⟩
  · rw [hdown] at he
    cases he

/-- The walk clears the accessed bit of an entry of the top table. -/
theorem clearAccessed_spec (hK : K.Fresh) (hU : TablesUnshared m) (hT : Tracked m) (i : Fin 512) :
    WalkedKept m (m.clearAccessed (m.cr3 * 512 + i)) where
  walked := walked_clearAccessed hK.serves.toKeeps hU hT _
  kept := .of_table (fun _ => hU.page_ne_table [] (Nat.zero_le 3) descend_nil) fun _ hg k => mem_write_of_ne hg i k _
  footprint := .of_paths (owned_cr3 m) rfl (fun _ _ hg k => mem_write_of_ne hg i k _) (fun _ hg _ => hg)
    fun js g _ _ hd => by rwa [child_clearAccessed] at hd

/-- **A fault** leaves what is in the pages of the region as it is, and all that is not the process's own. -/
theorem petmemHandlePagefault_kept {map : MapHead} {m' : Machine} {v errorCode : ℕ} {r : ℤ} (hK : K.Fresh)
    (hI : MapInv map) (hU : TablesUnshared m) (hT : Tracked m)
    (h : petmemHandlePagefault K map m v errorCode = some (r, m')) : PagesKept m m' ∧ Footprint m m' := by
  rcases petmemHandlePagefault_path h with heq | ⟨hcode, hfind, m₀, m₁, m₂, m₃, pmlDest, pdpDest, pdeDest, pteDest, hp⟩
  · obtain ⟨-, rfl⟩ := Prod.mk.inj heq
    exact ⟨.refl _, .refl _⟩
  have hv := hI.inRegion_of_find hfind
  have hpath : ∀ is, is <+: pagePath v → RegionPath is := fun is h => hv.regionPath h
  -- the entry at each level is one of a table of the process
  have hpml : pmlDest = m.cr3 * 512 + (pmlEntry v : ℕ) := by
    rw [hp.pml]
    simp [pmlEntry, hv.pml4e64Index_eq_zero]
  have w₀ : WalkedKept m m₀ := by
    rw [hp.start, hpml]
    exact clearAccessed_spec hK hU hT _
  obtain ⟨w₁, d₁⟩ := walkLevel_walkedKept [] (pmlEntry v) hK w₀.walked.unshared w₀.walked.serves
    (hpath [pmlEntry v] ⟨[pdpEntry v, pdEntry v, ptEntry v], rfl⟩) (by simp) descend_nil
    (by rw [w₀.walked.cr3, hpml]) hp.pdpTable
  obtain ⟨w₂, d₂⟩ := walkLevel_walkedKept [pmlEntry v] (pdpEntry v) hK w₁.walked.unshared w₁.walked.serves
    (hpath [pmlEntry v, pdpEntry v] ⟨[pdEntry v, ptEntry v], rfl⟩) (by simp) d₁ hp.pdp hp.pdTable
  have w₂' : WalkedKept m₂ (m₂.clearAccessed pmlDest) := by
    have hroot : m₂.cr3 = m.cr3 := w₂.walked.cr3.trans (w₁.walked.cr3.trans w₀.walked.cr3)
    rw [hpml, ← hroot]
    exact clearAccessed_spec hK w₂.walked.unshared w₂.walked.serves _
  obtain ⟨w₃, d₃⟩ := walkLevel_walkedKept [pmlEntry v, pdpEntry v] (pdEntry v) hK w₂'.walked.unshared
    w₂'.walked.serves (hpath (tablePath v) ⟨[ptEntry v], rfl⟩) (by simp) (w₂'.walked.keeps _ _ (by simp) d₂)
    (by rw [hp.pde, clearAccessed_base]; rfl) hp.ptTable
  have w := ((w₀.trans w₁).trans w₂).trans (w₂'.trans w₃)
  -- the entry of the page is created by the same lines
  obtain ⟨f, hf, -⟩ := hK m₃
  obtain ⟨m₄, log, hlast, rfl⟩ : ∃ m₄ log, walkLevel K true m₃ pteDest = .down m₄ ∧ m' = { m₄ with log := log } := by
    rw [hp.handle_eq hcode hfind] at h
    split_ifs at h with hpres
    · exact ⟨m₃, _, if_pos hpres, (congrArg Prod.snd (Option.some.inj h)).symm⟩
    · exact ⟨_, _, walkLevel_of_page (by simpa using hpres) hf, (congrArg Prod.snd (Option.some.inj h)).symm⟩
  rw [show pteDest = (m₃.mem pdeDest).base * 512 + (ptEntry v : ℕ) from hp.pte] at hlast
  obtain ⟨hkept, hfoot⟩ := walkLevel_kept (tablePath v) (ptEntry v) hK w₃.walked.unshared w₃.walked.serves
    (hpath (tablePath v) ⟨[ptEntry v], rfl⟩) (by simp [tablePath]) d₃ hlast
  refine ⟨w.kept.trans hkept fun v g _ hg => by rw [w.walked.translate_eq, hg], ?_⟩
  exact (w.footprint.trans hfoot).of_log log

end Fault

/-! ### A store -/

section Store

variable {m : Machine} {v f : ℕ}

/-- **A store** of the process to one of its pages leaves the tables as they are. -/
theorem store_descend (hU : TablesUnshared m) (hv : InRegion v) (hf : translate m v = some f) (k : Fin 512) (e : Entry)
    {js : List (Fin 512)} (hjs : js.length ≤ 4) :
    descend (child (m.write (f * 512 + k) e)) m.cr3 js = descend (child m) m.cr3 js := by
  refine descend_congr fun is i u hp hu => ?_
  have hlen : is.length ≤ 3 := by
    have := hp.length_le
    rw [List.length_append, List.length_singleton] at this
    omega
  have hne : u ≠ f := by
    rintro rfl
    exact hU.page_ne_table is hlen hu hv hf
  rw [child_write, if_neg fun h => hne h.1]

theorem store_translate (hU : TablesUnshared m) (hv : InRegion v) (hf : translate m v = some f) (k : Fin 512)
    (e : Entry) (w : ℕ) : translate (m.write (f * 512 + k) e) w = translate m w := by
  unfold translate
  split_ifs with hw
  · exact store_descend hU hv hf k e (length_pagePath w).le
  · rfl

theorem store_unshared (hU : TablesUnshared m) (hv : InRegion v) (hf : translate m v = some f) (k : Fin 512)
    (e : Entry) : TablesUnshared (m.write (f * 512 + k) e) := by
  intro is js t his hjs h₁ h₂
  have h₁' := (store_descend hU hv hf k e his.length_le).symm.trans h₁
  have h₂' := (store_descend hU hv hf k e (length_le_of_watched hjs)).symm.trans h₂
  exact hU is js t his hjs h₁' h₂'

theorem store_tracked (hU : TablesUnshared m) (hT : Tracked m) (hv : InRegion v) (hf : translate m v = some f)
    (k : Fin 512) (e : Entry) : Tracked (m.write (f * 512 + k) e) := by
  rintro g ⟨js, hjs, hg⟩
  exact hT g ⟨js, hjs, (store_descend hU hv hf k e (length_le_of_watched hjs)).symm.trans hg⟩

theorem store_footprint (hU : TablesUnshared m) (hv : InRegion v) (hf : translate m v = some f) (k : Fin 512)
    (e : Entry) : Footprint m (m.write (f * 512 + k) e) := by
  have hown : Owned m f := by
    rw [translate_of_canonical hv.canonical] at hf
    exact ⟨pagePath v, hv.regionPath (List.prefix_refl _), hf⟩
  exact .of_paths hown rfl (fun _ _ hg i => mem_write_of_ne hg k i e) (fun _ hg _ => hg)
    fun js g hjs _ hd => (store_descend hU hv hf k e hjs).symm.trans hd

end Store

/-! ### A free -/

section Free

variable {m m' : Machine} {s numPages k t : ℕ} {w w' : FreeWalk}

theorem mem_freeUserPage {g : ℕ} (hg : g ≠ t) (i j : Fin 512) :
    (freeUserPage m (t * 512 + i)).mem (g * 512 + j) = m.mem (g * 512 + j) := by
  unfold freeUserPage
  split_ifs with hpres
  · show (m.clearPresent (t * 512 + i)).mem (g * 512 + j) = _
    rw [Machine.clearPresent, mem_write_of_ne hg]
  · rfl

/-- One iteration in a page table looks at one entry. -/
theorem AtPage.body_eq (h : AtPage m s numPages k w) (hlt : pte64Index s + k < 512) (hk : k ≤ numPages)
    (ht : descend (child m) m.cr3 (tablePath s) = some t)
    (hb : w.body (m.cr3 * 512 + (pmlEntry s : ℕ)) = some w') :
    w'.m = freeUserPage w.m (t * 512 + (⟨pte64Index s + k, hlt⟩ : Fin 512)) := by
  obtain ⟨hpdpIndex, hpdIndex, hptIndex⟩ := h.next hk
  have ht' : descend (child w.m) w.m.cr3 (tablePath s) = some t := by
    rw [h.cleared.tables _ (by simp [tablePath]), ht]
  obtain ⟨pdp, pd, h₁, h₂, h₃⟩ := tables_of_descend ht'
  have hlook := FreeWalk.look_of_tables h₁ hpdpIndex h₂ hpdIndex h₃
  rw [h.cleared.cr3] at hlook
  set u := w.look (m.cr3 * 512 + (pmlEntry s : ℕ)) with hu
  have hmem : u.m = freeUserPage w.m (t * 512 + (pte64Index s + k)) := by rw [hlook, ← hptIndex]
  have hpt : u.ptIndex = w.ptIndex + 1 := by rw [hlook]
  have hpd : u.pdIndex = w.pdIndex := by rw [hlook]; rfl
  have hpdp : u.pdpIndex = w.pdpIndex := by rw [hlook]; rfl
  obtain ⟨cm, cpt, -, cpd, cpdp, -⟩ := u.cascade_spec
  rw [hpd] at cpd
  rw [hpdp] at cpdp
  have hbody := FreeWalk.body_of (congrArg FreeWalk.cascade hu.symm) (releaseTable_of_near (.inl (by rw [cpt, hpt])))
    (releaseTable_of_near cpd) (releaseTable_of_near cpdp)
  obtain rfl := Option.some.inj (hbody.symm.trans hb)
  exact cm.trans hmem

/-- Unlinking a page of the process. -/
theorem Unlinked.footprint {is : List (Fin 512)} {f : ℕ} {i : Fin 512} (h : Unlinked m m' t i f) (hU : TablesUnshared m)
    (hp : RegionPath (is ++ [i])) (hlen : is.length ≤ 3) (ht : descend (child m) m.cr3 is = some t)
    (hmem : ∀ g ≠ t, ∀ k : Fin 512, m'.mem (g * 512 + k) = m.mem (g * 512 + k)) : Footprint m m' := by
  have his : RegionPath is := hp.above (List.prefix_append ..)
  have hf : Owned m f := ⟨is ++ [i], hp, by rw [descend_concat, ht]; exact h.entry⟩
  refine .of_paths ⟨is, his, ht⟩ h.cr3 (fun g _ hg => hmem g hg) (fun g hg hno => ?_) fun js g hjs _ hd => ?_
  · rw [h.allocated, List.mem_filter]
    refine ⟨hg, ?_⟩
    simp only [ne_eq, Option.some.injEq, decide_eq_true_eq]
    rintro rfl
    exact hno hf
  · rcases h.paths hU his hlen ht js hjs with ⟨-, hn⟩ | ⟨-, hs⟩
    · rw [hn] at hd
      cases hd
    · exact hs.symm.trans hd

/-- The loop in a page table writes in that table only. -/
theorem freePages_local (hs : InRegion s) (hfit : pte64Index s + numPages < 512)
    (ht : descend (child m) m.cr3 (tablePath s) = some t) (h : AtPage m s numPages k w) {fuel : ℕ}
    (hrun : freePages numPages (m.cr3 * 512 + (pmlEntry s : ℕ)) fuel w = .ok m') :
    (∀ g ≠ t, ∀ i : Fin 512, m'.mem (g * 512 + i) = w.m.mem (g * 512 + i)) ∧ Footprint w.m m' := by
  induction fuel generalizing k w with
  | zero =>
    rw [freePages] at hrun
    split_ifs at hrun
    rw [Outcome.ok.inj hrun]
    exact ⟨fun _ _ _ => rfl, .refl m'⟩
  | succ fuel ih =>
    rw [freePages] at hrun
    split_ifs at hrun with hc
    · have hk : k ≤ numPages := by rwa [h.covered] at hc
      have hlt : pte64Index s + k < 512 := by omega
      obtain ⟨w', hb, h'⟩ := h.body hs hfit hk ht
      have hw' := h.body_eq hlt hk ht hb
      rw [hb] at hrun
      obtain ⟨hmem, hfoot⟩ := ih h' hrun
      rw [hw'] at hmem hfoot
      refine ⟨fun g hg i => (hmem g hg i).trans (mem_freeUserPage hg ⟨_, hlt⟩ i), .trans ?_ hfoot⟩
      have hp : RegionPath (tablePath s ++ [⟨pte64Index s + k, hlt⟩]) := by
        rw [← pagePath_offset hlt]
        exact (inRegion_of_offset hs hlt).regionPath (List.prefix_refl _)
      have ht' : descend (child w.m) w.m.cr3 (tablePath s) = some t := by
        rw [h.cleared.tables _ (by simp [tablePath]), ht]
      cases hentry : child w.m t ⟨pte64Index s + k, hlt⟩ with
      | none =>
        rw [freeUserPage_of_none hentry]
        exact .refl w.m
      | some f =>
        exact (freeUserPage_unlinked hentry).1.footprint h.cleared.unshared hp (by simp [tablePath]) ht'
          fun g hg i => mem_freeUserPage hg ⟨_, hlt⟩ i
    · rw [Outcome.ok.inj hrun]
      exact ⟨fun _ _ _ => rfl, .refl m'⟩

/-- A walk that the first table decides leaves what is in the pages of the region as it is. -/
theorem freePages_kept (hU : TablesUnshared m) (hT : Tracked m) (hstart : petmemRegionStart ≤ s)
    (hend : s + 4096 * numPages ≤ petmemRegionEnd) (halign : 4096 ∣ s) (h : FirstTable m s numPages) {fuel : ℕ}
    (hrun : freePages numPages (m.cr3 * 512 + pml4e64Index s * 8) fuel (.start m s) = .ok m') :
    PagesKept m m' ∧ Footprint m m' := by
  obtain ⟨fuel', m'', hm'', hw⟩ := freePages_firstWalk hU hT hstart hend halign h
  obtain rfl : m' = m'' := Outcome.ok.inj ((freePages_mono hrun (Nat.le_max_left fuel fuel')).symm.trans
    (freePages_mono hm'' (Nat.le_max_right fuel fuel')))
  cases hw with
  | idle hidle _ _ =>
    refine ⟨fun v g _ _ i => by rw [hidle.mem], .of_paths (owned_cr3 m) hidle.cr3 (fun g _ _ i => by rw [hidle.mem])
      (fun g hg _ => hidle.allocated ▸ hg) fun js g _ _ hd => ?_⟩
    rwa [hidle.child_eq, hidle.cr3] at hd
  | @drop m₁ pdp pd hidle hs hpdp hpd hpt hscan hnone =>
    have hd : descend (child m) m.cr3 [pmlEntry s] = some pdp := by
      rw [descend_cons, hpdp]
      rfl
    have hmem : ∀ g ≠ pdp, ∀ i : Fin 512,
        (m₁.clearPresent (pdp * 512 + (pdpEntry s : ℕ))).mem (g * 512 + i) = m.mem (g * 512 + i) := by
      intro g hg i
      rw [Machine.clearPresent, mem_write_of_ne hg, hidle.mem]
    exact ⟨.of_table (fun _ => hU.page_ne_table [pmlEntry s] (by simp) hd) hmem,
      (hidle.unlinked hpd).footprint hU (hs.regionPath ⟨[pdEntry s, ptEntry s], rfl⟩) (by simp) hd hmem⟩
  | @clear m' t hs hfit ht hc =>
    have hcur : m.cr3 * 512 + pml4e64Index s * 8 = m.cr3 * 512 + (pmlEntry s : ℕ) := by
      simp [pmlEntry, hs.pml4e64Index_eq_zero]
    rw [hcur] at hrun
    have h₀ : AtPage m s numPages 0 (.start m s) := ⟨rfl, Cleared.refl hU hT _ _, fun _ => ⟨rfl, rfl, rfl⟩⟩
    obtain ⟨hmem, hfoot⟩ := freePages_local hs hfit ht h₀ hrun
    exact ⟨.of_table (fun _ => hU.page_ne_table (tablePath s) (by simp [tablePath]) ht) hmem, hfoot⟩

/-- **A free** that the first table decides leaves what is in the pages of the region as it is, and
all that is not the process's own. -/
theorem FreeVspace.kept {st st' : Process} {vaddr : ℕ} (hI : VmInv st)
    (hfirst : FreeMeets FirstTable st (.free vaddr)) (h : FreeVspace st vaddr st') :
    PagesKept st.m st'.m ∧ Footprint st.m st'.m := by
  obtain ⟨fuel, h⟩ := h
  unfold petmemFreeVspace at h
  cases hp : freeLoop vaddr st.map.nodes with
  | none =>
    rw [hp] at h
    rw [Outcome.ok.inj h]
    exact ⟨.refl _, .refl _⟩
  | some p =>
    simp only [hp] at h
    have hmem : p.cursor ∈ st.map.nodes := by
      rw [(freeLoop_shape hp).1]
      simp
    have hb := hI.map.tiles.mem_bounds hmem
    split at h
    · rename_i m' hm'
      rw [← Outcome.ok.inj h]
      exact freePages_kept hI.unshared hI.tracked hb.1 (by rw [hI.map.size_eq hmem]; exact hb.2)
        (hI.map.aligned hmem) (hfirst p hp) hm'
    · cases h
    · cases h

end Free

end PetLab.VMproject
