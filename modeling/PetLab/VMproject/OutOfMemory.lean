import PetLab.VMproject.DemandPaging

/-!
# When there is no page left

A fault asks `get_zeroed_page` for up to four pages: three tables and the user page. None
of the four calls is checked. When one for a table returns `0`, the walk goes on at the address
`0` and oopses, so that `petmem_handle_pagefault` does not return. When the one for the user
page does, its entry is marked present, writable and accessible to the user all the same, with
`PAGE_TO_BASE_ADDR(__pa(0))` for its frame, and `petmem_handle_pagefault` returns `0`.

So a failure is never contained (`oom_contained_iff`): the caller is not told, and if the
tables were in order before and the handler returns, the entry of the page points to no page of
the allocator.
-/

namespace PetLab.VMproject

open PetLab.Lib

/-- One of the calls for the three tables returns `0`. -/
def TableFails (K : Kernel) (m : Machine) (faultAddr : ℕ) : Prop :=
  ∃ site ∈ (faultSites K m faultAddr).take 3, GetFails K site

/-- The call for the user page returns `0`. -/
def PageFails (K : Kernel) (m : Machine) (faultAddr : ℕ) : Prop :=
  ∃ site ∈ (faultSites K m faultAddr).drop 3, GetFails K site

instance (K : Kernel) (m : Machine) (faultAddr : ℕ) : Decidable (PageFails K m faultAddr) :=
  inferInstanceAs (Decidable (∃ site ∈ (faultSites K m faultAddr).drop 3, GetFails K site))

/-- One of the calls of `get_zeroed_page` in a fault on a live address returns `0`. -/
def FaultFails (K : Kernel) (m : Machine) (faultAddr errorCode : ℕ) : Prop :=
  errorCode ≠ 2 ∧ ∃ site ∈ faultSites K m faultAddr, GetFails K site

/-- Every entry of the region points to a page the allocator has handed out. -/
def EntriesAllocated (m : Machine) : Prop :=
  ∀ js f, RegionPath js → js ≠ [] → descend (child m) m.cr3 js = some f → f ∈ m.allocated

/-- The failure is contained: the caller is told, and the tables stay in order. -/
def OomContained (K : Kernel) (map : MapHead) (m : Machine) (faultAddr errorCode : ℕ) : Prop :=
  FaultFails K m faultAddr errorCode →
    ∃ r m', petmemHandlePagefault K map m faultAddr errorCode = some (r, m') ∧ r ≠ 0 ∧ EntriesAllocated m'

/-- What is relied on of the page allocator: it hands out no page twice, and the address
`0` is no page of it. -/
structure Kernel.Sound (K : Kernel) : Prop where
  /-- A page handed out is not handed out again. -/
  fresh : ∀ m f, K.getZeroedPage m = some f → f ∉ m.allocated
  /-- The frame behind the address `0` is not handed out. -/
  null : ∀ m, K.getZeroedPage m ≠ some K.nullBase

/-! ### Which call fails -/

section

variable {K : Kernel} {m m₀ m₁ m₂ m₃ : Machine} {faultAddr pmlDest pdpDest pdeDest pteDest : ℕ}

theorem faultFails_iff {errorCode : ℕ} : FaultFails K m faultAddr errorCode ↔
    errorCode ≠ 2 ∧ (TableFails K m faultAddr ∨ PageFails K m faultAddr) := by
  unfold FaultFails TableFails PageFails
  conv_lhs => rw [← List.take_append_drop 3 (faultSites K m faultAddr)]
  simp only [List.mem_append, or_and_right, exists_or]

/-- **The walk oopses** when a call for a table fails, and only then. -/
theorem walkPageTable_eq_none_iff : walkPageTable K m faultAddr true = none ↔ TableFails K m faultAddr := by
  unfold TableFails
  rcases faultPath_or_oops K m faultAddr with ⟨m₀, m₁, m₂, m₃, pmlDest, pdpDest, pdeDest, pteDest, hp⟩ |
    ⟨hnone, hlen, hfails⟩
  · rw [hp.walk_eq, hp.faultSites_eq]
    refine iff_of_false (by simp) ?_
    rintro ⟨site, hsite, hfails⟩
    simp only [List.take_succ_cons, List.take_zero, List.mem_cons, List.not_mem_nil, or_false] at hsite
    rcases hsite with rfl | rfl | rfl
    · exact not_getFails_of_down hp.pdpTable hfails
    · exact not_getFails_of_down hp.pdTable hfails
    · exact not_getFails_of_down hp.ptTable hfails
  · rw [List.take_of_length_le hlen]
    exact iff_of_true hnone hfails

/-- The call for the user page fails at the end of a walk that returns. -/
theorem PageFails.path (h : PageFails K m faultAddr) : ∃ m₀ m₁ m₂ m₃ pmlDest pdpDest pdeDest pteDest,
    FaultPath K m faultAddr m₀ m₁ m₂ m₃ pmlDest pdpDest pdeDest pteDest ∧ GetFails K (m₃, pteDest) := by
  obtain ⟨site, hsite, hfails⟩ := h
  rcases faultPath_or_oops K m faultAddr with ⟨m₀, m₁, m₂, m₃, pmlDest, pdpDest, pdeDest, pteDest, hp⟩ | ⟨-, hlen, -⟩
  · rw [hp.faultSites_eq] at hsite
    simp only [List.drop_succ_cons, List.drop_zero, List.mem_cons, List.not_mem_nil, or_false] at hsite
    exact ⟨m₀, m₁, m₂, m₃, pmlDest, pdpDest, pdeDest, pteDest, hp, hsite ▸ hfails⟩
  · rw [List.drop_eq_nil_of_le hlen] at hsite
    cases hsite

end

/-! ### The entry that is left -/

section

variable {K : Kernel} {m m' : Machine} {faultAddr : ℕ}

/-- A sound allocator hands out no page in use while it knows of all of them, and the frame
behind the address `0` never becomes one. -/
theorem Kernel.Sound.keeps (hK : K.Sound) : K.Keeps fun m => Tracked m ∧ K.nullBase ∉ m.allocated where
  fresh m f hJ hf hu := hK.fresh m f hf (hJ.1 f hu)
  view m m' hc h₃ ha hJ := ⟨tracked_view hc h₃ ha hJ.1, ha ▸ hJ.2⟩
  link m m' is t i f hget hU his hlen ht hl hJ := by
    refine ⟨hl.tracked hU his hlen ht hJ.1, ?_⟩
    have hne : K.nullBase ≠ f := fun he => hK.null m (he ▸ hget)
    rw [hl.allocated]
    exact List.not_mem_cons_of_ne_of_not_mem hne hJ.2

/-- What is written when `get_zeroed_page` has returned `0`. -/
theorem install_null (hnone : K.getZeroedPage m = none) (dest : ℕ) :
    (m.install K dest).2 = m.write dest
      { m.mem dest with present := true, writable := true, userPage := true, base := K.nullBase } := by
  simp only [Machine.install, getZeroedPage, hnone, Kernel.baseAddr]

/-- The path of the page then leads to the frame behind the address `0`. -/
theorem descend_install_null (hU : TablesUnshared m) {is : List (Fin 512)} {t : ℕ} (his : RegionPath is)
    (hlen : is.length ≤ 3) (ht : descend (child m) m.cr3 is = some t) (hnone : K.getZeroedPage m = none) (i : Fin 512) :
    descend (child (m.install K (t * 512 + i)).2) (m.install K (t * 512 + i)).2.cr3 (is ++ [i]) =
      some K.nullBase := by
  have hchild : ∀ g k, child (m.install K (t * 512 + i)).2 g k =
      if g = t ∧ k = i then some K.nullBase else child m g k := by
    intro g k
    rw [install_null hnone, child_write]
    rfl
  -- the tables on the way stay, and the last entry is the one written
  have hwrite : WriteAt (child m) (child (m.install K (t * 512 + i)).2) m.cr3 3 t i := by
    intro js u k _ _ hne
    rw [hchild, if_neg fun he => hne he.1 he.2]
  have hcr3 : (m.install K (t * 512 + i)).2.cr3 = m.cr3 := by
    rw [install_null hnone]
    rfl
  rw [hcr3, hU.descend_through his ht hwrite hlen, hchild, if_pos ⟨rfl, rfl⟩]
  rfl

/-- **No page for the user**: the handler returns `0`, and the entry of the page points to the
frame behind the address `0`. -/
theorem PageFails.bogus {map : MapHead} {errorCode : ℕ} (h : PageFails K m faultAddr) (hcode : errorCode ≠ 2)
    (hfind : petmemFindAddress map faultAddr ≠ none) :
    ∃ m', petmemHandlePagefault K map m faultAddr errorCode = some (0, m') ∧
      (K.Sound → K.nullBase ∉ m.allocated → MapInv map → TablesUnshared m → Tracked m → ¬ EntriesAllocated m') := by
  obtain ⟨m₀, m₁, m₂, m₃, pmlDest, pdpDest, pdeDest, pteDest, hp, habsent, hnone⟩ := h.path
  refine ⟨_, by rw [hp.handle_eq hcode hfind, if_neg (by simpa using habsent)], fun hK hnull hI hU hT hall => ?_⟩
  have hv := hI.inRegion_of_find hfind
  obtain ⟨m₃', t, hwalk, hw, ht⟩ := (walkPageTable_hard hK.keeps hU ⟨hT, hnull⟩ hv).resolve_right
    fun hno => by simp [hp.walk_eq] at hno
  obtain ⟨rfl, rfl⟩ : m₃ = m₃' ∧ pteDest = t * 512 + (ptEntry faultAddr : ℕ) := by
    simpa [hp.walk_eq] using hwalk
  have hreg : RegionPath (tablePath faultAddr) := hv.regionPath ⟨[ptEntry faultAddr], rfl⟩
  have hentry : K.nullBase ∈ (m₃.install K (t * 512 + ptEntry faultAddr)).2.allocated :=
    hall (pagePath faultAddr) _ (hv.regionPath (List.prefix_refl _)) (by simp [pagePath])
      (descend_install_null hw.unshared hreg (by simp [tablePath]) ht hnone (ptEntry faultAddr))
  rw [install_null hnone] at hentry
  exact hw.serves.2 hentry

end

/-- **Running out of memory is never contained.** For every fault on a live address, the
claim that a failed `get_zeroed_page` is reported, with the tables in order, holds only
when no call fails. When one for a table does, the handler oopses. When the one for the user
page does, it returns `0`; and in tables that were in order, with an allocator that hands out no
page twice, an entry is left that points to no page of the allocator. -/
theorem oom_contained_iff (K : Kernel) (map : MapHead) (m : Machine) (faultAddr errorCode : ℕ)
    (hfind : petmemFindAddress map faultAddr ≠ none) :
    (OomContained K map m faultAddr errorCode ↔ ¬ FaultFails K m faultAddr errorCode) ∧
      (errorCode ≠ 2 → TableFails K m faultAddr → petmemHandlePagefault K map m faultAddr errorCode = none) ∧
      (errorCode ≠ 2 → PageFails K m faultAddr →
        ∃ m', petmemHandlePagefault K map m faultAddr errorCode = some (0, m') ∧
          (K.Sound → K.nullBase ∉ m.allocated → MapInv map → TablesUnshared m → Tracked m →
            ¬ EntriesAllocated m')) := by
  have htable : errorCode ≠ 2 → TableFails K m faultAddr → petmemHandlePagefault K map m faultAddr errorCode = none :=
    fun hcode h => petmemHandlePagefault_oops hcode hfind (walkPageTable_eq_none_iff.mpr h)
  refine ⟨⟨fun h hfails => ?_, fun h hfails => absurd hfails h⟩, htable, fun hcode h => h.bogus hcode hfind⟩
  obtain ⟨r, m', hret, hr, -⟩ := h hfails
  obtain ⟨hcode, hfails | hfails⟩ := faultFails_iff.mp hfails
  · rw [htable hcode hfails] at hret
    cases hret
  · obtain ⟨m'', hzero, -⟩ := hfails.bogus hcode hfind
    rw [hzero] at hret
    exact hr (congrArg Prod.fst (Option.some.inj hret)).symm

/-- A page allocator that has handed out all it has when `n` pages are in use. -/
def Kernel.limited (n : ℕ) : Kernel :=
  ⟨fun m => if m.allocated.length < n then Kernel.bump.getZeroedPage m else none, 0⟩

theorem Kernel.sound_limited (n : ℕ) : (Kernel.limited n).Sound where
  fresh m f hf := by
    obtain ⟨g, hg, hno⟩ := Kernel.bump_fresh m
    have hget : (if m.allocated.length < n then some g else none) = some f := hg ▸ hf
    split_ifs at hget
    rwa [← Option.some.inj hget]
  null m hf := by
    have hget : (if m.allocated.length < n then some (m.allocated.foldr max 0 + 1) else none) = some 0 := hf
    split_ifs at hget
    exact absurd (Option.some.inj hget) (Nat.succ_ne_zero _)

/-- One page is allocated in a new process, and there are pages for the tables only: its first
touch returns `0`, and leaves an entry to no page. -/
theorem oom_contained_first_touch : PageFails (.limited 4) .blank 0x1000000000 ∧
    ∃ m', petmemHandlePagefault (.limited 4) (mapRun ⟨0, 0, 0, 0, 0⟩ [.alloc 1]) .blank 0x1000000000 1 =
      some (0, m') ∧ ¬ EntriesAllocated m' := by
  have hpage : PageFails (.limited 4) .blank 0x1000000000 := by decide +kernel
  have hT : Tracked .blank := by
    rintro f ⟨js, -, hf⟩
    obtain rfl := eq_nil_of_descend_blank hf
    obtain rfl := Option.some.inj hf
    decide
  obtain ⟨-, -, hbogus⟩ := oom_contained_iff (.limited 4) (mapRun ⟨0, 0, 0, 0, 0⟩ [.alloc 1]) .blank 0x1000000000 1
    (by decide)
  obtain ⟨m', hret, hleft⟩ := hbogus (by decide) hpage
  exact ⟨hpage, m', hret, hleft (Kernel.sound_limited 4) (by decide) (mapInv_mapRun _ _) tablesUnshared_blank hT⟩

/-- The first touch of a page that was allocated, when there are pages for the tables only: the
handler reports success. -/
theorem oom_first_touch :
    petmemFindAddress (mapRun ⟨0, 0, 0, 0, 0⟩ [.alloc 1]) 0x1000000000 ≠ none ∧
      ¬ OomContained (.limited 4) (mapRun ⟨0, 0, 0, 0, 0⟩ [.alloc 1]) .blank 0x1000000000 1 := by
  refine ⟨by decide, fun h => ?_⟩
  have hpage : PageFails (.limited 4) .blank 0x1000000000 := by decide +kernel
  obtain ⟨r, m', hret, hr, -⟩ := h (faultFails_iff.mpr ⟨by decide, .inr hpage⟩)
  have hzero : (petmemHandlePagefault (.limited 4) (mapRun ⟨0, 0, 0, 0, 0⟩ [.alloc 1]) .blank 0x1000000000 1).map
    Prod.fst = some 0 := by decide +kernel
  rw [hret] at hzero
  exact hr (Option.some.inj hzero)

end PetLab.VMproject
