import PetLab.VMproject.PgTables
import PetLab.VMproject.MemMapInv

/-!
# Demand paging

`walk_page_table` and `petmem_handle_pagefault` (`on_demand.c`), and what they do to
the page tables.

A table that is missing on the way to an address is a page from `get_zeroed_page`
linked into the entry above, and so is the user page at the end: the source repeats
these lines at every level, and here they are `Machine.install`. Linking an empty
table changes no translation (`Walked`), and linking the user page changes the one of
its page (`Serviced`).

None of the pages is checked. The walk dereferences each table it has linked, so that it
ends in an oops at one it could not get; there is no result then, and no state to go on
with. The user page is not dereferenced.
-/

namespace PetLab.VMproject

open PetLab.Lib

/-- The kernel's side of `get_zeroed_page`. -/
structure Kernel where
  /-- The frame `get_zeroed_page` chooses, `none` when it returns `0`. -/
  getZeroedPage : Machine → Option ℕ
  /-- `PAGE_TO_BASE_ADDR(__pa(0))`, what the base address field gets when it does: `__va` of
  it is the address `0` again, where there is no memory. -/
  nullBase : ℕ

/-- `PAGE_TO_BASE_ADDR(__pa(page))`. -/
def Kernel.baseAddr (K : Kernel) : Option ℕ → ℕ
  | some f => f
  | none => K.nullBase

/-- `get_zeroed_page`: the page, and memory with that page cleared. -/
def getZeroedPage (K : Kernel) (m : Machine) : Option ℕ × Machine :=
  match K.getZeroedPage m with
  | none => (none, m)
  | some f => (some f, { m.zeroFrame f with allocated := f :: m.allocated })

/-- The lines that create an entry at `dest`: a zeroed page, then `present`,
`writable`, `user_page` and the base address. -/
def Machine.install (K : Kernel) (m : Machine) (dest : ℕ) : Option ℕ × Machine :=
  let (page, m) := VMproject.getZeroedPage K m
  (page, m.write dest { m.mem dest with present := true, writable := true, userPage := true,
                                        base := K.baseAddr page })

/-- What one level of the walk comes to. -/
inductive LevelResult where
  /-- The entry is not there, and the walk is not hard: `return NULL`. -/
  | stop
  /-- The table linked is at the address `0`, and is read next: an oops. -/
  | oops
  /-- The entry is there, or has been created. -/
  | down (m : Machine)

/-- One level of the walk: the entry at `dest` is there, or is created if `hard`. -/
def walkLevel (K : Kernel) (hard : Bool) (m : Machine) (dest : ℕ) : LevelResult :=
  if (m.mem dest).present then .down m
  else if hard then
    match m.install K dest with
    | (some _, m) => .down m
    | (none, _) => .oops
  else .stop

/-- `walk_page_table`: memory, and the address of the entry of the last level or
`NULL`; nothing when it oopses. The index into the top table is scaled twice, once by `sizeof`
and once by the pointer type; the other three levels start from a `void *`. -/
def walkPageTable (K : Kernel) (m : Machine) (faultAddr : ℕ) (hard : Bool) : Option (Machine × Option ℕ) :=
  let pmlDest := m.cr3 * 512 + pml4e64Index faultAddr * 8
  let m := m.clearAccessed pmlDest
  match walkLevel K hard m pmlDest with
  | .stop => some (m, none)
  | .oops => none
  | .down m =>
    let pdpDest := (m.mem pmlDest).base * 512 + pdpe64Index faultAddr
    match walkLevel K hard m pdpDest with
    | .stop => some (m, none)
    | .oops => none
    | .down m =>
      let m := m.clearAccessed pmlDest
      let pdeDest := (m.mem pdpDest).base * 512 + pde64Index faultAddr
      match walkLevel K hard m pdeDest with
      | .stop => some (m, none)
      | .oops => none
      | .down m =>
        let pteDest := (m.mem pdeDest).base * 512 + pte64Index faultAddr
        if (m.mem pteDest).present = false ∧ hard = false then some (m, none) else some (m, some pteDest)

/-- `petmem_handle_pagefault`: what it returns, and memory; nothing when it oopses. -/
def petmemHandlePagefault (K : Kernel) (map : MapHead) (m : Machine) (faultAddr errorCode : ℕ) :
    Option (ℤ × Machine) :=
  if errorCode = 2 then some (-1, m)
  else if petmemFindAddress map faultAddr = none then some (-1, m)
  else
    match walkPageTable K m faultAddr true with
    | none => none
    | some (_, none) => none -- `NULL` would be dereferenced, but a hard walk does not return it
    | some (m, some pteDest) =>
      if (m.mem pteDest).present then some (0, m.note .flushTlb)
      else
        let (page, m) := m.install K pteDest
        some (0, (m.note (.invlpg page)).note .flushTlb)

/-! ### The entries a fault goes through -/

/-- The entries a fault makes the code look at, from the top, each with memory at that moment.
They end where there is no table to go on in. -/
def faultSites (K : Kernel) (m : Machine) (faultAddr : ℕ) : List (Machine × ℕ) :=
  let pmlDest := m.cr3 * 512 + pml4e64Index faultAddr * 8
  let m := m.clearAccessed pmlDest
  (m, pmlDest) ::
    match walkLevel K true m pmlDest with
    | .stop | .oops => []
    | .down m =>
      let pdpDest := (m.mem pmlDest).base * 512 + pdpe64Index faultAddr
      (m, pdpDest) ::
        match walkLevel K true m pdpDest with
        | .stop | .oops => []
        | .down m =>
          let m := m.clearAccessed pmlDest
          let pdeDest := (m.mem pdpDest).base * 512 + pde64Index faultAddr
          (m, pdeDest) ::
            match walkLevel K true m pdeDest with
            | .stop | .oops => []
            | .down m => [(m, (m.mem pdeDest).base * 512 + pte64Index faultAddr)]

/-- `get_zeroed_page` is called for the entry, and returns `0`. -/
def GetFails (K : Kernel) (site : Machine × ℕ) : Prop :=
  (site.1.mem site.2).present = false ∧ K.getZeroedPage site.1 = none

instance (K : Kernel) : DecidablePred (GetFails K) := fun _ => inferInstanceAs (Decidable (_ ∧ _))

/-- A hard walk that returns: the entries it goes through and memory in between, by name. -/
structure FaultPath (K : Kernel) (m : Machine) (faultAddr : ℕ) (m₀ m₁ m₂ m₃ : Machine)
    (pmlDest pdpDest pdeDest pteDest : ℕ) : Prop where
  pml : pmlDest = m.cr3 * 512 + pml4e64Index faultAddr * 8
  start : m₀ = m.clearAccessed pmlDest
  pdpTable : walkLevel K true m₀ pmlDest = .down m₁
  pdp : pdpDest = (m₁.mem pmlDest).base * 512 + pdpe64Index faultAddr
  pdTable : walkLevel K true m₁ pdpDest = .down m₂
  pde : pdeDest = ((m₂.clearAccessed pmlDest).mem pdpDest).base * 512 + pde64Index faultAddr
  ptTable : walkLevel K true (m₂.clearAccessed pmlDest) pdeDest = .down m₃
  pte : pteDest = (m₃.mem pdeDest).base * 512 + pte64Index faultAddr

section

variable {K : Kernel} {m m₀ m₁ m₂ m₃ : Machine} {faultAddr pmlDest pdpDest pdeDest pteDest : ℕ}

/-- The page linked is the one `get_zeroed_page` returns. -/
theorem install_page (K : Kernel) (m : Machine) (dest : ℕ) : (m.install K dest).1 = K.getZeroedPage m := by
  unfold Machine.install getZeroedPage
  cases K.getZeroedPage m <;> rfl

/-- A hard walk goes on in the table it has got. -/
theorem walkLevel_of_page {f : ℕ} {dest : ℕ} (habsent : (m.mem dest).present = false)
    (hpage : K.getZeroedPage m = some f) : walkLevel K true m dest = .down (m.install K dest).2 := by
  have hpair : m.install K dest = (some f, (m.install K dest).2) := Prod.ext ((install_page K m dest).trans hpage) rfl
  rw [walkLevel, habsent, hpair]
  rfl

/-- There is no table to go on in. -/
theorem walkLevel_of_null {dest : ℕ} (habsent : (m.mem dest).present = false) (hnone : K.getZeroedPage m = none) :
    walkLevel K true m dest = .oops := by
  have hpair : m.install K dest = (none, (m.install K dest).2) := Prod.ext ((install_page K m dest).trans hnone) rfl
  rw [walkLevel, habsent, hpair]
  rfl

/-- A table is missing where the call for it fails, and only there. -/
theorem walkLevel_oops_iff {dest : ℕ} : walkLevel K true m dest = .oops ↔ GetFails K (m, dest) := by
  unfold GetFails
  by_cases hpres : (m.mem dest).present = true
  · simp [walkLevel, hpres]
  · have habsent : (m.mem dest).present = false := by simpa using hpres
    cases hget : K.getZeroedPage m with
    | none => simp [walkLevel_of_null habsent hget, habsent]
    | some f => simp [walkLevel_of_page habsent hget]

/-- A level of a hard walk goes on or oopses. -/
theorem walkLevel_hard (K : Kernel) (m : Machine) (dest : ℕ) :
    walkLevel K true m dest = .oops ∨ ∃ m', walkLevel K true m dest = .down m' := by
  unfold walkLevel
  by_cases hpres : (m.mem dest).present = true
  · exact .inr ⟨m, if_pos hpres⟩
  · simp only [if_neg hpres, if_true]
    rcases m.install K dest with ⟨_ | f, m'⟩
    · exact .inl rfl
    · exact .inr ⟨m', rfl⟩

/-- What a level of a hard walk that goes on has done. -/
theorem walkLevel_down_cases {m' : Machine} {dest : ℕ} (h : walkLevel K true m dest = .down m') :
    m' = m ∨ ((m.mem dest).present = false ∧ m' = (m.install K dest).2) := by
  by_cases hpres : (m.mem dest).present = true
  · simp only [walkLevel, hpres, if_true, LevelResult.down.injEq] at h
    exact .inl h.symm
  · have habsent : (m.mem dest).present = false := by simpa using hpres
    cases hget : K.getZeroedPage m with
    | none =>
      rw [walkLevel_of_null habsent hget] at h
      cases h
    | some f =>
      rw [walkLevel_of_page habsent hget, LevelResult.down.injEq] at h
      exact .inr ⟨habsent, h.symm⟩

theorem not_getFails_of_down {m' : Machine} {dest : ℕ} (h : walkLevel K true m dest = .down m') :
    ¬ GetFails K (m, dest) := by
  rw [← walkLevel_oops_iff, h]
  exact LevelResult.noConfusion

theorem FaultPath.walk_eq (h : FaultPath K m faultAddr m₀ m₁ m₂ m₃ pmlDest pdpDest pdeDest pteDest) :
    walkPageTable K m faultAddr true = some (m₃, some pteDest) := by
  unfold walkPageTable
  simp only [← h.pml, ← h.start, h.pdpTable, ← h.pdp, h.pdTable, ← h.pde, h.ptTable, ← h.pte, Bool.true_eq_false,
    and_false, if_false]

theorem FaultPath.faultSites_eq (h : FaultPath K m faultAddr m₀ m₁ m₂ m₃ pmlDest pdpDest pdeDest pteDest) :
    faultSites K m faultAddr =
      [(m₀, pmlDest), (m₁, pdpDest), (m₂.clearAccessed pmlDest, pdeDest), (m₃, pteDest)] := by
  unfold faultSites
  simp only [← h.pml, ← h.start, h.pdpTable, ← h.pdp, h.pdTable, ← h.pde, h.ptTable, ← h.pte]

/-- A hard walk goes through the four entries, or ends in an oops where a call fails. -/
theorem faultPath_or_oops (K : Kernel) (m : Machine) (faultAddr : ℕ) :
    (∃ m₀ m₁ m₂ m₃ pmlDest pdpDest pdeDest pteDest,
      FaultPath K m faultAddr m₀ m₁ m₂ m₃ pmlDest pdpDest pdeDest pteDest) ∨
    (walkPageTable K m faultAddr true = none ∧ (faultSites K m faultAddr).length ≤ 3 ∧
      ∃ site ∈ faultSites K m faultAddr, GetFails K site) := by
  unfold walkPageTable faultSites
  set pmlDest := m.cr3 * 512 + pml4e64Index faultAddr * 8 with hpml
  rcases walkLevel_hard K (m.clearAccessed pmlDest) pmlDest with e₁ | ⟨m₁, e₁⟩
  · simp only [e₁]
    exact .inr ⟨trivial, by simp, _, List.mem_cons_self, walkLevel_oops_iff.mp e₁⟩
  simp only [e₁]
  set pdpDest := (m₁.mem pmlDest).base * 512 + pdpe64Index faultAddr with hpdp
  rcases walkLevel_hard K m₁ pdpDest with e₂ | ⟨m₂, e₂⟩
  · simp only [e₂]
    exact .inr ⟨trivial, by simp, (m₁, pdpDest), by simp, walkLevel_oops_iff.mp e₂⟩
  simp only [e₂]
  set pdeDest := ((m₂.clearAccessed pmlDest).mem pdpDest).base * 512 + pde64Index faultAddr with hpde
  rcases walkLevel_hard K (m₂.clearAccessed pmlDest) pdeDest with e₃ | ⟨m₃, e₃⟩
  · simp only [e₃]
    exact .inr ⟨trivial, by simp, (m₂.clearAccessed pmlDest, pdeDest), by simp, walkLevel_oops_iff.mp e₃⟩
  exact .inl ⟨_, m₁, m₂, m₃, pmlDest, pdpDest, pdeDest, _, hpml, rfl, e₁, hpdp, e₂, hpde, e₃, rfl⟩

/-- The last entry is there, or is created whatever `get_zeroed_page` returns. -/
theorem FaultPath.handle_eq {map : MapHead} {errorCode : ℕ}
    (h : FaultPath K m faultAddr m₀ m₁ m₂ m₃ pmlDest pdpDest pdeDest pteDest) (hcode : errorCode ≠ 2)
    (hfind : petmemFindAddress map faultAddr ≠ none) :
    petmemHandlePagefault K map m faultAddr errorCode =
      if (m₃.mem pteDest).present then some (0, m₃.note .flushTlb)
      else some (0, ((m₃.install K pteDest).2.note (.invlpg (m₃.install K pteDest).1)).note .flushTlb) := by
  unfold petmemHandlePagefault
  simp only [if_neg hcode, if_neg hfind, h.walk_eq]

/-- The handler oopses when the walk does. -/
theorem petmemHandlePagefault_oops {map : MapHead} {errorCode : ℕ} (hcode : errorCode ≠ 2)
    (hfind : petmemFindAddress map faultAddr ≠ none) (h : walkPageTable K m faultAddr true = none) :
    petmemHandlePagefault K map m faultAddr errorCode = none := by
  unfold petmemHandlePagefault
  simp only [if_neg hcode, if_neg hfind, h]

/-- A call that returns refuses the fault, or goes through the four entries. -/
theorem petmemHandlePagefault_path {map : MapHead} {errorCode : ℕ} {r : ℤ × Machine}
    (h : petmemHandlePagefault K map m faultAddr errorCode = some r) :
    r = (-1, m) ∨ errorCode ≠ 2 ∧ petmemFindAddress map faultAddr ≠ none ∧
      ∃ m₀ m₁ m₂ m₃ pmlDest pdpDest pdeDest pteDest,
        FaultPath K m faultAddr m₀ m₁ m₂ m₃ pmlDest pdpDest pdeDest pteDest := by
  by_cases hcode : errorCode = 2
  · simp only [petmemHandlePagefault, if_pos hcode, Option.some.injEq] at h
    exact .inl h.symm
  by_cases hfind : petmemFindAddress map faultAddr = none
  · simp only [petmemHandlePagefault, if_neg hcode, if_pos hfind, Option.some.injEq] at h
    exact .inl h.symm
  rcases faultPath_or_oops K m faultAddr with hp | ⟨hwalk, -⟩
  · exact .inr ⟨hcode, hfind, hp⟩
  · rw [petmemHandlePagefault_oops hcode hfind hwalk] at h
    cases h

/-- With pages to be had, a call returns. -/
theorem exists_petmemHandlePagefault {map : MapHead} {errorCode : ℕ} (hK : ∀ m, K.getZeroedPage m ≠ none) :
    ∃ r, petmemHandlePagefault K map m faultAddr errorCode = some r := by
  by_cases hcode : errorCode = 2
  · exact ⟨_, if_pos hcode⟩
  by_cases hfind : petmemFindAddress map faultAddr = none
  · exact ⟨_, by rw [petmemHandlePagefault, if_neg hcode, if_pos hfind]⟩
  have hlevel : ∀ m dest, ∃ m', walkLevel K true m dest = .down m' := by
    intro m dest
    by_cases hpres : (m.mem dest).present = true
    · exact ⟨m, if_pos hpres⟩
    · obtain ⟨f, hf⟩ := Option.ne_none_iff_exists'.mp (hK m)
      exact ⟨_, walkLevel_of_page (by simpa using hpres) hf⟩
  obtain ⟨m₁, e₁⟩ := hlevel (m.clearAccessed (m.cr3 * 512 + pml4e64Index faultAddr * 8))
    (m.cr3 * 512 + pml4e64Index faultAddr * 8)
  obtain ⟨m₂, e₂⟩ := hlevel m₁ _
  obtain ⟨m₃, e₃⟩ := hlevel (m₂.clearAccessed _) _
  rw [FaultPath.handle_eq ⟨rfl, rfl, e₁, rfl, e₂, rfl, e₃, rfl⟩ hcode hfind]
  split_ifs
  · exact ⟨_, rfl⟩
  · exact ⟨_, rfl⟩

end

/-! ### Linking a page -/

/-- Memory afterwards: entry `i` of table `t` points to the new page `f`, which has no
entries, and among the tables of the process nothing else has changed. -/
structure Linked (m m' : Machine) (t : ℕ) (i : Fin 512) (f : ℕ) : Prop where
  /-- The top table stays. -/
  cr3 : m'.cr3 = m.cr3
  /-- One entry of the tables is written. -/
  write : WriteAt (child m) (child m') m.cr3 3 t i
  /-- It points to the new page. -/
  entry : child m' t i = some f
  /-- The new page is clear. -/
  zero : ∀ k : Fin 512, m'.mem (f * 512 + k) = Entry.zero
  /-- The page is now the allocator's to keep. -/
  allocated : m'.allocated = f :: m.allocated

theorem Linked.clear {m m' : Machine} {t f : ℕ} {i : Fin 512} (h : Linked m m' t i f) (k : Fin 512) :
    child m' f k = none := child_eq_none_iff.mpr (by rw [h.zero k]; rfl)

theorem install_linked {K : Kernel} {m : Machine} {t f : ℕ} (hget : K.getZeroedPage m = some f)
    (hf : ¬ InUse m f) (is : List (Fin 512)) (hlen : is.length ≤ 3)
    (ht : descend (child m) m.cr3 is = some t) (i : Fin 512) :
    Linked m (m.install K (t * 512 + i)).2 t i f := by
  have htf : f ≠ t := by
    rintro rfl
    exact hf ⟨is, .inl hlen, ht⟩
  have hchild : ∀ g k, child (m.install K (t * 512 + i)).2 g k =
      if g = t ∧ k = i then some f else if g = f then none else child m g k := by
    intro g k
    simp only [Machine.install, getZeroedPage, hget]
    rw [child_write, ← child_zeroFrame]
    rfl
  refine ⟨?_, ?_, ?_, ?_, ?_⟩
  · simp [Machine.install, getZeroedPage, hget, Machine.write, Machine.zeroFrame]
  · intro js u k hjs hu hne
    have huf : u ≠ f := by
      rintro rfl
      exact hf ⟨js, .inl hjs, hu⟩
    rw [hchild, if_neg (fun h => hne h.1 h.2), if_neg huf]
  · rw [hchild, if_pos ⟨rfl, rfl⟩]
  · intro k
    have hne : f * 512 + (k : ℕ) ≠ t * 512 + (i : ℕ) := fun h => htf (slot_inj.mp h).1
    have hdiv : (f * 512 + (k : ℕ)) / 512 = f := by
      have := k.isLt
      omega
    simp [Machine.install, getZeroedPage, hget, Machine.write, Machine.zeroFrame, hne, hdiv]
  · simp [Machine.install, getZeroedPage, hget, Machine.write]

/-- Every frame in use is known to the page allocator as handed out. -/
def Tracked (m : Machine) : Prop := ∀ f, InUse m f → f ∈ m.allocated

theorem Linked.tracked {m m' : Machine} {is : List (Fin 512)} {t f : ℕ} {i : Fin 512} (h : Linked m m' t i f)
    (hU : TablesUnshared m) (his : RegionPath is) (hlen : is.length ≤ 3)
    (ht : descend (child m) m.cr3 is = some t) (hT : Tracked m) : Tracked m' := by
  rintro g ⟨js, hjs, hg⟩
  have hjs' : js.length ≤ 3 + 1 := by
    rcases hjs with h | h
    · omega
    · exact h.length_le
  rw [h.cr3] at hg
  rw [h.allocated]
  rcases hU.descend_of_link his ht h.write hlen h.entry h.clear hjs' hg with ⟨-, rfl⟩ | hg'
  · exact List.mem_cons_self
  · exact List.mem_cons_of_mem _ (hT g ⟨js, hjs, hg'⟩)

/-- In the states `J` speaks of, a page from `get_zeroed_page` is not in use, and paging does
not leave these states. -/
structure Kernel.Keeps (K : Kernel) (J : Machine → Prop) : Prop where
  /-- A page that is not in use. -/
  fresh : ∀ m f, J m → K.getZeroedPage m = some f → ¬ InUse m f
  /-- `J` depends on the tables and on the allocator only. -/
  view : ∀ m m', child m' = child m → m'.cr3 = m.cr3 → m'.allocated = m.allocated → J m → J m'
  /-- Linking a page keeps `J`. -/
  link : ∀ m m' is t i f, K.getZeroedPage m = some f → TablesUnshared m → RegionPath is → is.length ≤ 3 →
    descend (child m) m.cr3 is = some t → Linked m m' t i f → J m → J m'

/-- In these states `get_zeroed_page` succeeds, too. -/
structure Kernel.Serves (K : Kernel) (J : Machine → Prop) : Prop extends K.Keeps J where
  /-- There is a page. -/
  succeeds : ∀ m, J m → K.getZeroedPage m ≠ none

/-- An allocator that never hands out a page in use serves every state. -/
theorem Kernel.serves_of_not_inUse {K : Kernel} (h : ∀ m, ∃ f, K.getZeroedPage m = some f ∧ ¬ InUse m f) :
    K.Serves fun _ => True where
  fresh m f _ hf := by
    obtain ⟨g, hg, hno⟩ := h m
    rwa [← Option.some.inj (hg.symm.trans hf)]
  view _ _ _ _ _ _ := trivial
  link _ _ _ _ _ _ _ _ _ _ _ _ _ := trivial
  succeeds m _ hnone := by
    obtain ⟨g, hg, -⟩ := h m
    rw [hnone] at hg
    cases hg

theorem tracked_view {m m' : Machine} (hc : child m' = child m) (h₃ : m'.cr3 = m.cr3)
    (ha : m'.allocated = m.allocated) (hT : Tracked m) : Tracked m' := by
  rintro f ⟨js, hjs, hf⟩
  rw [hc, h₃] at hf
  rw [ha]
  exact hT f ⟨js, hjs, hf⟩

/-- An allocator that never hands out a page twice serves the states in which it
knows of all pages in use. -/
theorem Kernel.serves_of_not_mem_allocated {K : Kernel}
    (h : ∀ m, ∃ f, K.getZeroedPage m = some f ∧ f ∉ m.allocated) : K.Serves Tracked where
  fresh m f hT hf hu := by
    obtain ⟨g, hg, hno⟩ := h m
    obtain rfl := Option.some.inj (hg.symm.trans hf)
    exact hno (hT g hu)
  view _ _ := tracked_view
  link _ _ _ _ _ _ _ hU his hlen ht hl hT := hl.tracked hU his hlen ht hT
  succeeds m _ hnone := by
    obtain ⟨g, hg, -⟩ := h m
    rw [hnone] at hg
    cases hg

/-! ### The walk -/

section Walk

variable {K : Kernel} {J : Machine → Prop}

/-- What creating tables on the way to an address does: no translation changes. -/
structure Walked (J : Machine → Prop) (m m' : Machine) : Prop where
  /-- The top table stays. -/
  cr3 : m'.cr3 = m.cr3
  /-- The tables of the region are still unshared. -/
  unshared : TablesUnshared m'
  /-- The page allocator goes on serving. -/
  serves : J m'
  /-- Every page is mapped as it was. -/
  same : ∀ js, js.length = 4 → descend (child m') m'.cr3 js = descend (child m) m.cr3 js
  /-- Every table stays where it was. -/
  keeps : ∀ js t, js.length ≤ 3 → descend (child m) m.cr3 js = some t → descend (child m') m'.cr3 js = some t

theorem Walked.trans {m₁ m₂ m₃ : Machine} (h : Walked J m₁ m₂) (h' : Walked J m₂ m₃) : Walked J m₁ m₃ where
  cr3 := h'.cr3.trans h.cr3
  unshared := h'.unshared
  serves := h'.serves
  same js hjs := (h'.same js hjs).trans (h.same js hjs)
  keeps js t hjs ht := h'.keeps js t hjs (h.keeps js t hjs ht)

theorem Walked.of_view {m m' : Machine} (hK : K.Keeps J) (hU : TablesUnshared m) (hJ : J m)
    (hc : child m' = child m) (h₃ : m'.cr3 = m.cr3) (ha : m'.allocated = m.allocated) : Walked J m m' where
  cr3 := h₃
  unshared := by rw [TablesUnshared, hc, h₃]; exact hU
  serves := hK.view m m' hc h₃ ha hJ
  same js _ := by rw [hc, h₃]
  keeps js t _ ht := by rw [hc, h₃]; exact ht

/-- Linking an empty table changes no translation. -/
theorem Linked.walked {m m' : Machine} {is : List (Fin 512)} {t f : ℕ} {i : Fin 512} (hK : K.Keeps J)
    (hget : K.getZeroedPage m = some f) (h : Linked m m' t i f) (hU : TablesUnshared m) (hJ : J m)
    (his : RegionPath is) (hlen : is.length ≤ 2) (ht : descend (child m) m.cr3 is = some t)
    (hnone : child m t i = none) : Walked J m m' := by
  have hf := hK.fresh m f hJ hget
  -- before, the paths through the entry led nowhere
  have hbefore : ∀ js, is ++ [i] <+: js → descend (child m) m.cr3 js = none := by
    intro js hp
    obtain ⟨ks, rfl⟩ := eq_append_cons_of_through hp
    rw [descend_append, ht, Option.bind_some, descend_cons, hnone]
    rfl
  refine ⟨h.cr3, ?_, hK.link m m' is t i f hget hU his (by omega) ht h hJ, ?_, ?_⟩
  · rw [TablesUnshared, h.cr3]
    exact hU.link his ht h.write (by omega) h.entry h.clear (fun _ => RegionPath.length_le) (fresh_of_not_inUse hf)
  · intro js hjs
    rw [h.cr3]
    rcases hU.descend_link his ht h.write (by omega) h.entry h.clear js (by omega) with
      ⟨rfl, -⟩ | ⟨-, hp, h'⟩ | ⟨-, h'⟩
    · rw [List.length_append, List.length_singleton] at hjs
      omega
    · rw [h', hbefore js hp]
    · exact h'
  · intro js u hjs hu
    rw [h.cr3]
    rcases hU.descend_link his ht h.write (by omega) h.entry h.clear js (by omega) with
      ⟨rfl, -⟩ | ⟨-, hp, -⟩ | ⟨-, h'⟩
    · rw [hbefore _ (List.prefix_refl _)] at hu
      cases hu
    · rw [hbefore js hp] at hu
      cases hu
    · rw [h', hu]

/-- One level of a hard walk ends with the next table in place, or for want of a page. -/
theorem walkLevel_spec {m : Machine} (is : List (Fin 512)) {t : ℕ} (i : Fin 512) (hK : K.Keeps J)
    (hU : TablesUnshared m) (hJ : J m) (hp : RegionPath (is ++ [i])) (hlen : is.length ≤ 2)
    (ht : descend (child m) m.cr3 is = some t) :
    (∃ m', walkLevel K true m (t * 512 + i) = .down m' ∧ Walked J m m' ∧
      descend (child m') m'.cr3 (is ++ [i]) = some (m'.mem (t * 512 + i)).base) ∨
    (walkLevel K true m (t * 512 + i) = .oops ∧ K.getZeroedPage m = none) := by
  have his : RegionPath is := hp.above (List.prefix_append ..)
  cases hc : child m t i with
  | some f =>
    obtain ⟨hpres, rfl⟩ := child_eq_some_iff.mp hc
    refine .inl ⟨m, by simp [walkLevel, hpres], .of_view hK hU hJ rfl rfl rfl, ?_⟩
    rw [descend_concat, ht]
    exact hc
  | none =>
    have habsent := child_eq_none_iff.mp hc
    cases hget : K.getZeroedPage m with
    | none => exact .inr ⟨walkLevel_of_null habsent hget, rfl⟩
    | some f =>
      have hl := install_linked hget (hK.fresh m f hJ hget) is (by omega) ht i
      have hw := hl.walked hK hget hU hJ his hlen ht hc
      refine .inl ⟨_, walkLevel_of_page habsent hget, hw, ?_⟩
      rw [descend_concat, hw.keeps is t (by omega) ht, (child_eq_some_iff.mp hl.entry).2]
      exact hl.entry

/-- The path to the page table of an address. -/
def tablePath (v : ℕ) : List (Fin 512) := [pmlEntry v, pdpEntry v, pdEntry v]

theorem pagePath_eq (v : ℕ) : pagePath v = tablePath v ++ [ptEntry v] := rfl

theorem clearAccessed_base (m : Machine) (a b : ℕ) : ((m.clearAccessed a).mem b).base = (m.mem b).base := by
  unfold Machine.clearAccessed Machine.write
  by_cases h : b = a
  · simp [h]
  · simp [h]

theorem walked_clearAccessed {m : Machine} (hK : K.Keeps J) (hU : TablesUnshared m) (hJ : J m) (a : ℕ) :
    Walked J m (m.clearAccessed a) := .of_view hK hU hJ (child_clearAccessed m a) rfl rfl

/-- **A hard walk** to an address of the region returns the entry of its page, creates
the tables on the way to it and changes no translation; or it oopses for want of a page. -/
theorem walkPageTable_hard {m : Machine} {v : ℕ} (hK : K.Keeps J) (hU : TablesUnshared m) (hJ : J m)
    (hv : InRegion v) :
    (∃ m' t, walkPageTable K m v true = some (m', some (t * 512 + (ptEntry v : ℕ))) ∧ Walked J m m' ∧
      descend (child m') m'.cr3 (tablePath v) = some t) ∨
    (walkPageTable K m v true = none ∧ ∃ m', J m' ∧ K.getZeroedPage m' = none) := by
  have hpath : ∀ is, is <+: pagePath v → RegionPath is := fun is hp => hv.regionPath hp
  have hpml : m.cr3 * 512 + pml4e64Index v * 8 = m.cr3 * 512 + (pmlEntry v : ℕ) := by
    simp [pmlEntry, hv.pml4e64Index_eq_zero]
  have hpdp : pdpe64Index v = (pdpEntry v : ℕ) := rfl
  have hpd : pde64Index v = (pdEntry v : ℕ) := rfl
  have hpt : pte64Index v = (ptEntry v : ℕ) := rfl
  have w₀ := walked_clearAccessed hK hU hJ (m.cr3 * 512 + (pmlEntry v : ℕ))
  unfold walkPageTable
  simp only [hpml, hpdp, hpd, hpt, clearAccessed_base]
  rcases walkLevel_spec [] (pmlEntry v) hK w₀.unshared w₀.serves
    (hpath _ ⟨[pdpEntry v, pdEntry v, ptEntry v], rfl⟩) (by simp) descend_nil with ⟨m₁, e₁, w₁, d₁⟩ | ⟨e₁, hnone⟩
  case inr => exact .inr ⟨by rw [w₀.cr3] at e₁; simp only [e₁], _, w₀.serves, hnone⟩
  rw [w₀.cr3] at e₁ d₁
  simp only [e₁]
  rcases walkLevel_spec [pmlEntry v] (pdpEntry v) hK w₁.unshared w₁.serves
    (hpath _ ⟨[pdEntry v, ptEntry v], rfl⟩) (by simp) d₁ with ⟨m₂, e₂, w₂, d₂⟩ | ⟨e₂, hnone⟩
  case inr => exact .inr ⟨by simp only [e₂], _, w₁.serves, hnone⟩
  simp only [e₂]
  have w₂' := walked_clearAccessed hK w₂.unshared w₂.serves (m.cr3 * 512 + (pmlEntry v : ℕ))
  rcases walkLevel_spec [pmlEntry v, pdpEntry v] (pdEntry v) hK w₂'.unshared w₂'.serves
    (hpath _ ⟨[ptEntry v], rfl⟩) (by simp) (w₂'.keeps _ _ (by simp) d₂) with ⟨m₃, e₃, w₃, d₃⟩ | ⟨e₃, hnone⟩
  case inr => exact .inr ⟨by simp only [e₃], _, w₂'.serves, hnone⟩
  simp only [e₃, Bool.true_eq_false, and_false, if_false]
  exact .inl ⟨m₃, _, rfl, ((w₀.trans w₁).trans w₂).trans (w₂'.trans w₃), d₃⟩

/-- With pages to be had, a hard walk returns. -/
theorem walkPageTable_served {m : Machine} {v : ℕ} (hK : K.Serves J) (hU : TablesUnshared m) (hJ : J m)
    (hv : InRegion v) :
    ∃ m' t, walkPageTable K m v true = some (m', some (t * 512 + (ptEntry v : ℕ))) ∧ Walked J m m' ∧
      descend (child m') m'.cr3 (tablePath v) = some t :=
  (walkPageTable_hard hK.toKeeps hU hJ hv).resolve_right fun ⟨_, m', hJ', hnone⟩ => hK.succeeds m' hJ' hnone

/-- One level of a soft walk changes nothing and stops at an entry that is not there. -/
theorem walkLevel_soft (K : Kernel) (m : Machine) (t : ℕ) (i : Fin 512) :
    walkLevel K false m (t * 512 + i) = if child m t i = none then .stop else .down m := by
  unfold walkLevel child
  split_ifs <;> simp_all

/-- A soft walk returns, and returns an entry exactly when the address is mapped. -/
theorem walkPageTable_soft (K : Kernel) (m : Machine) {v : ℕ} (hv : InRegion v) :
    ∃ r, walkPageTable K m v false = some r ∧ (r.2 ≠ none ↔ translate m v ≠ none) := by
  have hpml : m.cr3 * 512 + pml4e64Index v * 8 = m.cr3 * 512 + (pmlEntry v : ℕ) := by
    simp [pmlEntry, hv.pml4e64Index_eq_zero]
  have hpdp : pdpe64Index v = (pdpEntry v : ℕ) := rfl
  have hpd : pde64Index v = (pdEntry v : ℕ) := rfl
  have hpt : pte64Index v = (ptEntry v : ℕ) := rfl
  rw [translate_of_canonical hv.canonical, pagePath, ← child_clearAccessed m (m.cr3 * 512 + (pmlEntry v : ℕ))]
  unfold walkPageTable
  simp only [hpml, hpdp, hpd, hpt, walkLevel_soft]
  generalize m.clearAccessed (m.cr3 * 512 + (pmlEntry v : ℕ)) = m₀
  -- the walk reads the entries the processor does, one level after the other
  cases h₁ : child m₀ m.cr3 (pmlEntry v) with
  | none => exact ⟨_, rfl, by simp [descend_cons, h₁]⟩
  | some f₁ =>
    simp only [reduceCtorEq, if_false, descend_cons, h₁, Option.bind_some, (child_eq_some_iff.mp h₁).2]
    cases h₂ : child m₀ f₁ (pdpEntry v) with
    | none => exact ⟨_, rfl, by simp⟩
    | some f₂ =>
      simp only [reduceCtorEq, if_false, Option.bind_some, clearAccessed_base, child_clearAccessed,
        (child_eq_some_iff.mp h₂).2]
      cases h₃ : child m₀ f₂ (pdEntry v) with
      | none => exact ⟨_, rfl, by simp⟩
      | some f₃ =>
        simp only [reduceCtorEq, if_false, Option.bind_some, clearAccessed_base, (child_eq_some_iff.mp h₃).2,
          descend_nil]
        rw [← child_clearAccessed m₀ (m.cr3 * 512 + (pmlEntry v : ℕ))]
        cases h₄ : child (m₀.clearAccessed (m.cr3 * 512 + (pmlEntry v : ℕ))) f₃ (ptEntry v) with
        | none => exact ⟨_, if_pos ⟨child_eq_none_iff.mp h₄, trivial⟩, by simp⟩
        | some f => exact ⟨_, if_neg (by simp [(child_eq_some_iff.mp h₄).1]), by simp⟩

/-! ### The handler -/

/-- What a fault on a live address does: its page is mapped, to the frame it had or to
a zeroed frame that was not in use, and every other page stays as it was. -/
structure Serviced (J : Machine → Prop) (m m' : Machine) (v : ℕ) : Prop where
  /-- The tables of the region are still unshared. -/
  unshared : TablesUnshared m'
  /-- The page allocator goes on serving. -/
  serves : J m'
  /-- Every other page is mapped as it was. -/
  others : ∀ js, js.length = 4 → js ≠ pagePath v →
    descend (child m') m'.cr3 js = descend (child m) m.cr3 js
  /-- The page keeps its frame. -/
  keeps : ∀ f, translate m v = some f → translate m' v = some f
  /-- Or it gets a new one. -/
  maps : translate m v = none → ∃ f, translate m' v = some f ∧ ¬ InUse m f ∧
    ∀ k : Fin 512, m'.mem (f * 512 + k) = Entry.zero

/-- A frame in use before the tables are created is in use afterwards. -/
theorem Walked.inUse {m m' : Machine} {f : ℕ} (h : Walked J m m') (hf : InUse m f) : InUse m' f := by
  obtain ⟨js, hjs, hd⟩ := hf
  refine ⟨js, hjs, ?_⟩
  by_cases hlen : js.length ≤ 3
  · exact h.keeps js f hlen hd
  · have : js.length = 4 := by
      rcases hjs with hjs | hjs
      · omega
      · have := hjs.length_le
        omega
    rw [h.same js this, hd]

theorem petmemHandlePagefault_serviced {map : MapHead} {m : Machine} {v errorCode : ℕ} (hK : K.Serves J)
    (hU : TablesUnshared m) (hJ : J m) (hv : InRegion v) (hcode : errorCode ≠ 2)
    (hfind : petmemFindAddress map v ≠ none) :
    ∃ m', petmemHandlePagefault K map m v errorCode = some (0, m') ∧ Serviced J m m' v := by
  obtain ⟨m₁, t, hwalk, hw, ht⟩ := walkPageTable_served hK hU hJ hv
  have htrans : ∀ m : Machine, translate m v = descend (child m) m.cr3 (pagePath v) :=
    fun m => translate_of_canonical hv.canonical
  have hlast : translate m v = child m₁ t (ptEntry v) := by
    rw [htrans, ← hw.same _ (length_pagePath v), pagePath_eq, descend_concat, ht]
    rfl
  unfold petmemHandlePagefault
  simp only [if_neg hcode, if_neg hfind, hwalk]
  split_ifs with hpres
  · -- the page is there already
    have hp : child m₁ t (ptEntry v) ≠ none := by
      rw [Ne, child_eq_none_iff, hpres]
      decide
    refine ⟨_, rfl, hw.unshared, hK.view m₁ _ rfl rfl rfl hw.serves, fun js hjs _ => hw.same js hjs, ?_, ?_⟩
    · intro f hf
      rw [htrans] at hf ⊢
      exact (hw.same _ (length_pagePath v)).trans hf
    · intro h
      exact absurd (hlast ▸ h) hp
  · obtain ⟨f, hget⟩ := Option.ne_none_iff_exists'.mp (hK.succeeds m₁ hw.serves)
    have hf := hK.fresh m₁ f hw.serves hget
    have hl := install_linked hget hf (tablePath v) (by simp [tablePath]) ht (ptEntry v)
    have hreg : RegionPath (tablePath v) := hv.regionPath ⟨[ptEntry v], rfl⟩
    have hnone : translate m v = none := by
      rw [hlast, child_eq_none_iff]
      simpa using hpres
    set m₂ := (m₁.install K (t * 512 + ↑(ptEntry v))).2 with hm₂
    refine ⟨_, rfl, ?_, ?_, ?_, ?_, ?_⟩
    · show Unshared (child m₂) m₂.cr3 3 RegionPath
      rw [hl.cr3]
      exact hw.unshared.link hreg ht hl.write (by simp [tablePath]) hl.entry hl.clear
        (fun _ => RegionPath.length_le) (fresh_of_not_inUse hf)
    · refine hK.view m₂ _ rfl rfl rfl ?_
      exact hK.link _ _ _ _ _ _ hget hw.unshared hreg (by simp [tablePath]) ht hl hw.serves
    · intro js hjs hne
      show descend (child m₂) m₂.cr3 js = _
      rw [hl.cr3, ← hw.same js hjs]
      rcases hw.unshared.descend_link hreg ht hl.write (by simp [tablePath]) hl.entry hl.clear
        js (by omega) with ⟨rfl, -⟩ | ⟨hne', hp, -⟩ | ⟨-, h'⟩
      · exact absurd rfl hne
      · exact absurd (hp.eq_of_length (by simp [tablePath, hjs])).symm hne'
      · exact h'
    · intro g hg
      rw [hnone] at hg
      cases hg
    · refine fun _ => ⟨f, ?_, fun h => hf (hw.inUse h), hl.zero⟩
      rw [htrans, pagePath_eq]
      show descend (child m₂) m₂.cr3 _ = _
      rw [hl.cr3, hw.unshared.descend_through hreg ht hl.write (by simp [tablePath]), hl.entry]
      rfl

end Walk

end PetLab.VMproject
