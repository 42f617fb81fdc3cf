import PetLab.VMproject.PageFault
import Mathlib.Data.Set.Finite.List
import Mathlib.Data.Set.Finite.Basic

/-!
# Demand paging maps what was touched

Runs of `petmem_handle_pagefault` on one map, with any addresses and error codes.
Each call either is refused and changes nothing, or maps the page of its address
(`Serviced`), so after any number of calls the pages mapped are those that were
touched at a live address, each to a frame of its own.
-/

namespace PetLab.VMproject

open PetLab.Lib

/-- A process that has the device open: its map and its memory. -/
structure Process where
  /-- The map of the region. -/
  map : MapHead
  /-- Memory and page tables. -/
  m : Machine

/-- A call of `petmem_handle_pagefault`: what it returns, and the process afterwards; nothing
when it oopses. -/
def Process.pagefault (K : Kernel) (st : Process) (faultAddr errorCode : ℕ) : Option (ℤ × Process) :=
  (petmemHandlePagefault K st.map st.m faultAddr errorCode).map fun r => (r.1, { st with m := r.2 })

/-- The process after a sequence of faults, each an address and an error code, if every call
returns. -/
def faultRun (K : Kernel) (st : Process) (calls : List (ℕ × ℕ)) : Option Process :=
  calls.foldlM (fun st c => (st.pagefault K c.1 c.2).map Prod.snd) st

theorem Process.pagefault_eq_some {K : Kernel} {st st' : Process} {faultAddr errorCode : ℕ} {r : ℤ} :
    st.pagefault K faultAddr errorCode = some (r, st') ↔
      ∃ m', petmemHandlePagefault K st.map st.m faultAddr errorCode = some (r, m') ∧ st' = { st with m := m' } := by
  simp only [Process.pagefault, Option.map_eq_some_iff, Prod.exists, Prod.mk.injEq]
  constructor
  · rintro ⟨r, m', h, rfl, rfl⟩
    exact ⟨m', h, rfl⟩
  · rintro ⟨m', h, rfl⟩
    exact ⟨r, m', h, rfl, rfl⟩

/-- The page of `v` was touched: a call named an address of it that was allocated, and
was not a permission error. -/
def Touched (map : MapHead) (calls : List (ℕ × ℕ)) (v : ℕ) : Prop :=
  ∃ c ∈ calls, c.1 / 4096 = v / 4096 ∧ petmemFindAddress map c.1 ≠ none ∧ c.2 ≠ 2

/-- A live address is in the region. -/
theorem MapInv.inRegion_of_find {map : MapHead} (hI : MapInv map) {v : ℕ}
    (h : petmemFindAddress map v ≠ none) : InRegion v := by
  obtain ⟨n, hn⟩ := Option.ne_none_iff_exists'.mp h
  have hmem := List.mem_of_find?_eq_some hn
  have hholds := List.find?_some hn
  simp only [MemMap.holds, decide_eq_true_eq] at hholds
  have := hI.tiles.mem_bounds hmem
  exact ⟨by omega, by omega⟩

/-- Addresses on one page of the region are translated alike. -/
theorem translate_congr {m : Machine} {v w : ℕ} (hv : InRegion v) (h : w / 4096 = v / 4096) :
    translate m w = translate m v := by
  have hw := (hv.of_page h).canonical
  rw [translate_of_canonical hw, translate_of_canonical hv.canonical, (hv.pagePath_eq_iff hw).mpr h]

theorem Serviced.translate_of_ne {J : Machine → Prop} {m m' : Machine} {v w : ℕ} (h : Serviced J m m' v)
    (hv : InRegion v) (hne : w / 4096 ≠ v / 4096) : translate m' w = translate m w := by
  unfold translate
  split_ifs with hw
  · exact h.others _ (length_pagePath w) fun he => hne ((hv.pagePath_eq_iff hw).mp he)
  · rfl

/-- In unshared tables, pages of the region with one frame are one page. -/
theorem TablesUnshared.page_eq {m : Machine} (hU : TablesUnshared m) {v w f : ℕ} (hv : InRegion v)
    (hw : InRegion w) (h₁ : translate m v = some f) (h₂ : translate m w = some f) : v / 4096 = w / 4096 := by
  rw [translate_of_canonical hv.canonical] at h₁
  rw [translate_of_canonical hw.canonical] at h₂
  have hp := hU _ _ f (hv.regionPath (List.prefix_refl _)) (.inr (hw.regionPath (List.prefix_refl _))) h₁ h₂
  exact (hw.pagePath_eq_iff hv.canonical).mp hp

/-- A call is refused, and changes nothing, or maps a page of the region. -/
theorem petmemHandlePagefault_cases {K : Kernel} {J : Machine → Prop} {map : MapHead} {m : Machine}
    (hK : K.Serves J) (hI : MapInv map) (hU : TablesUnshared m) (hJ : J m) (v errorCode : ℕ) :
    ((petmemFindAddress map v = none ∨ errorCode = 2) ∧
        petmemHandlePagefault K map m v errorCode = some (-1, m)) ∨
      (petmemFindAddress map v ≠ none ∧ errorCode ≠ 2 ∧ InRegion v ∧
        ∃ m', petmemHandlePagefault K map m v errorCode = some (0, m') ∧ Serviced J m m' v) := by
  by_cases hcode : errorCode = 2
  · exact .inl ⟨.inr hcode, by simp [petmemHandlePagefault, hcode]⟩
  by_cases hfind : petmemFindAddress map v = none
  · exact .inl ⟨.inl hfind, by simp [petmemHandlePagefault, hcode, hfind]⟩
  have hv := hI.inRegion_of_find hfind
  exact .inr ⟨hfind, hcode, hv, petmemHandlePagefault_serviced hK hU hJ hv hcode hfind⟩

/-- What holds after the faults `calls`, from page tables `m₀`. -/
structure PagingInv (map : MapHead) (m₀ : Machine) (calls : List (ℕ × ℕ)) (m : Machine) : Prop where
  /-- The tables of the region are unshared. -/
  unshared : TablesUnshared m
  /-- A page of the region is mapped exactly when it was touched. -/
  present : ∀ v, InRegion v → (translate m v ≠ none ↔ Touched map calls v)
  /-- Nothing else has changed. -/
  outside : ∀ v, ¬ InRegion v → translate m v = translate m₀ v

theorem touched_concat {map : MapHead} {calls : List (ℕ × ℕ)} {c : ℕ × ℕ} {v : ℕ} :
    Touched map (calls ++ [c]) v ↔
      Touched map calls v ∨ (c.1 / 4096 = v / 4096 ∧ petmemFindAddress map c.1 ≠ none ∧ c.2 ≠ 2) := by
  simp only [Touched, List.mem_append, List.mem_singleton, or_and_right, exists_or, exists_eq_left]

/-- One more fault. -/
theorem PagingInv.step {K : Kernel} {J : Machine → Prop} {map : MapHead} {m₀ m : Machine}
    {calls : List (ℕ × ℕ)} (hK : K.Serves J) (hI : MapInv map) (hJ : J m) (h : PagingInv map m₀ calls m)
    (c : ℕ × ℕ) :
    ∃ r m', petmemHandlePagefault K map m c.1 c.2 = some (r, m') ∧ PagingInv map m₀ (calls ++ [c]) m' ∧ J m' := by
  rcases petmemHandlePagefault_cases hK hI h.unshared hJ c.1 c.2 with
    ⟨hno, heq⟩ | ⟨hfind, hcode, hv, m', heq, hs⟩
  · refine ⟨-1, m, heq, ⟨h.unshared, fun v hv => ?_, h.outside⟩, hJ⟩
    rw [h.present v hv, touched_concat]
    tauto
  · refine ⟨0, m', heq, ⟨hs.unshared, fun w hw => ?_, fun w hw => ?_⟩, hs.serves⟩
    · rw [touched_concat]
      by_cases hpage : c.1 / 4096 = w / 4096
      · -- the page of the call is mapped, whether it was before or not
        have hmapped : translate m' w ≠ none := by
          rw [translate_congr hv hpage.symm]
          cases ht : translate m c.1 with
          | none =>
            obtain ⟨f, hf, -⟩ := hs.maps ht
            simp [hf]
          | some f => simp [hs.keeps f ht]
        exact ⟨fun _ => .inr ⟨hpage, hfind, hcode⟩, fun _ => hmapped⟩
      · rw [hs.translate_of_ne hv (Ne.symm hpage), h.present w hw]
        exact ⟨.inl, fun h => h.resolve_right fun h => hpage h.1⟩
    · rw [hs.translate_of_ne hv fun he => hw (hv.of_page he), h.outside w hw]

theorem pagingInv_faultRun {K : Kernel} {J : Machine → Prop} {map : MapHead} {m₀ : Machine} (hK : K.Serves J)
    (hI : MapInv map) (hU : TablesUnshared m₀) (hJ : J m₀) (h₀ : ∀ v, InRegion v → translate m₀ v = none)
    (calls : List (ℕ × ℕ)) :
    ∃ m, faultRun K ⟨map, m₀⟩ calls = some ⟨map, m⟩ ∧ PagingInv map m₀ calls m ∧ J m := by
  induction calls using List.reverseRecOn with
  | nil => exact ⟨m₀, rfl, ⟨hU, fun v hv => by simp [Touched, h₀ v hv], fun v _ => rfl⟩, hJ⟩
  | append_singleton calls c ih =>
    obtain ⟨m, hrun, hP, hJ'⟩ := ih
    obtain ⟨r, m', heq, hP', hJ''⟩ := hP.step hK hI hJ' c
    have hcall : Process.pagefault K ⟨map, m⟩ c.1 c.2 = some (r, ⟨map, m'⟩) :=
      Process.pagefault_eq_some.mpr ⟨m', heq, rfl⟩
    refine ⟨m', ?_, hP', hJ''⟩
    rw [faultRun] at hrun ⊢
    rw [List.foldlM_append, hrun]
    simp [hcall]

/-- **Demand paging maps exactly what was touched.** -/
theorem faultRun_maps_touched (K : Kernel) (hK : ∀ m, ∃ f, K.getZeroedPage m = some f ∧ ¬ InUse m f)
    (junk : MemMap) (ops : List MapOp) (m₀ : Machine) (hU : TablesUnshared m₀)
    (h₀ : ∀ v, InRegion v → translate m₀ v = none) (calls : List (ℕ × ℕ)) :
    ∃ st, faultRun K ⟨mapRun junk ops, m₀⟩ calls = some st ∧
    (∀ v, InRegion v → (translate st.m v ≠ none ↔ Touched (mapRun junk ops) calls v)) ∧
    (∀ v w f, InRegion v → InRegion w → translate st.m v = some f → translate st.m w = some f →
      v / 4096 = w / 4096) ∧
    (∀ v f code, InRegion v → translate st.m v = some f →
      ∃ r st', st.pagefault K v code = some (r, st') ∧ translate st'.m v = some f) ∧
    (∀ v, InRegion v → ∃ r, walkPageTable K st.m v false = some r ∧ (r.2 ≠ none ↔ translate st.m v ≠ none)) ∧
    (∀ v code, ∃ r st', st.pagefault K v code = some (r, st') ∧
      (r = -1 → st'.map = st.map ∧ ∀ w, translate st'.m w = translate st.m w)) ∧
    ∀ v, ¬ InRegion v → translate st.m v = translate m₀ v := by
  have hI := mapInv_mapRun junk ops
  have hS := Kernel.serves_of_not_inUse hK
  obtain ⟨m, hrun, hP, -⟩ := pagingInv_faultRun hS hI hU trivial h₀ calls
  have hcall := fun v code => petmemHandlePagefault_cases hS hI hP.unshared trivial v code
  refine ⟨_, hrun, hP.present, fun v w f hv hw => hP.unshared.page_eq hv hw, fun v f code hv hf => ?_,
    fun v hv => walkPageTable_soft K m hv, fun v code => ?_, hP.outside⟩
  · rcases hcall v code with ⟨-, heq⟩ | ⟨-, -, -, m', heq, hs⟩
    · exact ⟨_, _, Process.pagefault_eq_some.mpr ⟨m, heq, rfl⟩, hf⟩
    · exact ⟨_, _, Process.pagefault_eq_some.mpr ⟨m', heq, rfl⟩, hs.keeps f hf⟩
  · rcases hcall v code with ⟨-, heq⟩ | ⟨-, -, -, m', heq, -⟩
    · exact ⟨_, _, Process.pagefault_eq_some.mpr ⟨m, heq, rfl⟩, fun _ => ⟨rfl, fun w => rfl⟩⟩
    · exact ⟨_, _, Process.pagefault_eq_some.mpr ⟨m', heq, rfl⟩, fun hr => absurd hr (by decide)⟩

/-- There is always a frame that is not in use. -/
theorem exists_not_inUse (m : Machine) : ∃ f, ¬ InUse m f := by
  have hfin : {js : List (Fin 512) | js.length ≤ 4}.Finite := List.finite_length_le _ _
  have hused : {f | InUse m f}.Finite := by
    refine ((hfin.image fun js => descend (child m) m.cr3 js).preimage
      (f := fun f : ℕ => some f) (Option.some_injective ℕ).injOn).subset ?_
    rintro f ⟨js, hjs, hf⟩
    refine ⟨js, ?_, hf⟩
    rcases hjs with h | h
    · exact Nat.le_succ_of_le h
    · exact h.length_le
  exact hused.exists_notMem

/-- Memory with no page table but the top one, in frame 7. -/
def Machine.blank : Machine := ⟨fun _ => Entry.zero, 7, [7], []⟩

theorem eq_nil_of_descend_blank {is : List (Fin 512)} {t : ℕ}
    (h : descend (child Machine.blank) Machine.blank.cr3 is = some t) : is = [] := by
  cases is with
  | nil => rfl
  | cons i is => simp [descend_cons, child, Machine.blank, Entry.zero] at h

theorem tablesUnshared_blank : TablesUnshared Machine.blank := fun is js t _ _ h₁ h₂ => by
  rw [eq_nil_of_descend_blank h₁, eq_nil_of_descend_blank h₂]

theorem translate_blank {v : ℕ} (hv : InRegion v) : translate Machine.blank v = none := by
  rw [translate_of_canonical hv.canonical]
  simp [pagePath, descend_cons, child, Machine.blank, Entry.zero]

/-- An allocator that hands out the frame after the last one in use. -/
def Kernel.bump : Kernel := ⟨fun m => some (m.allocated.foldr max 0 + 1), 0⟩

theorem le_foldr_max {l : List ℕ} {x : ℕ} (hx : x ∈ l) : x ≤ l.foldr max 0 := by
  induction l with
  | nil => simp at hx
  | cons y l ih =>
    rw [List.foldr_cons]
    rcases List.mem_cons.mp hx with rfl | hx
    · exact Nat.le_max_left ..
    · exact (ih hx).trans (Nat.le_max_right ..)

theorem Kernel.bump_fresh (m : Machine) : ∃ f, Kernel.bump.getZeroedPage m = some f ∧ f ∉ m.allocated := by
  refine ⟨_, rfl, fun h => ?_⟩
  have := le_foldr_max h
  omega

/-- A process with no page tables, two pages allocated: after a fault on the first and
a permission error on the second, the first is mapped and the second is not. -/
theorem faultRun_maps_touched_two_pages : ∃ (K : Kernel) (st : Process),
    (∀ m, ∃ f, K.getZeroedPage m = some f ∧ ¬ InUse m f) ∧
    faultRun K ⟨mapRun ⟨0, 0, 0, 0, 0⟩ [.alloc 2], .blank⟩
      [(petmemRegionStart, 1), (petmemRegionStart + 4096, 2)] = some st ∧
    translate st.m petmemRegionStart ≠ none ∧ translate st.m (petmemRegionStart + 4096) = none := by
  choose page hpage using exists_not_inUse
  have hK : ∀ m, ∃ f, (⟨fun m => some (page m), 0⟩ : Kernel).getZeroedPage m = some f ∧ ¬ InUse m f :=
    fun m => ⟨page m, rfl, hpage m⟩
  obtain ⟨st, hrun, htouched, -⟩ := faultRun_maps_touched _ hK ⟨0, 0, 0, 0, 0⟩ [.alloc 2] .blank tablesUnshared_blank
    (fun v hv => translate_blank hv) [(petmemRegionStart, 1), (petmemRegionStart + 4096, 2)]
  refine ⟨_, st, hK, hrun, (htouched _ (by decide)).mpr ⟨_, List.mem_cons_self, rfl, by decide, by decide⟩, ?_⟩
  by_contra hne
  obtain ⟨c, hc, hpage, -, hcode⟩ := (htouched _ (by decide)).mp hne
  simp only [List.mem_cons, List.not_mem_nil, or_false] at hc
  rcases hc with rfl | rfl
  · exact absurd hpage (by decide)
  · exact hcode rfl

end PetLab.VMproject
