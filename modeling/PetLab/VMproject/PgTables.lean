import Mathlib.Algebra.Ring.Nat
import PetLab.Lib.TableTree
import PetLab.VMproject.MemMap

/-!
# Page tables in physical memory

The four-level page tables of a process (`pgtables.h`) as they lie in memory, the
translation the processor makes from them, and the kernel's page allocator.

## The model

Physical memory is a function from word addresses (8 bytes each) to entries; frame
`f` is the words `512 f` to `512 f + 511`. The bit fields of `pml4e64_t`,
`pdpe64_t`, `pde64_t` and `pte64_t` are laid out alike, and a word is what they
read in it (`Entry`); the fields that no modelled function uses are left out. A
pointer into the kernel's direct map (`__va` of a physical address) is the word
address, so pointer arithmetic that leaves a frame ends up in the next one, as it
does there.

The translation (`translate`) walks four levels, by 4KB pages, for a canonical
address. Which frames the page allocator has handed out is part of the state, and
`free_page`, `invlpg` and `flush_tlb` are logged in the order they are called.
-/

namespace PetLab.VMproject

open PetLab.Lib

/-! ### Indices -/

/-- `PML4E64_INDEX`. -/
def pml4e64Index (x : ℕ) : ℕ := (x >>> 39) &&& 0x1ff

/-- `PDPE64_INDEX`. -/
def pdpe64Index (x : ℕ) : ℕ := (x >>> 30) &&& 0x1ff

/-- `PDE64_INDEX`. -/
def pde64Index (x : ℕ) : ℕ := (x >>> 21) &&& 0x1ff

/-- `PTE64_INDEX`. -/
def pte64Index (x : ℕ) : ℕ := (x >>> 12) &&& 0x1ff

theorem index_eq (x k : ℕ) : (x >>> k) &&& 0x1ff = x / 2 ^ k % 512 := by
  rw [Nat.shiftRight_eq_div_pow]
  exact Nat.and_two_pow_sub_one_eq_mod (x / 2 ^ k) 9

theorem pml4e64Index_eq (x : ℕ) : pml4e64Index x = x / 549755813888 % 512 := index_eq x 39

theorem pdpe64Index_eq (x : ℕ) : pdpe64Index x = x / 1073741824 % 512 := index_eq x 30

theorem pde64Index_eq (x : ℕ) : pde64Index x = x / 2097152 % 512 := index_eq x 21

theorem pte64Index_eq (x : ℕ) : pte64Index x = x / 4096 % 512 := index_eq x 12

theorem index_lt (x k : ℕ) : (x >>> k) &&& 0x1ff < 512 := by
  rw [index_eq]
  exact Nat.mod_lt _ (by decide)

/-- The entry of the top table. -/
def pmlEntry (v : ℕ) : Fin 512 := ⟨pml4e64Index v, index_lt v 39⟩

/-- The entry of the page directory pointer table. -/
def pdpEntry (v : ℕ) : Fin 512 := ⟨pdpe64Index v, index_lt v 30⟩

/-- The entry of the page directory. -/
def pdEntry (v : ℕ) : Fin 512 := ⟨pde64Index v, index_lt v 21⟩

/-- The entry of the page table. -/
def ptEntry (v : ℕ) : Fin 512 := ⟨pte64Index v, index_lt v 12⟩

/-- The entries the processor reads to translate an address, from the top. -/
def pagePath (v : ℕ) : List (Fin 512) := [pmlEntry v, pdpEntry v, pdEntry v, ptEntry v]

@[simp] theorem length_pagePath (v : ℕ) : (pagePath v).length = 4 := rfl

/-- The four indices determine the page of a 48-bit address. -/
theorem pagePath_eq_iff {v w : ℕ} (hv : v < 2 ^ 48) (hw : w < 2 ^ 48) :
    pagePath v = pagePath w ↔ v / 4096 = w / 4096 := by
  simp only [pagePath, pmlEntry, pdpEntry, pdEntry, ptEntry, List.cons.injEq, Fin.mk.injEq, and_true,
    pml4e64Index_eq, pdpe64Index_eq, pde64Index_eq, pte64Index_eq]
  omega

/-! ### The region -/

/-- An address of the petmem region. -/
def InRegion (v : ℕ) : Prop := petmemRegionStart ≤ v ∧ v < petmemRegionEnd

/-- An address the processor translates: bits 48 to 63 are copies of bit 47. -/
def Canonical (v : ℕ) : Prop := v < 2 ^ 47 ∨ (2 ^ 64 - 2 ^ 47 ≤ v ∧ v < 2 ^ 64)

instance (v : ℕ) : Decidable (InRegion v) := inferInstanceAs (Decidable (_ ∧ _))

instance (v : ℕ) : Decidable (Canonical v) := inferInstanceAs (Decidable (_ ∨ _))

theorem InRegion.canonical {v : ℕ} (h : InRegion v) : Canonical v := by
  simp only [InRegion, petmemRegionStart, petmemRegionEnd] at h
  exact .inl (by omega)

/-- The whole region is under the first entry of the top table. -/
theorem InRegion.pml4e64Index_eq_zero {v : ℕ} (h : InRegion v) : pml4e64Index v = 0 := by
  simp only [InRegion, petmemRegionStart, petmemRegionEnd] at h
  rw [pml4e64Index_eq]
  omega

/-- The region is made of whole pages. -/
theorem InRegion.of_page {v w : ℕ} (h : InRegion v) (hw : w / 4096 = v / 4096) : InRegion w := by
  simp only [InRegion, petmemRegionStart, petmemRegionEnd] at h ⊢
  omega

/-- Addresses with the path of an address of the region are on its page. -/
theorem InRegion.pagePath_eq_iff {v w : ℕ} (h : InRegion v) (hw : Canonical w) :
    pagePath w = pagePath v ↔ w / 4096 = v / 4096 := by
  have hv : v < 2 ^ 48 := by
    simp only [InRegion, petmemRegionEnd] at h
    omega
  rcases hw with hw | ⟨hw, hw'⟩
  · exact VMproject.pagePath_eq_iff (by omega) hv
  · -- an address of the upper half is under another entry of the top table
    have h₀ := h.pml4e64Index_eq_zero
    rw [pml4e64Index_eq] at h₀
    constructor
    · intro he
      simp only [pagePath, pmlEntry, List.cons.injEq, Fin.mk.injEq, pml4e64Index_eq] at he
      omega
    · omega

/-- The paths that lead to the tables and the pages of the region. -/
def RegionPath (js : List (Fin 512)) : Prop := ∃ v, InRegion v ∧ js <+: pagePath v

theorem InRegion.regionPath {v : ℕ} (h : InRegion v) {js : List (Fin 512)} (hp : js <+: pagePath v) :
    RegionPath js := ⟨v, h, hp⟩

theorem RegionPath.length_le {js : List (Fin 512)} (h : RegionPath js) : js.length ≤ 3 + 1 := by
  obtain ⟨v, -, hp⟩ := h
  exact hp.length_le

theorem RegionPath.above {is js : List (Fin 512)} (h : RegionPath js) (hp : is <+: js) : RegionPath is := by
  obtain ⟨v, hv, hj⟩ := h
  exact ⟨v, hv, hp.trans hj⟩

/-! ### Memory -/

/-- What the code reads in a word of memory through the page table structs. -/
structure Entry where
  /-- The entry is valid. -/
  present : Bool
  /-- Writing is allowed. -/
  writable : Bool
  /-- User access is allowed. -/
  userPage : Bool
  /-- The processor has used the entry. -/
  accessed : Bool
  /-- The frame it points to (`pdp_base_addr`, `pd_base_addr`, `pt_base_addr`, `page_base_addr`). -/
  base : ℕ
  deriving DecidableEq, Repr

/-- A zeroed word. -/
def Entry.zero : Entry := ⟨false, false, false, false, 0⟩

/-- What the code is given to `free_page`: a page of the user, or a table. -/
inductive PageKind where
  /-- A user page. -/
  | user
  /-- A page table. -/
  | pt
  /-- A page directory. -/
  | pd
  /-- A page directory pointer table. -/
  | pdp
  deriving DecidableEq, Repr

/-- A call into the kernel or the processor. A page is the frame behind its address
in the direct map, `none` for the address `0`. -/
inductive KernelEvent where
  /-- `free_page`, and what the caller frees. -/
  | freePage (kind : PageKind) (page : Option ℕ)
  /-- `invlpg`. -/
  | invlpg (page : Option ℕ)
  /-- `flush_tlb`. -/
  | flushTlb
  deriving DecidableEq, Repr

/-- Memory, the top table, and the page allocator. -/
structure Machine where
  /-- Physical memory, by the word. -/
  mem : ℕ → Entry
  /-- The frame of the top table. -/
  cr3 : ℕ
  /-- The frames handed out by the page allocator. -/
  allocated : List ℕ
  /-- The calls made, the last one last. -/
  log : List KernelEvent

/-- Store a word. -/
def Machine.write (m : Machine) (a : ℕ) (e : Entry) : Machine := { m with mem := Function.update m.mem a e }

/-- `cur->present = 0`. -/
def Machine.clearPresent (m : Machine) (a : ℕ) : Machine := m.write a { m.mem a with present := false }

/-- `cur->accessed = 0`. -/
def Machine.clearAccessed (m : Machine) (a : ℕ) : Machine := m.write a { m.mem a with accessed := false }

/-- Clear a frame. -/
def Machine.zeroFrame (m : Machine) (f : ℕ) : Machine :=
  { m with mem := fun a => if a / 512 = f then Entry.zero else m.mem a }

/-- A call that only leaves a trace in the log. -/
def Machine.note (m : Machine) (e : KernelEvent) : Machine := { m with log := m.log ++ [e] }

/-- `free_page`, which ignores the address `0`. -/
def Machine.freePage (m : Machine) (kind : PageKind) (page : Option ℕ) : Machine :=
  { m.note (.freePage kind page) with allocated := m.allocated.filter fun f => page ≠ some f }

/-! ### Translation -/

/-- Entry `i` of the table in frame `f`: what it points to, if it is present. -/
def child (m : Machine) (f : ℕ) (i : Fin 512) : Option ℕ :=
  if (m.mem (f * 512 + i)).present then some (m.mem (f * 512 + i)).base else none

/-- The frame the processor finds for an address. -/
def translate (m : Machine) (v : ℕ) : Option ℕ :=
  if Canonical v then descend (child m) m.cr3 (pagePath v) else none

/-- The tables of the region are tables of the region only. -/
def TablesUnshared (m : Machine) : Prop := Unshared (child m) m.cr3 3 RegionPath

/-- The frame is a table of the process, or a page of the region is mapped to it. -/
def InUse (m : Machine) (f : ℕ) : Prop :=
  ∃ js, Watched 3 RegionPath js ∧ descend (child m) m.cr3 js = some f

theorem fresh_of_not_inUse {m : Machine} {f : ℕ} (h : ¬ InUse m f) : Fresh (child m) m.cr3 3 RegionPath f :=
  fun js hjs hf => h ⟨js, hjs, hf⟩

theorem translate_of_canonical {m : Machine} {v : ℕ} (h : Canonical v) :
    translate m v = descend (child m) m.cr3 (pagePath v) := if_pos h

/-- Two words of memory are the same word when frame and index are. -/
theorem slot_inj {f g : ℕ} {i k : Fin 512} : f * 512 + (i : ℕ) = g * 512 + (k : ℕ) ↔ f = g ∧ i = k := by
  have := i.isLt
  have := k.isLt
  rw [Fin.ext_iff]
  omega

theorem child_eq_some_iff {m : Machine} {f g : ℕ} {i : Fin 512} :
    child m f i = some g ↔ (m.mem (f * 512 + i)).present = true ∧ (m.mem (f * 512 + i)).base = g := by
  unfold child
  split_ifs with h <;> simp [h]

theorem child_eq_none_iff {m : Machine} {f : ℕ} {i : Fin 512} :
    child m f i = none ↔ (m.mem (f * 512 + i)).present = false := by
  unfold child
  split_ifs with h <;> simp [h]

/-- What a write does to the entries of the tables. -/
theorem child_write (m : Machine) (f g : ℕ) (i k : Fin 512) (e : Entry) :
    child (m.write (f * 512 + i) e) g k =
      if g = f ∧ k = i then (if e.present then some e.base else none) else child m g k := by
  unfold child Machine.write
  split_ifs with h <;> simp_all [slot_inj]

/-- A cleared frame has no entries. -/
theorem child_zeroFrame (m : Machine) (f g : ℕ) (k : Fin 512) :
    child (m.zeroFrame f) g k = if g = f then none else child m g k := by
  have hdiv : (g * 512 + (k : ℕ)) / 512 = g := by
    have := k.isLt
    omega
  unfold child Machine.zeroFrame
  simp only [hdiv]
  split_ifs <;> simp_all [Entry.zero]

/-- The entries do not depend on the accessed bits. -/
theorem child_clearAccessed (m : Machine) (a : ℕ) : child (m.clearAccessed a) = child m := by
  funext f i
  unfold child Machine.clearAccessed Machine.write
  by_cases h : f * 512 + (i : ℕ) = a
  · simp [h]
  · simp [h]

@[simp] theorem child_note (m : Machine) (e : KernelEvent) : child (m.note e) = child m := rfl

@[simp] theorem child_freePage (m : Machine) (kind : PageKind) (page : Option ℕ) :
    child (m.freePage kind page) = child m := rfl

end PetLab.VMproject
