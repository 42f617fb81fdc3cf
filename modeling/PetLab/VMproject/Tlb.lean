import PetLab.VMproject.FreeStmts
import PetLab.VMproject.Isolation
import Mathlib.Data.Set.Insert

/-!
# What the TLB still holds after a free

The processor caches translations: at any time it may add one that the page tables hold
(`TlbLabel.fill`), between any two statements of the driver, and it drops one only when it
is told to, by `invlpg` for a page or by `flush_tlb` for all. `petmem_free_vspace` calls
`invlpg` after each entry it clears, but with the address of the page in the kernel's
direct map; the page under which the process reached it stays cached.

So a free leaves no stale translation of the region exactly when it unmaps nothing
(`freeTlb_coherent_iff`). `petmem_handle_pagefault` flushes everything before it returns,
whatever it did, which is why the next fault hides it.

## The model

A cached translation is a pair of a page number and a frame. `va f` is the page number of
frame `f` in the direct map (`__va`), a parameter here: nothing is used of it but that the
direct map is not in the petmem region. A call is run with the statements it executes
(`freeStmts`) and fills in between (`StmtsTlb`). Of a page fault only the end matters: what
was cached before its `flush_tlb` is gone.
-/

namespace PetLab.VMproject

open PetLab.Lib

/-- What the processor has cached: a page number and a frame. -/
abbrev Tlb := Set (ℕ × ℕ)

/-- Every page of the region that is cached is mapped so in the tables. -/
def Coherent (m : Machine) (T : Tlb) : Prop :=
  ∀ p ∈ T, InRegion (p.1 * 4096) → translate m (p.1 * 4096) = some p.2

section

variable (va : ℕ → ℕ)

/-- What a statement does to the TLB. -/
def Stmt.onTlb (T : Tlb) : Stmt → Tlb
  | .invlpg page => {p ∈ T | p.1 ≠ page.elim 0 va}
  | .clearPresent _ => T
  | .freePage _ _ => T

/-- What happens next: a statement, or the processor caches a translation. -/
inductive TlbLabel where
  /-- A statement of the driver. -/
  | stmt (s : Stmt)
  /-- Address `v` is cached with frame `f`. -/
  | fill (v f : ℕ)

/-- The statement, if it is one. -/
def TlbLabel.stmt? : TlbLabel → Option Stmt
  | .stmt s => some s
  | .fill _ _ => none

/-- Memory and TLB after what happens next. -/
def TlbStep (x : Machine × Tlb) : TlbLabel → Machine × Tlb → Prop
  | .stmt s, x' => x' = (s.exec x.1, s.onTlb va x.2)
  | .fill v f, x' => translate x.1 v = some f ∧ x' = (x.1, insert (v / 4096, f) x.2)

/-- The statements `ss` run, with fills at any time, from `m` and `T` to `m'` and `T'`. -/
def StmtsTlb (ss : List Stmt) (m : Machine) (T : Tlb) (m' : Machine) (T' : Tlb) : Prop :=
  ∃ labels : List TlbLabel, labels.filterMap TlbLabel.stmt? = ss ∧ Exec (TlbStep va) (m, T) labels (m', T')

/-- The statements of `petmem_free_vspace`. -/
def freeVspaceStmts (fuel : ℕ) (st : Process) (vaddr : ℕ) : List Stmt :=
  match freeLoop vaddr st.map.nodes with
  | none => []
  | some p =>
    freeStmts (p.cursor.size / pageSize4KB) (st.m.cr3 * 512 + pml4e64Index p.cursor.start * 8) fuel
      (.start st.m p.cursor.start)

/-- `petmem_free_vspace` returns in state `st'` with TLB `T'`. -/
def FreeTlb (st : Process) (T : Tlb) (vaddr : ℕ) (st' : Process) (T' : Tlb) : Prop :=
  ∃ fuel, petmemFreeVspace fuel st vaddr = .ok st' ∧ StmtsTlb va (freeVspaceStmts fuel st vaddr) st.m T st'.m T'

/-- A call that returns, with the TLB. -/
def VmTlbStep (K : Kernel) (x : Process × Tlb) : VmOp → Process × Tlb → Prop
  | .alloc n, x' => VmStep K x.1 (.alloc n) x'.1 ∧ StmtsTlb va [] x.1.m x.2 x'.1.m x'.2
  | .pagefault a c, x' => VmStep K x.1 (.pagefault a c) x'.1 ∧
      -- what was cached before `flush_tlb` is gone, and what is cached then is in the tables
      if (x'.1.m.log.drop x.1.m.log.length).getLast? = some .flushTlb then StmtsTlb va [] x'.1.m ∅ x'.1.m x'.2
      else StmtsTlb va [] x.1.m x.2 x'.1.m x'.2
  | .free vaddr, x' => FreeTlb va x.1 x.2 vaddr x'.1 x'.2

/-! ### What can be cached -/

theorem InRegion.page_start {v : ℕ} (h : InRegion v) : InRegion (v / 4096 * 4096) :=
  h.of_page (Nat.mul_div_cancel _ (by decide))

variable {va}

/-- The statements leave memory as they do without a TLB, and a page of the region that is
cached afterwards was cached before or mapped before: the walk maps nothing. -/
theorem StmtsTlb.spec {ss : List Stmt} {m m' : Machine} {T T' : Tlb} (h : StmtsTlb va ss m T m' T') :
    m' = ss.foldl Stmt.exec m ∧
      ∀ p ∈ T', InRegion (p.1 * 4096) → p ∈ T ∨ translate m (p.1 * 4096) = some p.2 := by
  obtain ⟨labels, rfl, hrun⟩ := h
  generalize hx : (m, T) = x at hrun
  generalize hx' : (m', T') = x' at hrun
  induction hrun generalizing m' T' with
  | nil =>
    obtain ⟨rfl, rfl⟩ := Prod.mk.inj (hx.trans hx'.symm)
    exact ⟨rfl, fun p hp _ => .inl hp⟩
  | @snoc labels a t u hrun hstep ih =>
    obtain ⟨m₁, T₁⟩ := t
    obtain ⟨hm₁, hT₁⟩ := ih rfl
    subst hx'
    cases a with
    | stmt s =>
      obtain ⟨rfl, rfl⟩ := Prod.mk.inj hstep
      refine ⟨by simp [TlbLabel.stmt?, hm₁], fun p hp hr => hT₁ p ?_ hr⟩
      cases s with
      | clearPresent cur => exact hp
      | invlpg page => exact hp.1
      | freePage kind page => exact hp
    | fill v f =>
      obtain ⟨hf, heq⟩ := hstep
      obtain ⟨rfl, rfl⟩ := Prod.mk.inj heq
      refine ⟨by simpa [List.filterMap_cons, TlbLabel.stmt?] using hm₁, fun p hp hr => ?_⟩
      rcases hp with rfl | hp
      · -- what is mapped now was mapped before the call
        have hfewer : Fewer m m' := hm₁ ▸ fewer_stmts m _
        have hsame : translate m v = translate m (v / 4096 * 4096) := translate_congr hr (by omega)
        exact .inr (hsame.symm.trans (hfewer.translate hf))
      · exact hT₁ p hp hr

/-- A mapped page of the region can be cached before the call, and then is afterwards. -/
theorem exists_stmtsTlb (hva : ∀ f, ¬ InRegion (va f * 4096)) (ss : List Stmt) (m : Machine) (T : Tlb) {v f : ℕ}
    (hv : InRegion v) (hf : translate m v = some f) :
    ∃ T', StmtsTlb va ss m T (ss.foldl Stmt.exec m) T' ∧ (v / 4096, f) ∈ T' := by
  have hpage := hv.page_start
  induction ss using List.reverseRecOn with
  | nil => exact ⟨insert (v / 4096, f) T, ⟨[.fill v f], rfl, .single ⟨hf, rfl⟩⟩, Set.mem_insert _ _⟩
  | append_singleton ss s ih =>
    obtain ⟨T', ⟨labels, rfl, hrun⟩, hmem⟩ := ih
    refine ⟨s.onTlb va T', ⟨labels ++ [.stmt s], by simp [TlbLabel.stmt?], ?_⟩, ?_⟩
    · rw [List.foldl_append]
      exact .snoc hrun rfl
    · cases s with
      | clearPresent cur => exact hmem
      | freePage kind page => exact hmem
      | invlpg page =>
        -- the address invalidated is not in the region
        refine ⟨hmem, fun heq => ?_⟩
        cases page with
        | none =>
          rw [show v / 4096 = 0 from heq] at hpage
          exact absurd hpage (by decide)
        | some g =>
          rw [show v / 4096 = va g from heq] at hpage
          exact hva g hpage

/-! ### Free -/

theorem petmemFreeVspace_stmts {fuel vaddr : ℕ} {st st' : Process} (h : petmemFreeVspace fuel st vaddr = .ok st') :
    st'.m = (freeVspaceStmts fuel st vaddr).foldl Stmt.exec st.m := by
  unfold petmemFreeVspace at h
  unfold freeVspaceStmts
  cases hp : freeLoop vaddr st.map.nodes with
  | none =>
    rw [hp] at h
    rw [← Outcome.ok.inj h]
    rfl
  | some p =>
    simp only [hp] at h ⊢
    split at h
    · rename_i m hm
      rw [← Outcome.ok.inj h]
      exact freePages_stmts hm
    · cases h
    · cases h

theorem FreeVspace.fewer {st st' : Process} {vaddr : ℕ} (h : FreeVspace st vaddr st') : Fewer st.m st'.m := by
  obtain ⟨fuel, h⟩ := h
  rw [petmemFreeVspace_stmts h]
  exact fewer_stmts _ _

theorem FreeTlb.freeVspace {st st' : Process} {T T' : Tlb} {vaddr : ℕ} (h : FreeTlb va st T vaddr st' T') :
    FreeVspace st vaddr st' := by
  obtain ⟨fuel, h, -⟩ := h
  exact ⟨fuel, h⟩

/-- **A free leaves no stale translation exactly when it unmaps nothing.** -/
theorem freeTlb_coherent_iff (hva : ∀ f, ¬ InRegion (va f * 4096)) {st st' : Process} {T : Tlb} {vaddr : ℕ}
    (hT : Coherent st.m T) (h : FreeVspace st vaddr st') :
    (∀ T', FreeTlb va st T vaddr st' T' → Coherent st'.m T') ↔
      ∀ v, InRegion v → translate st'.m v = translate st.m v := by
  refine ⟨fun hall v hv => ?_, fun hsame T' hfree p hp hr => ?_⟩
  · cases hf : translate st.m v with
    | none =>
      -- nothing is mapped anew
      cases hf' : translate st'.m v with
      | none => rfl
      | some g => exact absurd (h.fewer.translate hf') (by simp [hf])
    | some f =>
      obtain ⟨fuel, hst'⟩ := h
      obtain ⟨T', hT', hmem⟩ := exists_stmtsTlb hva (freeVspaceStmts fuel st vaddr) st.m T hv hf
      rw [← petmemFreeVspace_stmts hst'] at hT'
      have hcached : translate st'.m (v / 4096 * 4096) = some f :=
        hall T' ⟨fuel, hst', hT'⟩ (v / 4096, f) hmem hv.page_start
      rw [← hcached]
      exact translate_congr hv.page_start (Nat.mul_div_cancel _ (by decide)).symm
  · obtain ⟨fuel, -, hstmts⟩ := hfree
    rw [hsame _ hr]
    rcases hstmts.spec.2 p hp hr with hp | hf
    · exact hT p hp hr
    · exact hf

/-! ### Page faults -/

theorem install_log (K : Kernel) (m : Machine) (dest : ℕ) : (m.install K dest).2.log = m.log := by
  cases hget : K.getZeroedPage m with
  | none => simp [Machine.install, VMproject.getZeroedPage, hget, Machine.write]
  | some f => simp [Machine.install, VMproject.getZeroedPage, hget, Machine.write, Machine.zeroFrame]

theorem walkLevel_log {K : Kernel} {m m' : Machine} {dest : ℕ} (h : walkLevel K true m dest = .down m') :
    m'.log = m.log := by
  rcases walkLevel_down_cases h with rfl | ⟨-, rfl⟩
  · rfl
  · exact install_log K m dest

theorem FaultPath.log_eq {K : Kernel} {m m₀ m₁ m₂ m₃ : Machine} {faultAddr pmlDest pdpDest pdeDest pteDest : ℕ}
    (h : FaultPath K m faultAddr m₀ m₁ m₂ m₃ pmlDest pdpDest pdeDest pteDest) : m₃.log = m.log := by
  have h₀ : m₀.log = m.log := by
    rw [h.start]
    rfl
  calc m₃.log = (m₂.clearAccessed pmlDest).log := walkLevel_log h.ptTable
    _ = m₂.log := rfl
    _ = m₁.log := walkLevel_log h.pdTable
    _ = m₀.log := walkLevel_log h.pdpTable
    _ = m.log := h₀

/-- A fault leaves memory alone, or ends with `flush_tlb`. -/
theorem petmemHandlePagefault_flush {K : Kernel} {map : MapHead} {m m' : Machine} {faultAddr errorCode : ℕ} {r : ℤ}
    (h : petmemHandlePagefault K map m faultAddr errorCode = some (r, m')) :
    m' = m ∨ (m'.log.drop m.log.length).getLast? = some .flushTlb := by
  rcases petmemHandlePagefault_path h with heq | ⟨hcode, hfind, m₀, m₁, m₂, m₃, pmlDest, pdpDest, pdeDest, pteDest, hp⟩
  · exact .inl (congrArg Prod.snd heq)
  · rw [hp.handle_eq hcode hfind] at h
    refine .inr ?_
    split_ifs at h with hpres
    · obtain ⟨-, rfl⟩ := Prod.mk.inj (Option.some.inj h)
      simp [Machine.note, hp.log_eq]
    · obtain ⟨-, rfl⟩ := Prod.mk.inj (Option.some.inj h)
      simp [Machine.note, install_log, hp.log_eq]

/-! ### Whole runs -/

/-- The walk ends in the first table and comes to no page that is mapped. -/
def Untouched (m : Machine) (s numPages : ℕ) : Prop :=
  SparesOthers m s numPages ∧ ∀ v, s ≤ v → v < s + 4096 * numPages → translate m v = none

/-- A call of `petmem_free_vspace` has nothing to unmap: no page of the region is mapped, or
none that the walk comes to. -/
def NothingToUnmap (st : Process) : VmOp → Prop
  | .free vaddr => (∀ v, InRegion v → translate st.m v = none) ∨
      (TablesUnshared st.m ∧ Tracked st.m ∧ FreeMeets Untouched st (.free vaddr))
  | _ => True

/-- A call decided by the first table takes no translation away exactly when it has nothing
to unmap. -/
theorem free_same_iff {st st' : Process} (hI : VmInv st) {vaddr : ℕ} (hfirst : FreeMeets FirstTable st (.free vaddr))
    (h : FreeVspace st vaddr st') :
    (∀ v, InRegion v → translate st'.m v = translate st.m v) ↔ FreeMeets Untouched st (.free vaddr) := by
  cases hp : freeLoop vaddr st.map.nodes with
  | none =>
    obtain ⟨fuel, hst'⟩ := h
    simp only [petmemFreeVspace, hp, Outcome.ok.injEq] at hst'
    subst hst'
    refine iff_of_true (fun _ _ => rfl) fun p hp' => ?_
    rw [hp] at hp'
    cases hp'
  | some p =>
    have hmem : p.cursor ∈ st.map.nodes := by
      rw [(freeLoop_shape hp).1]
      simp
    have hb := hI.map.tiles.mem_bounds hmem
    have halign := hI.map.aligned hmem
    obtain ⟨fuel, m', hm', hw⟩ := freePages_firstWalk hI.unshared hI.tracked hb.1
      (by rw [hI.map.size_eq hmem]; exact hb.2) halign (hfirst p hp)
    have hst' : FreeVspace st vaddr ⟨petmemFreeNode st.map vaddr, m'⟩ :=
      ⟨fuel, by simp only [petmemFreeVspace, hp, hm']⟩
    obtain rfl := h.unique hst'
    rw [hw.same_iff hI.unshared hI.tracked halign]
    constructor
    · intro hsp q hq
      obtain rfl := Option.some.inj (hp.symm.trans hq)
      exact ⟨⟨hfirst p hp, hsp.1⟩, hsp.2⟩
    · intro hun
      exact ⟨(hun p hp).1.2, (hun p hp).2⟩

/-- A call that has nothing to unmap takes no translation away. -/
theorem NothingToUnmap.same {st st' : Process} {vaddr : ℕ} (hmap : MapInv st.map) (hn : NothingToUnmap st (.free vaddr))
    (h : FreeVspace st vaddr st') : ∀ v, InRegion v → translate st'.m v = translate st.m v := by
  rcases hn with hnone | ⟨hU, hT, hun⟩
  · intro v hv
    rw [hnone v hv]
    cases hf : translate st'.m v with
    | none => rfl
    | some f => exact absurd (h.fewer.translate hf) (by simp [hnone v hv])
  · exact (free_same_iff ⟨hmap, hU, hT⟩ (fun p hp => (hun p hp).1.1) h).mpr hun

/-- What is kept along a run. -/
structure TlbInv (x : Process × Tlb) : Prop where
  /-- The map is well formed. -/
  map : MapInv x.1.map
  /-- Nothing stale of the region is cached. -/
  coherent : Coherent x.1.m x.2

theorem Coherent.fill {m : Machine} {T T' : Tlb} (h : Coherent m T) (hfill : StmtsTlb va [] m T m T') :
    Coherent m T' := by
  intro p hp hr
  rcases hfill.spec.2 p hp hr with hp | hf
  · exact h p hp hr
  · exact hf

theorem TlbInv.step {K : Kernel} {x x' : Process × Tlb} {op : VmOp} (hva : ∀ f, ¬ InRegion (va f * 4096))
    (hI : TlbInv x) (h : Guard (fun x => NothingToUnmap x.1) (VmTlbStep va K) x op x') : TlbInv x' := by
  obtain ⟨hcond, hstep⟩ := h
  obtain ⟨st, T⟩ := x
  obtain ⟨st', T'⟩ := x'
  cases op with
  | alloc n =>
    obtain ⟨hst, htlb⟩ := hstep
    obtain rfl : st' = { st with map := (petmemAllocVspace st.map n).2 } := hst
    exact ⟨hI.map.alloc n, hI.coherent.fill htlb⟩
  | pagefault a c =>
    obtain ⟨hst, htlb⟩ := hstep
    obtain ⟨r, hr⟩ := hst
    obtain ⟨m', hm', rfl⟩ := Process.pagefault_eq_some.mp hr
    refine ⟨hI.map, ?_⟩
    rcases petmemHandlePagefault_flush hm' with rfl | hflush
    · rw [if_neg (by simp)] at htlb
      exact hI.coherent.fill htlb
    · simp only [hflush, if_true] at htlb
      have hempty : Coherent m' ∅ := fun p hp => absurd hp (Set.notMem_empty p)
      exact hempty.fill htlb
  | free vaddr =>
    have hfree : FreeVspace st vaddr st' := FreeTlb.freeVspace hstep
    refine ⟨?_, (freeTlb_coherent_iff hva hI.coherent hfree).mpr (NothingToUnmap.same hI.map hcond hfree) T' hstep⟩
    rw [hfree.map_eq]
    exact hI.map.free vaddr

/-- **No stale translation survives a free**, in every run whose frees have nothing to unmap.
A free that unmaps a page of the region can leave it cached; for one that the first table
decides, that is every free that has something to unmap. -/
theorem tlb_coherent (va : ℕ → ℕ) (hva : ∀ f, ¬ InRegion (va f * 4096)) (K : Kernel) (junk : MemMap) (m₀ : Machine)
    (T₀ : Tlb) (h₀ : Coherent m₀ T₀) (ops : List VmOp) (st : Process) (T : Tlb)
    (hrun : Exec (Guard (fun x => NothingToUnmap x.1) (VmTlbStep va K)) (⟨petmemInitProcess junk, m₀⟩, T₀) ops
      (st, T)) :
    Coherent st.m T ∧
    (∀ vaddr st', FreeVspace st vaddr st' → ((∀ T', FreeTlb va st T vaddr st' T' → Coherent st'.m T') ↔
      ∀ v, InRegion v → translate st'.m v = translate st.m v)) ∧
    ∀ vaddr, TablesUnshared st.m → Tracked st.m → FreeMeets FirstTable st (.free vaddr) →
      ((∀ st' T', FreeTlb va st T vaddr st' T' → Coherent st'.m T') ↔ NothingToUnmap st (.free vaddr)) := by
  have hI : TlbInv (st, T) := hrun.inv ⟨mapInv_petmemInitProcess junk, h₀⟩ fun _ _ _ hI hs => hI.step hva hs
  refine ⟨hI.coherent, fun vaddr st' h => freeTlb_coherent_iff hva hI.coherent h, fun vaddr hU hT hfirst => ?_⟩
  have hV : VmInv st := ⟨hI.map, hU, hT⟩
  constructor
  · intro hall
    obtain ⟨st', hst'⟩ : ∃ st', FreeVspace st vaddr st' := by
      cases hp : freeLoop vaddr st.map.nodes with
      | none => exact ⟨st, 0, by simp only [petmemFreeVspace, hp]⟩
      | some p =>
        obtain ⟨st', hst', -⟩ := hV.free hp (hfirst p hp)
        exact ⟨st', hst'⟩
    have hsame := (freeTlb_coherent_iff hva hI.coherent hst').mp (hall st')
    exact .inr ⟨hU, hT, (free_same_iff hV hfirst hst').mp hsame⟩
  · intro hn st' T' h
    have hfree := h.freeVspace
    exact (freeTlb_coherent_iff hva hI.coherent hfree).mpr (hn.same hI.map hfree) T' h

end

/-- The page of a frame in the direct map, which starts at `0xffff888000000000`. -/
def directMapPage (f : ℕ) : ℕ := 0xffff888000000 + f

theorem directMapPage_outside (f : ℕ) : ¬ InRegion (directMapPage f * 4096) := by
  simp only [InRegion, directMapPage, petmemRegionEnd]
  omega

/-- Calls that do not free, run with a TLB that is empty before the last one. -/
theorem exec_tlb_call {C : Process × Tlb → VmOp → Prop} (hC : ∀ x op, (∀ vaddr, op ≠ .free vaddr) → C x op)
    (st : Process) {ops : List VmOp} (h : ∀ vaddr, .free vaddr ∉ ops) :
    Exec (Guard C (VmTlbStep directMapPage .bump)) (st, ∅) ops (ops.foldl Process.call st, ∅) := by
  refine exec_foldl (g := fun st => (st, ∅)) (fun st op hop => ⟨hC _ _ fun vaddr he => h vaddr (he ▸ hop), ?_⟩) st
  cases op with
  | alloc n => exact ⟨rfl, [], rfl, .nil⟩
  | pagefault a c =>
    obtain ⟨r, st', hst'⟩ := exists_pagefault_bump st a c
    obtain ⟨m', hm', rfl⟩ := Process.pagefault_eq_some.mp hst'
    have hcall : st.call (.pagefault a c) = { st with m := m' } := by simp [Process.call, hst']
    rw [hcall]
    refine ⟨⟨r, hst'⟩, ?_⟩
    split_ifs with hflush
    · exact ⟨[], rfl, .nil⟩
    · rcases petmemHandlePagefault_flush hm' with rfl | hyes
      · exact ⟨[], rfl, .nil⟩
      · exact absurd hyes hflush
  | free vaddr => exact absurd hop (h vaddr)

/-- Two segments of one page, the first touched and cached: the free of the second leaves
the cached translation right. -/
theorem tlb_coherent_two_segments : ∃ st T,
    Exec (Guard (fun x => NothingToUnmap x.1) (VmTlbStep directMapPage .bump)) (.blank, ∅)
      [.alloc 1, .alloc 1, .pagefault petmemRegionStart 0, .free (petmemRegionStart + 4096)] (st, T) ∧
    (petmemRegionStart / 4096, 11) ∈ T ∧ Coherent st.m T := by
  obtain ⟨st, hst⟩ : ∃ st, st = [VmOp.alloc 1, .alloc 1, .pagefault petmemRegionStart 0].foldl Process.call .blank :=
    ⟨_, rfl⟩
  have hcalls : Exec (Guard (fun x => NothingToUnmap x.1) (VmTlbStep directMapPage .bump)) (.blank, ∅)
      [.alloc 1, .alloc 1, .pagefault petmemRegionStart 0] (st, ∅) := by
    rw [hst]
    refine exec_tlb_call (fun x op hop => ?_) _ (by simp)
    cases op with
    | alloc n => trivial
    | pagefault a c => trivial
    | free vaddr => exact absurd rfl (hop vaddr)
  have hV : VmInv st := by
    have hrun : Exec (Guard (FreeMeets FirstTable) (VmStep .bump)) .blank
        [.alloc 1, .alloc 1, .pagefault petmemRegionStart 0] st := by
      rw [hst]
      exact exec_call (fun st op => FreeMeets.of_ne_free) _ (by simp)
    exact vmInv_of_run (Kernel.serves_of_not_mem_allocated Kernel.bump_fresh) newProcess_blank hrun
  have hloop : freeLoop (petmemRegionStart + 4096) st.map.nodes = some ⟨[⟨1, petmemRegionStart, 4096, 1, 0⟩],
      ⟨2, petmemRegionStart + 4096, 4096, 1, 0⟩, [⟨3, petmemRegionStart + 8192, 0x2000000000 - 8192, 0, 0⟩]⟩ := by
    rw [hst]
    decide +kernel
  have hpdp : child st.m st.m.cr3 (pmlEntry (petmemRegionStart + 4096)) = some 8 := by
    rw [hst]
    decide +kernel
  have hpd : child st.m 8 (pdpEntry (petmemRegionStart + 4096)) = some 9 := by
    rw [hst]
    decide +kernel
  have hpt : child st.m 9 (pdEntry (petmemRegionStart + 4096)) = some 10 := by
    rw [hst]
    decide +kernel
  have hafter : translate st.m (petmemRegionStart + 4096 + 4096 * (4096 / pageSize4KB)) = none := by
    rw [hst]
    decide +kernel
  have hpage : translate st.m (petmemRegionStart + 4096) = none := by
    rw [hst]
    decide +kernel
  have hcond : FreeMeets Untouched st (.free (petmemRegionStart + 4096)) := by
    intro p hp
    rw [← Option.some.inj (hloop.symm.trans hp)]
    refine ⟨⟨?_, hafter, fun pdp pd h₁ h₂ h₃ => ?_⟩, fun v h₁ h₂ => ?_⟩
    · simp only [FirstTable, hpdp, hpd]
      decide
    · obtain rfl := Option.some.inj (hpdp.symm.trans h₁)
      obtain rfl := Option.some.inj (hpd.symm.trans h₂)
      cases hpt.symm.trans h₃
    · rw [translate_congr (v := petmemRegionStart + 4096) (by decide) ?_, hpage]
      simp only [petmemRegionStart, pageSize4KB] at h₁ h₂ ⊢
      omega
  have hstmts : freeVspaceStmts 5 st (petmemRegionStart + 4096) = [] := by
    rw [hst]
    decide +kernel
  obtain ⟨st', hst', -⟩ := Outcome.exists_of_returns (fun _ => true) (petmemFreeVspace 5 st (petmemRegionStart + 4096))
    (by rw [hst]; decide +kernel)
  have hmapped : translate st.m petmemRegionStart = some 11 := by
    rw [hst]
    decide +kernel
  -- the processor caches the page, and the walk executes no statement
  have hm : st'.m = st.m := by
    rw [petmemFreeVspace_stmts hst', hstmts]
    rfl
  have hfree : FreeTlb directMapPage st ∅ (petmemRegionStart + 4096) st' {(petmemRegionStart / 4096, 11)} := by
    refine ⟨5, hst', [.fill petmemRegionStart 11], hstmts.symm, .single ⟨hmapped, ?_⟩⟩
    rw [hm, insert_empty_eq]
  have hnothing : NothingToUnmap st (.free (petmemRegionStart + 4096)) := .inr ⟨hV.unshared, hV.tracked, hcond⟩
  have hrun : Exec (Guard (fun x => NothingToUnmap x.1) (VmTlbStep directMapPage .bump)) (.blank, ∅)
      [.alloc 1, .alloc 1, .pagefault petmemRegionStart 0, .free (petmemRegionStart + 4096)]
      (st', {(petmemRegionStart / 4096, 11)}) := .snoc hcalls ⟨hnothing, hfree⟩
  exact ⟨st', _, hrun, rfl, (tlb_coherent directMapPage directMapPage_outside .bump ⟨0, 0, 0, 0, 0⟩ .blank ∅
    (fun p hp => absurd hp (Set.notMem_empty p)) _ st' _ hrun).1⟩

/-- A page is touched, cached and freed: the process still reaches the frame. -/
theorem free_leaves_stale : ∃ st T,
    Exec (VmTlbStep directMapPage .bump) (.blank, ∅) [.alloc 1, .pagefault petmemRegionStart 0, .free petmemRegionStart]
      (st, T) ∧
    .freePage .user (some 11) ∈ st.m.log ∧
    (petmemRegionStart / 4096, 11) ∈ T ∧ translate st.m petmemRegionStart = none := by
  obtain ⟨st, hst⟩ : ∃ st, st = [VmOp.alloc 1, .pagefault petmemRegionStart 0].foldl Process.call .blank := ⟨_, rfl⟩
  have hcalls : Exec (VmTlbStep directMapPage .bump) (.blank, ∅)
      [.alloc 1, .pagefault petmemRegionStart 0] (st, ∅) := by
    rw [hst]
    exact (exec_tlb_call (C := fun _ _ => True) (fun _ _ _ => trivial) _ (by simp)).mono fun _ _ _ h => h.2
  have hmapped : translate st.m petmemRegionStart = some 11 := by
    rw [hst]
    decide +kernel
  obtain ⟨st', hst', htest⟩ := Outcome.exists_of_returns
    (fun st => KernelEvent.freePage .user (some 11) ∈ st.m.log ∧ translate st.m petmemRegionStart = none)
    (petmemFreeVspace 5 st petmemRegionStart) (by rw [hst]; decide +kernel)
  simp only [decide_eq_true_eq] at htest
  obtain ⟨T, hT, hmem⟩ := exists_stmtsTlb directMapPage_outside (freeVspaceStmts 5 st petmemRegionStart) st.m ∅
    (by decide) hmapped
  rw [← petmemFreeVspace_stmts hst'] at hT
  exact ⟨st', T, .snoc hcalls ⟨5, hst', hT⟩, htest.1, hmem, htest.2⟩

end PetLab.VMproject
