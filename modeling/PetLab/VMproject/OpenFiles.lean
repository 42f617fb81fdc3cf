import PetLab.VMproject.UserRuns

/-!
# Several processes

Every process that has the device open has a map of its own (`filp->private_data`) and tables
of its own. But they all have their pages and tables from one allocator, in one memory, and
the driver looks at no page before it writes to it.

Each process sees its own memory all the same, whatever the others do and in whatever order
(`files_isolated`), and reads nothing but what it has stored itself (`load_own`). What a call
may touch (`Footprint`) is what the process owns and what nobody has. So it is enough that
nothing that one process owns is in use by another (`Apart`), which the calls of both keep.

## The model

All processes have the device open when the run begins; a file opened later is one on which
no call was made before. Each process has a TLB of its own, or one that is tagged. A process
that is killed is gone. Its pages stay where they are, as `petmem_release` does not get
through when anything is allocated (`PetLab.VMproject.Teardown`).
-/

namespace PetLab.VMproject

open PetLab.Lib

/-! ### A process that does nothing -/

/-- Nothing that the first process owns is in use by the second. -/
def Apart (m n : Machine) : Prop := ∀ f, Owned m f → ¬ InUse n f

/-- While a process goes from `m` to `m'` in the memory it shares with another, the other one,
which does nothing, goes from `n` to `n'`. -/
structure Bystander (m m' n n' : Machine) : Prop where
  /-- The call keeps to its own. -/
  foot : Footprint m m'
  /-- They share the memory. -/
  mem : n.mem = m.mem
  /-- They share the allocator. -/
  allocated : n.allocated = m.allocated
  /-- They do afterwards. -/
  mem' : n'.mem = m'.mem
  /-- They do afterwards. -/
  allocated' : n'.allocated = m'.allocated
  /-- The other one keeps its top table. -/
  cr3 : n'.cr3 = n.cr3
  /-- The allocator knows of its pages. -/
  tracked : Tracked n
  /-- The pages of the first are not its own. -/
  apart : Apart m n

section Bystander

variable {m m' n n' : Machine} {f v : ℕ}

theorem Bystander.mem_allocated (h : Bystander m m' n n') (hf : InUse n f) : f ∈ m.allocated :=
  h.allocated ▸ h.tracked f hf

theorem Bystander.not_owned (h : Bystander m m' n n') (hf : InUse n f) : ¬ Owned m f := fun ho => h.apart f ho hf

/-- What is in its tables and pages stays. -/
theorem Bystander.mem_eq (h : Bystander m m' n n') (hf : InUse n f) (k : Fin 512) :
    n'.mem (f * 512 + k) = n.mem (f * 512 + k) := by
  rw [h.mem', h.mem]
  exact h.foot.writes f (h.mem_allocated hf) (h.not_owned hf) k

/-- Its paths lead where they did. -/
theorem Bystander.descend_eq (h : Bystander m m' n n') {js : List (Fin 512)} (hjs : js.length ≤ 4) :
    descend (child n') n'.cr3 js = descend (child n) n.cr3 js := by
  rw [h.cr3]
  refine descend_congr fun is i t hp ht => ?_
  have hlen : is.length ≤ 3 := by
    have := hp.length_le
    rw [List.length_append, List.length_singleton] at this
    omega
  simp only [child, h.mem_eq ⟨is, .inl hlen, ht⟩ i]

theorem Bystander.translate_eq (h : Bystander m m' n n') (v : ℕ) : translate n' v = translate n v := by
  unfold translate
  split_ifs
  · exact h.descend_eq (length_pagePath v).le
  · rfl

theorem Bystander.inUse_iff (h : Bystander m m' n n') : InUse n' f ↔ InUse n f := by
  constructor
  · rintro ⟨js, hjs, hf⟩
    exact ⟨js, hjs, (h.descend_eq (length_le_of_watched hjs)).symm.trans hf⟩
  · rintro ⟨js, hjs, hf⟩
    exact ⟨js, hjs, (h.descend_eq (length_le_of_watched hjs)).trans hf⟩

theorem Bystander.owned_iff (h : Bystander m m' n n') : Owned n' f ↔ Owned n f := by
  constructor
  · rintro ⟨js, hjs, hf⟩
    exact ⟨js, hjs, (h.descend_eq hjs.length_le).symm.trans hf⟩
  · rintro ⟨js, hjs, hf⟩
    exact ⟨js, hjs, (h.descend_eq hjs.length_le).trans hf⟩

theorem Bystander.unshared (h : Bystander m m' n n') (hU : TablesUnshared n) : TablesUnshared n' := by
  intro is js t his hjs h₁ h₂
  have h₁' := (h.descend_eq his.length_le).symm.trans h₁
  have h₂' := (h.descend_eq (length_le_of_watched hjs)).symm.trans h₂
  exact hU is js t his hjs h₁' h₂'

theorem Bystander.tracked' (h : Bystander m m' n n') : Tracked n' := by
  intro f hf
  have hf' := h.inUse_iff.mp hf
  rw [h.allocated']
  exact h.foot.keeps f (h.mem_allocated hf') (h.not_owned hf')

/-- Nothing that is in its use becomes the other's. -/
theorem Bystander.apart_left (h : Bystander m m' n n') : Apart m' n' := by
  intro f ho hu
  have hu' := h.inUse_iff.mp hu
  exact h.not_owned hu' (h.foot.owned f (h.mem_allocated hu') ho)

/-- Nothing that it owns comes into the other's use. -/
theorem Bystander.apart_right (h : Bystander m m' n n') (hapart : Apart n m) : Apart n' m' := by
  intro f ho hu
  have ho' := h.owned_iff.mp ho
  exact hapart f ho' (h.foot.inUse f (h.mem_allocated ho'.inUse) hu)

/-- **A process that does nothing** sees what it saw. -/
theorem Bystander.sees {map : MapHead} {T : Tlb} {M : ObjMem ℕ ℕ Entry} (h : Bystander m m' n n')
    (hsees : Sees (⟨map, n⟩, T) M) : Sees (⟨map, n'⟩, T) M where
  vm := ⟨hsees.vm.map, h.unshared hsees.vm.unshared, h.tracked'⟩
  live := hsees.live
  objects := hsees.objects
  mapped v hv hm := hsees.mapped v hv (by rwa [h.translate_eq] at hm)
  cached v f hv hp := (h.translate_eq v).trans (hsees.cached v f hv hp)
  held v f hv hf := by
    have hf' : translate n v = some f := (h.translate_eq v).symm.trans hf
    rw [← hsees.held v f hv hf']
    exact h.mem_eq ((hsees.inRegion hv).inUse hf') (wordIndex v)
  clear v hv hnone := hsees.clear v hv ((h.translate_eq v).symm.trans hnone)

end Bystander

/-! ### The device -/

/-- A process that has the device open. -/
structure OpenFile where
  /-- `filp->private_data`. -/
  privateData : MapHead
  /-- The top table of the process. -/
  cr3 : ℕ
  /-- What the processor has cached for it. -/
  tlb : Tlb

/-- The processes, and what they share. -/
structure Device (ι : Type*) where
  /-- Physical memory, by the word. -/
  mem : ℕ → Entry
  /-- The frames handed out by the page allocator. -/
  allocated : List ℕ
  /-- The calls made to the kernel, the last one last. -/
  log : List KernelEvent
  /-- The open files, of the processes that are still there. -/
  files : ι → Option OpenFile

variable {ι : Type*}

/-- Memory with the tables of one process. -/
def Device.machine (d : Device ι) (cr3 : ℕ) : Machine := ⟨d.mem, cr3, d.allocated, d.log⟩

/-- What one process has. -/
def Device.process (d : Device ι) (file : OpenFile) : Process × Tlb :=
  (⟨file.privateData, d.machine file.cr3⟩, file.tlb)

/-- The processes have just opened the device, have no memory, and share no tables. -/
structure NewDevice (d : Device ι) : Prop where
  /-- Each of them is new. -/
  new : ∀ i file, d.files i = some file → NewProcess (d.process file).1
  /-- No page of the region is mapped. -/
  empty : ∀ i file, d.files i = some file → ∀ v, InRegion v → translate (d.machine file.cr3) v = none
  /-- What one owns the others do not use. -/
  apart : ∀ i j file file', i ≠ j → d.files i = some file → d.files j = some file' →
    Apart (d.machine file.cr3) (d.machine file'.cr3)

/-- Process `i` sees the memory `M i`, and no process uses what another owns. -/
structure DeviceSees (d : Device ι) (M : ι → ObjMem ℕ ℕ Entry) : Prop where
  /-- Each sees its memory. -/
  sees : ∀ i file, d.files i = some file → Sees (d.process file) (M i)
  /-- What one owns the others do not use. -/
  apart : ∀ i j file file', i ≠ j → d.files i = some file → d.files j = some file' →
    Apart (d.machine file.cr3) (d.machine file'.cr3)

theorem NewDevice.deviceSees {d : Device ι} (h : NewDevice d) : DeviceSees d fun _ => .empty Entry.zero :=
  ⟨fun i file hi => sees_new (h.new i file hi) (h.empty i file hi) file.tlb, h.apart⟩

/-- No page is one of two processes. -/
theorem DeviceSees.pages_apart {d : Device ι} {M : ι → ObjMem ℕ ℕ Entry} (h : DeviceSees d M) {i j : ι} (hij : i ≠ j)
    {file file' : OpenFile} (hi : d.files i = some file) (hj : d.files j = some file') {v w f : ℕ} (hv : InRegion v)
    (hw : InRegion w) (hf : translate (d.machine file.cr3) v = some f) :
    translate (d.machine file'.cr3) w ≠ some f := by
  intro hf'
  rw [translate_of_canonical hv.canonical] at hf
  exact h.apart i j file file' hij hi hj f ⟨pagePath v, hv.regionPath (List.prefix_refl _), hf⟩ (hw.inUse hf')

variable [DecidableEq ι]

/-- The device after process `i` has got to `s`. -/
def Device.after (d : Device ι) (i : ι) (s : Option (Process × Tlb)) : Device ι :=
  match s with
  | some (st, T) => ⟨st.m.mem, st.m.allocated, st.m.log, Function.update d.files i (some ⟨st.map, st.m.cr3, T⟩)⟩
  | none => { d with files := Function.update d.files i none }

/-- A call or an access of one process. -/
def DeviceStep (va : ℕ → ℕ) (K : Kernel) (d : Device ι) (a : ι × UserCall) (d' : Device ι) : Prop :=
  ∃ file s, d.files a.1 = some file ∧ UserStep va K (some (d.process file)) a.2 s ∧ d' = d.after a.1 s

/-- Every process is careful. -/
def DeviceCareful (d : Device ι) (a : ι × UserCall) : Prop := Careful ((d.files a.1).map d.process) a.2

section

variable {va : ℕ → ℕ} {K : Kernel} {d d' : Device ι} {M : ι → ObjMem ℕ ℕ Entry} {i : ι}

/-- The other processes, when process `i` is killed. -/
theorem DeviceSees.killed (h : DeviceSees d M) (N : ObjMem ℕ ℕ Entry) :
    DeviceSees (d.after i none) (Function.update M i N) := by
  have hold : ∀ j file, (d.after i none).files j = some file → j ≠ i ∧ d.files j = some file := by
    intro j file hj
    by_cases hji : j = i
    · subst hji
      simp [Device.after] at hj
    · exact ⟨hji, by simpa [Device.after, Function.update_of_ne hji] using hj⟩
  constructor
  · intro j file hj
    obtain ⟨hji, hj'⟩ := hold j file hj
    rw [Function.update_of_ne hji]
    exact h.sees j file hj'
  · intro j k file file' hjk hj hk
    exact h.apart j k file file' hjk (hold j file hj).2 (hold k file' hk).2

/-- The other processes, when process `i` makes a call. -/
theorem DeviceSees.moved (h : DeviceSees d M) {file : OpenFile} (hi : d.files i = some file) {st : Process} {T : Tlb}
    {N : ObjMem ℕ ℕ Entry} (hsees : Sees (st, T) N) (hfoot : Footprint (d.machine file.cr3) st.m) :
    DeviceSees (d.after i (some (st, T))) (Function.update M i N) := by
  have hself : ∀ file', (d.after i (some (st, T))).files i = some file' → file' = ⟨st.map, st.m.cr3, T⟩ := by
    intro file' hi'
    simpa [Device.after, eq_comm] using hi'
  have hother : ∀ j file', j ≠ i → (d.after i (some (st, T))).files j = some file' → d.files j = some file' := by
    intro j file' hji hj
    simpa [Device.after, Function.update_of_ne hji] using hj
  have hby : ∀ j file', j ≠ i → d.files j = some file' →
      Bystander (d.machine file.cr3) st.m (d.machine file'.cr3) ((d.after i (some (st, T))).machine file'.cr3) :=
    fun j file' hji hj => ⟨hfoot, rfl, rfl, rfl, rfl, rfl, (h.sees j file' hj).vm.tracked,
      h.apart i j file file' (Ne.symm hji) hi hj⟩
  constructor
  · intro j file' hj
    by_cases hji : j = i
    · subst hji
      obtain rfl := hself file' hj
      rw [Function.update_self]
      exact hsees
    · rw [Function.update_of_ne hji]
      exact (hby j file' hji (hother j file' hji hj)).sees (h.sees j file' (hother j file' hji hj))
  · intro j k file₁ file₂ hjk hj hk
    by_cases hji : j = i
    · subst hji
      obtain rfl := hself file₁ hj
      exact (hby k file₂ (Ne.symm hjk) (hother k file₂ (Ne.symm hjk) hk)).apart_left
    · have hj' := hother j file₁ hji hj
      by_cases hki : k = i
      · subst hki
        obtain rfl := hself file₂ hk
        exact (hby j file₁ hji hj').apart_right (h.apart j k file₁ file hji hj' hi)
      · have hk' := hother k file₂ hki hk
        intro f ho hu
        exact h.apart j k file₁ file₂ hjk hj' hk' f ((hby j file₁ hji hj').owned_iff.mp ho)
          ((hby k file₂ hki hk').inUse_iff.mp hu)

/-- **One call of one process**: what it sees is the memory after the event, and the others see
what they saw. -/
theorem DeviceSees.step (hK : K.Fresh) (h : DeviceSees d M) {call : UserCall} (hcare : DeviceCareful d (i, call))
    (hstep : DeviceStep va K d (i, call) d') :
    ∃ N, Exec (MemStep Entry.zero) (M i) call.event.toList N ∧ DeviceSees d' (Function.update M i N) := by
  obtain ⟨file, s, hi, hs, rfl⟩ := hstep
  have hcare' : Careful (some (d.process file)) call := by
    simpa only [DeviceCareful, hi, Option.map_some] using hcare
  obtain ⟨N, hN, hsees⟩ := (h.sees i file hi).step hK hs hcare'
  refine ⟨N, hN, ?_⟩
  cases s with
  | none => exact h.killed N
  | some x =>
    obtain ⟨hx, hfoot⟩ := hsees x rfl
    exact h.moved hi hx hfoot

theorem deviceSees_of_run {d₀ : Device ι} (hK : K.Fresh) (h₀ : NewDevice d₀) {calls : List (ι × UserCall)}
    (hrun : Exec (Guard DeviceCareful (DeviceStep va K)) d₀ calls d) :
    ∃ M, (∀ i, Exec (MemStep Entry.zero) (.empty Entry.zero) ((labelsOf i calls).filterMap UserCall.event) (M i)) ∧
      DeviceSees d M :=
  hrun.components (Q := DeviceSees) h₀.deviceSees fun _ _ _ _ _ h hstep => h.step hK hstep.1 hstep.2

end

end PetLab.VMproject
