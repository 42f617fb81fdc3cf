import PetLab.VMproject.OpenFiles
import PetLab.VMproject.SameAnswers

/-!
# Runs of several processes

Any number of processes that share memory and the page allocator make their calls and their
accesses, in any order. Each of them runs as on a memory of its own (`files_isolated`); what
it reads it has stored itself (`load_own`); and what it is answered is what it would be
answered if it were alone, on another machine, with another page allocator (`files_alone`).
-/

namespace PetLab.VMproject

open PetLab.Lib

variable {ι ι' : Type*} [DecidableEq ι] [DecidableEq ι']

/-! ### The maps -/

theorem DeviceStep.mapStep {va : ℕ → ℕ} {K : Kernel} {d d' : Device ι} {maps : ι → MapHead} {i : ι} {call : UserCall}
    (hmaps : ∀ j file, d.files j = some file → file.privateData = maps j) (h : DeviceStep va K d (i, call) d') :
    ∃ map', Exec MapStep (maps i) (some call).toList map' ∧
      ∀ j file, d'.files j = some file → file.privateData = Function.update maps i map' j := by
  obtain ⟨file, s, hi, hs, rfl⟩ := h
  obtain ⟨map', hmap, hnext⟩ := hs.mapStep
  have hmap' : MapStep (maps i) call map' := by rwa [← hmaps i file hi]
  refine ⟨map', .single hmap', fun j file' hj => ?_⟩
  by_cases hji : j = i
  · subst hji
    cases s with
    | none => simp [Device.after] at hj
    | some x =>
      obtain rfl : (⟨x.1.map, x.1.m.cr3, x.2⟩ : OpenFile) = file' := by simpa [Device.after] using hj
      rw [Function.update_self]
      exact hnext x rfl
  · rw [Function.update_of_ne hji]
    refine hmaps j file' ?_
    cases s with
    | none => simpa [Device.after, Function.update_of_ne hji] using hj
    | some x => simpa [Device.after, Function.update_of_ne hji] using hj

/-- The map of each process is that of its own calls. -/
theorem maps_of_run {va : ℕ → ℕ} {K : Kernel} {d₀ d : Device ι} (h₀ : NewDevice d₀) {calls : List (ι × UserCall)}
    (hrun : Exec (Guard DeviceCareful (DeviceStep va K)) d₀ calls d) (i : ι) :
    ∃ junk map, Exec MapStep (petmemInitProcess junk) (labelsOf i calls) map ∧
      ∀ file, d.files i = some file → file.privateData = map := by
  have hinit : ∀ j, ∃ junk, ∀ file, d₀.files j = some file → file.privateData = petmemInitProcess junk := by
    intro j
    cases hj : d₀.files j with
    | none => exact ⟨⟨0, 0, 0, 0, 0⟩, fun file hfile => by cases hfile⟩
    | some file =>
      obtain ⟨junk, hjunk⟩ := (h₀.new j file hj).map
      refine ⟨junk, fun file' hfile => ?_⟩
      rw [← Option.some.inj hfile]
      exact hjunk
  choose junk hjunk using hinit
  obtain ⟨maps, hmaps, hfiles⟩ := hrun.components (e := some)
    (Q := fun d maps => ∀ j file, d.files j = some file → file.privateData = maps j) hjunk
    fun _ _ _ _ _ h hstep => hstep.2.mapStep h
  refine ⟨junk i, maps i, ?_, hfiles i⟩
  have h := hmaps i
  rwa [List.filterMap_some] at h

/-! ### Two processes -/

/-- Two processes have just opened the device; memory is clear. -/
def Device.blank : Device Bool where
  mem _ := Entry.zero
  allocated := [7, 8]
  log := []
  files i := some ⟨petmemInitProcess ⟨0, 0, 0, 0, 0⟩, if i then 8 else 7, ∅⟩

theorem eq_nil_of_descend_clear {m : Machine} (hm : ∀ a, m.mem a = Entry.zero) {is : List (Fin 512)} {t : ℕ}
    (h : descend (child m) m.cr3 is = some t) : is = [] := by
  cases is with
  | nil => rfl
  | cons i is => simp [descend_cons, child, hm, Entry.zero] at h

theorem newDevice_blank : NewDevice Device.blank := by
  have hpath : ∀ c js t, descend (child (Device.blank.machine c)) c js = some t → js = [] ∧ t = c := by
    intro c js t h
    obtain rfl := eq_nil_of_descend_clear (m := Device.blank.machine c) (fun _ => rfl) h
    exact ⟨rfl, (Option.some.inj h).symm⟩
  have hfile : ∀ i file, Device.blank.files i = some file → file.cr3 = if i then 8 else 7 := by
    intro i file hi
    rw [← Option.some.inj hi]
  refine ⟨fun i file hi => ⟨⟨⟨0, 0, 0, 0, 0⟩, ?_⟩, ?_, ?_⟩, fun i file hi v hv => ?_,
    fun i j file file' hij hi hj f ho hu => ?_⟩
  · rw [← Option.some.inj hi]
    rfl
  · intro is js t _ _ h₁ h₂
    rw [(hpath _ is t h₁).1, (hpath _ js t h₂).1]
  · rintro f ⟨js, -, hf⟩
    rw [(hpath _ js f hf).2, hfile i file hi]
    show _ ∈ [7, 8]
    cases i <;> simp
  · rw [translate_of_canonical hv.canonical]
    by_contra hmapped
    obtain ⟨f, hf⟩ := Option.ne_none_iff_exists'.mp hmapped
    exact absurd (hpath _ _ _ hf).1 (by simp [pagePath])
  · obtain ⟨js, -, hf⟩ := ho
    obtain ⟨js', -, hf'⟩ := hu
    have hsame := (hpath _ _ _ hf).2.symm.trans (hpath _ _ _ hf').2
    rw [hfile i file hi, hfile j file' hj] at hsame
    revert hij hsame
    cases i <;> cases j <;> decide

/-- Both processes are there, and have the first page. -/
def Ready (d : Device Bool) : Prop :=
  (∃ M, DeviceSees d M) ∧ ∀ i, ∃ file, d.files i = some file ∧ petmemFindAddress file.privateData firstAddr ≠ none

section

variable {d : Device Bool} {i : Bool}

theorem Ready.after (h : Ready d) {file : OpenFile} (hi : d.files i = some file) {call : UserCall} {st : Process}
    {T : Tlb} (hstep : UserStep directMapPage .bump (some (d.process file)) call (some (st, T)))
    (hcare : Careful (some (d.process file)) call) (hmap : petmemFindAddress st.map firstAddr ≠ none) :
    Guard DeviceCareful (DeviceStep directMapPage .bump) d (i, call) (d.after i (some (st, T))) ∧
      Ready (d.after i (some (st, T))) := by
  obtain ⟨⟨M, hM⟩, hfiles⟩ := h
  have hcare' : DeviceCareful d (i, call) := by
    simpa only [DeviceCareful, hi, Option.map_some] using hcare
  have hdev : DeviceStep directMapPage .bump d (i, call) (d.after i (some (st, T))) := ⟨file, _, hi, hstep, rfl⟩
  obtain ⟨N, -, hN⟩ := hM.step Kernel.bump_fresh hcare' hdev
  refine ⟨⟨hcare', hdev⟩, ⟨_, hN⟩, fun j => ?_⟩
  by_cases hji : j = i
  · subst hji
    exact ⟨⟨st.map, st.m.cr3, T⟩, Function.update_self .., hmap⟩
  · obtain ⟨file', hj, hfind⟩ := hfiles j
    exact ⟨file', by rw [← hj]; exact Function.update_of_ne hji .., hfind⟩

theorem Ready.store (h : Ready d) (i : Bool) (w : Entry) :
    ∃ d', Guard DeviceCareful (DeviceStep directMapPage .bump) d (i, .store firstAddr w) d' ∧ Ready d' := by
  obtain ⟨⟨M, hM⟩, hfiles⟩ := id h
  obtain ⟨file, hi, hfind⟩ := hfiles i
  obtain ⟨st, T, f, htouch⟩ : ∃ st T f, Touch directMapPage .bump firstAddr (d.process file) (some (st, T, f)) :=
    (hM.sees i file hi).exists_touch Kernel.bump_fresh hfind
  have hmap : st.map = file.privateData := htouch.map_eq
  exact ⟨_, h.after hi (UserStep.store w htouch) (Or.inl hfind) (by rwa [← hmap] at hfind)⟩

theorem Ready.load (h : Ready d) (i : Bool) :
    ∃ w d', Guard DeviceCareful (DeviceStep directMapPage .bump) d (i, .load firstAddr w) d' := by
  obtain ⟨⟨M, hM⟩, hfiles⟩ := id h
  obtain ⟨file, hi, hfind⟩ := hfiles i
  obtain ⟨st, T, f, htouch⟩ : ∃ st T f, Touch directMapPage .bump firstAddr (d.process file) (some (st, T, f)) :=
    (hM.sees i file hi).exists_touch Kernel.bump_fresh hfind
  have hmap : st.map = file.privateData := htouch.map_eq
  exact ⟨_, _, (h.after hi (UserStep.load htouch) (Or.inl hfind) (by rwa [← hmap] at hfind)).1⟩

end

/-- Both processes allocate two pages, and have the same address for them. -/
def mallocCalls : List (Bool × UserCall) := [(false, .malloc 8192 0x1000000000), (true, .malloc 8192 0x1000000000)]

theorem exists_ready : ∃ d, Exec (Guard DeviceCareful (DeviceStep directMapPage .bump)) Device.blank mallocCalls d ∧
    Ready d := by
  have haddr : (petMalloc Process.blank.map 8192).1 = 0x1000000000 := by decide +kernel
  have hfind : petmemFindAddress (petMalloc Process.blank.map 8192).2 firstAddr ≠ none := by decide +kernel
  have hzero : ¬ ZeroPages 8192 := by
    rw [← lazyAllocPages_eq_zero_iff]
    decide
  have hmalloc : ∀ m, UserStep directMapPage .bump (some (⟨Process.blank.map, m⟩, ∅)) (.malloc 8192 0x1000000000)
      (some (⟨(petMalloc Process.blank.map 8192).2, m⟩, ∅)) := by
    intro m
    rw [← haddr]
    exact .malloc 8192 ⟨[], rfl, .nil⟩
  have hcare : ∀ m, Careful (some (⟨Process.blank.map, m⟩, ∅)) (.malloc 8192 0x1000000000) :=
    fun m => ⟨hzero, fun p hp => absurd hp (Set.notMem_empty p)⟩
  have hrun : Exec (Guard DeviceCareful (DeviceStep directMapPage .bump)) Device.blank mallocCalls
      ((Device.blank.after false (some (⟨(petMalloc Process.blank.map 8192).2, Device.blank.machine 7⟩, ∅))).after true
        (some (⟨(petMalloc Process.blank.map 8192).2, Device.blank.machine 8⟩, ∅))) := by
    refine exec_cons_iff.mpr ⟨_, ⟨hcare _, _, _, rfl, hmalloc _, rfl⟩, ?_⟩
    exact .single ⟨hcare _, _, _, rfl, hmalloc _, rfl⟩
  obtain ⟨M, -, hM⟩ := deviceSees_of_run Kernel.bump_fresh newDevice_blank hrun
  refine ⟨_, hrun, ⟨M, hM⟩, fun i => ?_⟩
  cases i with
  | false => exact ⟨_, rfl, hfind⟩
  | true => exact ⟨_, rfl, hfind⟩

/-- Process `false` stores a word, and then so does process `true`, at the same address. -/
def bothStore (w w' : Entry) : List (Bool × UserCall) :=
  mallocCalls ++ [(false, .store firstAddr w)] ++ [(true, .store firstAddr w')]

theorem exists_oneStore (w : Entry) : ∃ d, Exec (Guard DeviceCareful (DeviceStep directMapPage .bump))
    Device.blank (mallocCalls ++ [(false, .store firstAddr w)]) d ∧ Ready d := by
  obtain ⟨d, hrun, hready⟩ := exists_ready
  obtain ⟨d', hstep, hready'⟩ := hready.store false w
  exact ⟨d', .snoc hrun hstep, hready'⟩

theorem exists_bothStore (w w' : Entry) : ∃ d,
    Exec (Guard DeviceCareful (DeviceStep directMapPage .bump)) Device.blank (bothStore w w') d ∧ Ready d := by
  obtain ⟨d, hrun, hready⟩ := exists_oneStore w
  obtain ⟨d', hstep, hready'⟩ := hready.store true w'
  exact ⟨d', .snoc hrun hstep, hready'⟩

/-! ### Isolation -/

/-- **Each process runs as on a memory of its own**, whatever the others do: its calls and
accesses, by themselves, are a run on a memory made of objects, which is what it sees; and no
page is one of two processes. -/
theorem files_isolated (va : ℕ → ℕ) (K : Kernel) (hK : ∀ m, ∃ f, K.getZeroedPage m = some f ∧ f ∉ m.allocated)
    (d₀ : Device ι) (h₀ : NewDevice d₀) (calls : List (ι × UserCall)) (d : Device ι)
    (hrun : Exec (Guard DeviceCareful (DeviceStep va K)) d₀ calls d) :
    (∃ M : ι → ObjMem ℕ ℕ Entry, ∀ i,
      Exec (MemStep Entry.zero) (.empty Entry.zero) ((labelsOf i calls).filterMap UserCall.event) (M i) ∧
        ∀ file, d.files i = some file → Sees (d.process file) (M i)) ∧
    ∀ i j file file', i ≠ j → d.files i = some file → d.files j = some file' → ∀ v w f, InRegion v → InRegion w →
      translate (d.machine file.cr3) v = some f → translate (d.machine file'.cr3) w ≠ some f := by
  obtain ⟨M, hM, hsees⟩ := deviceSees_of_run hK h₀ hrun
  exact ⟨⟨M, fun i => ⟨hM i, hsees.sees i⟩⟩,
    fun i j file file' hij hi hj v w f hv hw hf => hsees.pages_apart hij hi hj hv hw hf⟩

/-- Two processes store at one address. -/
theorem files_isolated_two : ∃ d, Exec (Guard DeviceCareful (DeviceStep directMapPage .bump)) Device.blank
    (bothStore Entry.zero ⟨true, true, true, true, 6⟩) d ∧ ∃ M : Bool → ObjMem ℕ ℕ Entry, ∀ i,
      Exec (MemStep Entry.zero) (.empty Entry.zero)
        ((labelsOf i (bothStore Entry.zero ⟨true, true, true, true, 6⟩)).filterMap UserCall.event) (M i) := by
  obtain ⟨d, hrun, -⟩ := exists_bothStore Entry.zero ⟨true, true, true, true, 6⟩
  obtain ⟨⟨M, hM⟩, -⟩ := files_isolated directMapPage .bump Kernel.bump_fresh Device.blank newDevice_blank _ d hrun
  exact ⟨d, hrun, M, fun i => (hM i).1⟩

/-! ### What is read -/

/-- **What a process reads it has stored itself**, since the `pet_malloc` of the segment, or it is
zero and the process has stored nothing there since. -/
theorem load_own (va : ℕ → ℕ) (K : Kernel) (hK : ∀ m, ∃ f, K.getZeroedPage m = some f ∧ f ∉ m.allocated)
    (d₀ : Device ι) (h₀ : NewDevice d₀) (calls : List (ι × UserCall)) (i : ι) (v : RegionAddr) (w : Entry)
    (d : Device ι) (hrun : Exec (Guard DeviceCareful (DeviceStep va K)) d₀ (calls ++ [(i, .load v w)]) d) :
    ∃ size addr before since, labelsOf i calls = before ++ .malloc size addr :: since ∧ addr ≠ 0 ∧
      (v : ℕ) / 8 ∈ words addr.toNat (4096 * (lazyAllocPages size).toNat) ∧ .free addr ∉ since ∧
      ((w = Entry.zero ∧ NoStore since ((v : ℕ) / 8)) ∨
        ∃ (u : RegionAddr) (mid after : List UserCall), since = mid ++ .store u w :: after ∧
          (u : ℕ) / 8 = (v : ℕ) / 8 ∧ NoStore after ((v : ℕ) / 8)) := by
  obtain ⟨M, hM, -⟩ := deviceSees_of_run hK h₀ hrun
  have h := hM i
  rw [labelsOf_concat_self] at h
  exact stored_of_events h

/-- What the other process has stored at the address is not read. -/
theorem load_own_two : ∃ w d, Exec (Guard DeviceCareful (DeviceStep directMapPage .bump)) Device.blank
    (bothStore ⟨true, false, true, false, 5⟩ ⟨true, true, true, true, 6⟩ ++ [(false, .load firstAddr w)]) d ∧
      w = ⟨true, false, true, false, 5⟩ := by
  obtain ⟨d, hrun, hready⟩ := exists_bothStore ⟨true, false, true, false, 5⟩ ⟨true, true, true, true, 6⟩
  obtain ⟨w, d', hstep⟩ := hready.load false
  have hload := hrun.snoc hstep
  obtain ⟨size, addr, before, since, hcalls, -, -, -, hlast⟩ := load_own directMapPage .bump Kernel.bump_fresh
    Device.blank newDevice_blank _ false firstAddr w d' hload
  exact ⟨w, d', hload, word_of_storeCalls hcalls hlast⟩

/-! ### What is answered -/

/-- **A process cannot tell that it is not alone**: in two runs, of different devices with
different processes, page allocators and orders of the calls, in which one process makes the
same calls and accesses, it has the same answers. -/
theorem files_alone (va va' : ℕ → ℕ) (K K' : Kernel)
    (hK : ∀ m, ∃ f, K.getZeroedPage m = some f ∧ f ∉ m.allocated)
    (hK' : ∀ m, ∃ f, K'.getZeroedPage m = some f ∧ f ∉ m.allocated)
    (d₀ d : Device ι) (h₀ : NewDevice d₀) (calls : List (ι × UserCall))
    (hrun : Exec (Guard DeviceCareful (DeviceStep va K)) d₀ calls d)
    (d₀' d' : Device ι') (h₀' : NewDevice d₀') (calls' : List (ι' × UserCall))
    (hrun' : Exec (Guard DeviceCareful (DeviceStep va' K')) d₀' calls' d')
    (i : ι) (i' : ι') (hlike : List.Forall₂ UserCall.Like (labelsOf i calls) (labelsOf i' calls')) :
    labelsOf i calls = labelsOf i' calls' := by
  obtain ⟨M, hM, -⟩ := deviceSees_of_run hK h₀ hrun
  obtain ⟨M', hM', -⟩ := deviceSees_of_run hK' h₀' hrun'
  obtain ⟨junk, map, hmap, -⟩ := maps_of_run h₀ hrun i
  obtain ⟨junk', map', hmap', -⟩ := maps_of_run h₀' hrun' i'
  exact eq_of_like hlike (sameMap_init junk junk') ⟨rfl, fun _ _ => rfl⟩ hmap hmap' (hM i) (hM' i')

/-- Whether the other process stores or not, the word that is read is the same. -/
theorem files_alone_two : ∃ u u' d d',
    Exec (Guard DeviceCareful (DeviceStep directMapPage .bump)) Device.blank
      (bothStore Entry.zero ⟨true, true, true, true, 6⟩ ++ [(false, .load firstAddr u)]) d ∧
    Exec (Guard DeviceCareful (DeviceStep directMapPage .bump)) Device.blank
      (mallocCalls ++ [(false, .store firstAddr Entry.zero)] ++ [(false, .load firstAddr u')]) d' ∧ u = u' := by
  obtain ⟨d₁, hrun, hready⟩ := exists_bothStore Entry.zero ⟨true, true, true, true, 6⟩
  obtain ⟨u, d, hstep⟩ := hready.load false
  obtain ⟨d₂, hrun', hready'⟩ := exists_oneStore Entry.zero
  obtain ⟨u', d', hstep'⟩ := hready'.load false
  refine ⟨u, u', d, d', hrun.snoc hstep, hrun'.snoc hstep', ?_⟩
  have h := files_alone directMapPage directMapPage .bump .bump Kernel.bump_fresh Kernel.bump_fresh Device.blank d
    newDevice_blank _ (hrun.snoc hstep) Device.blank d' newDevice_blank _ (hrun'.snoc hstep') false false
    (.cons rfl (.cons ⟨rfl, rfl⟩ (.cons rfl .nil)))
  simpa [labelsOf, bothStore, mallocCalls] using h

end PetLab.VMproject
