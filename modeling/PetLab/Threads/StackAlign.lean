import PetLab.Threads.ContextSwitch

/-!
# The alignment of the stack

The calling convention has `rsp`, in bytes, at `8` modulo `16` whenever a C function is entered. The assembly
enters `pet_thread_cleanup` on the stack it has switched to, the function of a thread by the last
`ret` of the first switch to it, and `__quarantine` from `__capture_return`.

If the C code keeps to the convention (`AbiCall`), the context of a new thread is at a multiple of 16,
and one that was pushed is not: a call and fourteen pushes move `rsp` by an odd number of words. So it
depends on whether the thread has run before (`History`) how `pet_thread_cleanup` is entered
(`AlignInv.enters_iff`).
-/

namespace PetLab.Threads

open PetLab.Lib

/-- A C function is entered as the calling convention has it. A word is 8 bytes. -/
def EntryAligned (c : Cpu Reg) : Prop := 8 * c.reg .rsp % 16 = 8

/-- What `__switch_to_stack` does until `pet_thread_cleanup` is entered. -/
def toCleanup (x : Text) (back : ℕ) : List (Instr Reg) :=
  (.call x.switchToStack back :: switchOut) ++
    [.load .rdi .rsp, .mov .rdx .rdi, .mov .rcx .rsi, .call x.petThreadCleanup x.afterCleanup]

/-- The rest of it. -/
def fromCleanup : List (Instr Reg) := [.body, .ret] ++ restoreRegisters.map .pop ++ [.ret]

/-- The processor at the entry of `pet_thread_cleanup`. -/
def cleanupEntry (x : Text) (c : Cpu Reg) : Cpu Reg := (toCleanup x (c.reg .rip)).foldl (Instr.apply x86) c

theorem switchToStack_eq (x : Text) (back : ℕ) :
    .call x.switchToStack back :: switchToStack x = toCleanup x back ++ fromCleanup := rfl

/-- The threads, and which of them have run. -/
structure History where
  /-- The processor and the threads. -/
  world : World
  /-- The threads that have run. -/
  begun : Finset ℕ

/-- The calling convention holds when `main` is entered, with its return address in the word `base`. -/
structure History.Start (h : History) : Prop where
  init : h.world.Initial
  begun : h.begun = {0}
  main : 8 * h.world.top.base % 16 = 8

/-- `calloc` gives memory at a multiple of 16, and C code calls with `rsp` at a multiple of 16. -/
def AbiCall (w : World) : Move → Prop
  | .create _ _ s => 8 * s.lo % 16 = 0
  | .switch _ _ => 8 * w.cpu.reg .rsp % 16 = 0
  | _ => True

/-- The threads that have run after a move. -/
def History.begins (h : History) : Move → Finset ℕ
  | .switch t _ => insert t h.begun
  | _ => h.begun

/-- One move. -/
def History.Step (x : Text) (h : History) (m : Move) (h' : History) : Prop :=
  AbiCall h.world m ∧ h.world.Step x m h'.world ∧ h'.begun = h.begins m

/-- Every C function that the assembly enters in a move is entered as the calling convention has it. -/
def EntersAligned (x : Text) (h : History) (m : Move) (h' : History) : Prop :=
  match m with
  | .switch t _ => EntryAligned (cleanupEntry x h.world.cpu) ∧ (t ∉ h.begun → EntryAligned h'.world.cpu)
  | .capture => EntryAligned h'.world.cpu
  | _ => True

/-- What holds of every reachable state. -/
structure AlignInv (h : History) : Prop where
  world : WorldInv h.world
  /-- The first return address of a thread is at `8` modulo `16`. -/
  base : ∀ t ∈ h.world.live, (h.world.stack t).base % 2 = 1
  begun : ∀ t ∈ h.begun, t < h.world.threadIdCount
  running : h.world.running ∈ h.begun
  /-- A thread that has not run has its first context, below the return address, -/
  fresh : ∀ t ∈ h.world.live, t ∉ h.begun →
    h.world.cpu.mem (h.world.stack t).cell + 15 = (h.world.stack t).base
  /-- and one that has, has a context that was pushed. -/
  resumed : ∀ t ∈ h.world.live, t ≠ h.world.running → t ∈ h.begun →
    h.world.cpu.mem (h.world.stack t).cell % 2 = 1

section

variable {x : Text} {w w' : World} {h h' h₀ : History} {m : Move} {t : ℕ} {exits : Bool}

theorem History.Start.inv (hs : h.Start) : AlignInv h := by
  obtain ⟨hinit, hbegun, hmain⟩ := hs
  have hlive : ∀ t ∈ h.world.live, t = h.world.running := by
    intro t ht
    rw [hinit.live, Finset.mem_singleton] at ht
    rw [ht, hinit.running]
  have hrunning : h.world.running ∈ h.begun := by simp [hbegun, hinit.running]
  refine ⟨hinit.inv, fun t ht => ?_, fun t ht => ?_, hrunning, fun t ht hne => ?_, fun t ht hne => ?_⟩
  · have hmain : 8 * (h.world.stack h.world.running).base % 16 = 8 := hmain
    rw [hlive t ht]
    omega
  · rw [hbegun, Finset.mem_singleton] at ht
    rw [ht, hinit.count]
    exact Nat.one_pos
  · exact absurd (hlive t ht ▸ hrunning) hne
  · exact absurd (hlive t ht) hne

/-! ### The entries -/

/-- A switch goes through `cleanupEntry`. -/
theorem World.Step.cleanupEntry (h : w.Step x (.switch t exits) w') :
    Exec (Instr.Step x86 (Body (Protected (w.left exits) w.stack t))) (cleanupEntry x w.cpu) fromCleanup w'.cpu := by
  obtain ⟨-, c, hexec, rfl⟩ := h
  rw [switchToStack_eq] at hexec
  obtain ⟨c₁, hto, hfrom⟩ := exec_append.mp hexec
  rwa [exec_eq_foldl hto (by simp [toCleanup, switchOut, saveRegisters])] at hfrom

/-- `pet_thread_cleanup` is entered right below the context of the thread that is switched to. -/
theorem AtCall.cleanupEntry (hw : WorldInv w) (hcall : AtCall w t) :
    (cleanupEntry x w.cpu).reg .rip = x.petThreadCleanup ∧
      (cleanupEntry x w.cpu).reg .rsp = w.cpu.mem (w.stack t).cell - 1 := by
  obtain ⟨c, hc⟩ : ∃ c, c = (Instr.call x.switchToStack (w.cpu.reg .rip) :: switchOut).foldl (Instr.apply x86) w.cpu :=
    ⟨_, rfl⟩
  have hout : Exec (Instr.Step x86 Eq) w.cpu (.call x.switchToStack (w.cpu.reg .rip) :: switchOut) c := by
    rw [hc]
    exact exec_apply (fun _ => rfl) _ _
  obtain ⟨hrdi, -, -, hmem⟩ := hcall.saves hw hout
  have hcell : c.mem (c.reg .rdi) = w.cpu.mem (w.stack t).cell := by
    rw [hrdi]
    exact hmem _ (hw.apart t hcall.live _ hw.running hcall.ne _ (.inr rfl))
  have hentry : Threads.cleanupEntry x w.cpu =
      [Instr.load Reg.rdi Reg.rsp, .mov .rdx .rdi, .mov .rcx .rsi, .call x.petThreadCleanup x.afterCleanup].foldl
        (Instr.apply x86) c := by
    rw [hc, Threads.cleanupEntry, toCleanup, List.foldl_append]
  rw [hentry, ← hcell]
  exact ⟨Cpu.call_ip (P := x86), Cpu.call_sp (P := x86)⟩

/-- A switch enters its functions as the convention has it exactly if the thread has not run before. -/
theorem AlignInv.switch_iff (hI : AlignInv h) (hs : h.Step x (.switch t exits) h') :
    EntersAligned x h (.switch t exits) h' ↔ t ∉ h.begun := by
  obtain ⟨-, hstep, -⟩ := hs
  have hlive := hstep.1.live
  obtain ⟨f, hf⟩ := hI.world.parked t hlive hstep.1.ne
  have hentry := (hstep.1.cleanupEntry (x := x) hI.world).2
  have hrsp : h'.world.cpu.reg .rsp = f .rsp := (switch_spec hI.world hstep hf).resumes .rsp (by decide)
  have hrsp' := hf.rsp
  have hlo := hf.lo
  have hbase := hI.base t hlive
  simp only [EntersAligned, EntryAligned, hentry, hrsp, hrsp']
  by_cases ht : t ∈ h.begun
  · have := hI.resumed t hlive hstep.1.ne ht
    simp only [ht, not_true_eq_false, false_implies, and_true, iff_false]
    omega
  · have := hI.fresh t hlive ht
    simp only [ht, not_false_eq_true, true_implies, iff_true]
    omega

/-- `__quarantine` is entered as the convention has it. -/
theorem AlignInv.capture (hI : AlignInv h) (hs : h.Step x .capture h') : EntryAligned h'.world.cpu := by
  obtain ⟨-, ⟨-, hsp, hw'⟩, -⟩ := hs
  have hbase := hI.base _ hI.world.running
  have hrsp : h'.world.cpu.reg .rsp = h.world.cpu.reg .rsp - 1 := by
    rw [hw']
    exact Cpu.call_sp (P := x86)
  have htop : h.world.cpu.reg .rsp = (h.world.stack h.world.running).base + 1 := hsp
  unfold EntryAligned
  omega

/-- **One move** enters its functions as the convention has it exactly if it is no switch to a thread that has run. -/
theorem AlignInv.enters_iff (hI : AlignInv h) (hs : h.Step x m h') :
    EntersAligned x h m h' ↔ ∀ t e, m = .switch t e → t ∉ h.begun := by
  cases m with
  | switch t exits => simpa using hI.switch_iff hs
  | capture => simpa [EntersAligned] using hI.capture hs
  | own => simp [EntersAligned]
  | create func arg s => simp [EntersAligned]
  | ret u => simp [EntersAligned]

/-! ### The invariant -/

/-- A move that neither creates nor switches. -/
theorem AlignInv.of_cpu (hI : AlignInv h) (hstep : h.world.Step x m h'.world) (hbegun : h'.begun = h.begun)
    (hrun : h'.world.running = h.world.running) (hlive : h'.world.live = h.world.live)
    (hcount : h'.world.threadIdCount = h.world.threadIdCount) (hstack : h'.world.stack = h.world.stack)
    (hm : ∀ t e, m ≠ .switch t e) : AlignInv h' := by
  have hcell : ∀ t ∈ h.world.live, t ≠ h.world.running →
      h'.world.cpu.mem (h.world.stack t).cell = h.world.cpu.mem (h.world.stack t).cell := fun t ht hne =>
    (hstep.keeps hI.world ht hne (hm t)).2.2.2 _ (.inr rfl)
  refine ⟨hI.world.step hstep, ?_, ?_, ?_, ?_, ?_⟩ <;> simp only [hbegun, hrun, hlive, hcount, hstack]
  · exact hI.base
  · exact hI.begun
  · exact hI.running
  · intro t ht hne
    rw [hcell t ht fun hr => hne (hr ▸ hI.running)]
    exact hI.fresh t ht hne
  · intro t ht hne hb
    rw [hcell t ht hne]
    exact hI.resumed t ht hne hb

theorem AlignInv.create {func arg : ℕ} {s : Stack} (hI : AlignInv h) (hs : h.Step x (.create func arg s) h') :
    AlignInv h' := by
  obtain ⟨habi, hstep, hbegun⟩ := hs
  have hbegun : h'.begun = h.begun := hbegun
  have halign : 8 * s.lo % 16 = 0 := habi
  obtain ⟨hparked, -, hstack⟩ := hstep.2.1.parked hstep
  have hrsp : s.base = h'.world.cpu.mem (h'.world.stack h.world.threadIdCount).cell + 15 := hparked.rsp
  have hsize := hstep.2.1.size
  rw [numEntries_eq] at hsize
  have hnew : ∀ t ∈ h'.world.live, t ≠ h.world.threadIdCount → t ∈ h.world.live := by
    intro t ht hne
    rw [hstep.2.2] at ht
    exact (Finset.mem_insert.mp ht).resolve_left hne
  have hold : ∀ t ∈ h.world.live, h'.world.stack t = h.world.stack t := by
    intro t ht
    rw [hstep.2.2]
    exact Function.update_of_ne (hI.world.lt t ht).ne _ _
  have hcell : ∀ t ∈ h.world.live, t ≠ h.world.running →
      h'.world.cpu.mem (h.world.stack t).cell = h.world.cpu.mem (h.world.stack t).cell := fun t ht hne =>
    (hstep.keeps hI.world ht hne (by simp)).2.2.2 _ (.inr rfl)
  have hrun : h'.world.running = h.world.running := by rw [hstep.2.2]
  have hcount : h'.world.threadIdCount = h.world.threadIdCount + 1 := by rw [hstep.2.2]
  refine ⟨hI.world.step hstep, fun t ht => ?_, fun t ht => ?_, ?_, fun t ht hne => ?_, fun t ht hne hb => ?_⟩
  · by_cases htn : t = h.world.threadIdCount
    · rw [htn, hstack]
      omega
    · rw [hold t (hnew t ht htn)]
      exact hI.base t (hnew t ht htn)
  · rw [hcount]
    exact Nat.lt_succ_of_lt (hI.begun t (hbegun ▸ ht))
  · rw [hrun, hbegun]
    exact hI.running
  · by_cases htn : t = h.world.threadIdCount
    · rw [htn, ← hrsp, hstack]
    · have htl := hnew t ht htn
      rw [hbegun] at hne
      rw [hold t htl, hcell t htl fun hr => hne (hr ▸ hI.running)]
      exact hI.fresh t htl hne
  · rw [hbegun] at hb
    have htl := hnew t ht (hI.begun t hb).ne
    rw [hrun] at hne
    rw [hold t htl, hcell t htl hne]
    exact hI.resumed t htl hne hb

theorem AlignInv.switch (hI : AlignInv h) (hs : h.Step x (.switch t exits) h') : AlignInv h' := by
  obtain ⟨habi, hstep, hbegun⟩ := hs
  have hbegun : h'.begun = insert t h.begun := hbegun
  have halign : 8 * h.world.cpu.reg .rsp % 16 = 0 := habi
  obtain ⟨f, hf⟩ := hI.world.parked t hstep.1.live hstep.1.ne
  have hsw := switch_spec hI.world hstep hf
  have hlive : ∀ s ∈ h'.world.live, s ∈ h.world.live := by
    intro s hs
    rw [hsw.live] at hs
    exact mem_of_mem_left hs
  have hcell : ∀ s ∈ h'.world.live, s ≠ t → s ≠ h.world.running →
      h'.world.cpu.mem (h.world.stack s).cell = h.world.cpu.mem (h.world.stack s).cell := fun s hs hst hsr =>
    hsw.others s hs hst hsr _ (.inr rfl)
  refine ⟨hI.world.step hstep, ?_, ?_, ?_, ?_, ?_⟩ <;> simp only [hbegun, hsw.running, hsw.count, hsw.stack]
  · exact fun s hs => hI.base s (hlive s hs)
  · intro s hs
    rcases Finset.mem_insert.mp hs with rfl | hs
    · exact hI.world.lt s hstep.1.live
    · exact hI.begun s hs
  · exact Finset.mem_insert_self ..
  · intro s hs hne
    obtain ⟨hst, hsb⟩ := not_or.mp (Finset.mem_insert.not.mp hne)
    rw [hcell s hs hst fun hr => hsb (hr ▸ hI.running)]
    exact hI.fresh s (hlive s hs) hsb
  · intro s hs hne hb
    have hsb := (Finset.mem_insert.mp hb).resolve_left hne
    by_cases hsr : s = h.world.running
    · -- it has just pushed its context
      subst hsr
      rw [hsw.live] at hs
      have hrsp := (hsw.parks (eq_false_of_running_mem_left hs)).rsp
      rw [hsw.stack] at hrsp
      omega
    · rw [hcell s hs hne hsr]
      exact hI.resumed s (hlive s hs) hsr hsb

/-- **The invariant** is kept by every move. -/
theorem AlignInv.step (hI : AlignInv h) (hs : h.Step x m h') : AlignInv h' := by
  cases m with
  | own =>
    obtain ⟨-, hstep, hbegun⟩ := hs
    obtain ⟨-, c, -, -, -, hw'⟩ := id hstep
    exact hI.of_cpu hstep hbegun (by rw [hw']) (by rw [hw']) (by rw [hw']) (by rw [hw']) (by simp)
  | create func arg s => exact hI.create hs
  | switch t exits => exact hI.switch hs
  | ret u =>
    obtain ⟨-, hstep, hbegun⟩ := hs
    obtain ⟨-, -, hw'⟩ := id hstep
    exact hI.of_cpu hstep hbegun (by rw [hw']) (by rw [hw']) (by rw [hw']) (by rw [hw']) (by simp)
  | capture =>
    obtain ⟨-, hstep, hbegun⟩ := hs
    obtain ⟨-, -, hw'⟩ := id hstep
    exact hI.of_cpu hstep hbegun (by rw [hw']) (by rw [hw']) (by rw [hw']) (by rw [hw']) (by simp)

/-! ### Runs -/

/-- **Alignment.** The runs in which every C function is entered as the calling convention has it are those in which
no thread is switched to that has run before. -/
theorem entries_aligned_iff (x : Text) (hstart : h₀.Start) (ms : List Move) (h : History) :
    Exec (fun h m h' => h.Step x m h' ∧ EntersAligned x h m h') h₀ ms h ↔
      Exec (Guard (fun h m => ∀ t e, m = .switch t e → t ∉ h.begun) (History.Step x)) h₀ ms h :=
  exec_and_iff_guard hstart.inv (fun _ _ _ hI hs => hI.step hs) fun _ _ _ hI hs => hI.enters_iff hs

/-- The main thread, as the C runtime enters it. -/
def mainHistory : History where
  world := { mainWorld with stack := fun _ => ⟨1, 1001, 2000⟩ }
  begun := {0}

theorem mainHistory_start : mainHistory.Start := ⟨⟨rfl, rfl, rfl, by decide, by decide⟩, rfl, by decide⟩

/-- The main thread can create a thread and switch to it. -/
theorem mainHistory_exec : ∃ h, Exec (Guard (fun h m => ∀ t e, m = .switch t e → t ∉ h.begun) (History.Step x))
      mainHistory [.create 77 88 ⟨3000, 19383, 20000⟩, .own, .switch 1 false] h ∧
    0 ∈ h.world.live ∧ h.world.running = 1 ∧ h.begun = {1, 0} ∧ h.world.top = ⟨3000, 19383, 20000⟩ ∧
      h.world.cpu.reg .rsp = 19383 := by
  have hfresh : Fresh mainHistory.world ⟨3000, 19383, 20000⟩ := by
    refine ⟨rfl, by decide, fun t _ a ha => ?_⟩
    simp only [Stack.Owns, mainHistory] at ha ⊢
    omega
  obtain ⟨w₁, w₂, w₃, hcreate, hown, hsp, -, hsw, hlive, hrun, htop, hrsp⟩ :=
    mainHistory_start.inv.world.exists_start (x := x) 77 88 1000 hfresh (by decide) (by decide) (by decide)
  refine ⟨⟨w₃, {1, 0}⟩, ?_, hlive, hrun, rfl, htop, hrsp⟩
  have h₁ : History.Step x mainHistory (.create 77 88 ⟨3000, 19383, 20000⟩) ⟨w₁, {0}⟩ :=
    ⟨show 8 * 3000 % 16 = 0 by decide, hcreate, rfl⟩
  have h₂ : History.Step x ⟨w₁, {0}⟩ .own ⟨w₂, {0}⟩ := ⟨trivial, hown, rfl⟩
  have h₃ : History.Step x ⟨w₂, {0}⟩ (.switch 1 false) ⟨w₃, {1, 0}⟩ :=
    ⟨show 8 * w₂.cpu.reg .rsp % 16 = 0 by rw [hsp], hsw, rfl⟩
  refine .snoc (.snoc (.single ⟨by simp, h₁⟩) ⟨by simp, h₂⟩) ⟨fun t e he => ?_, h₃⟩
  obtain ⟨rfl, -⟩ := Move.switch.inj he
  show 1 ∉ ({0} : Finset ℕ)
  decide

/-- The main thread creates a thread and switches to it. -/
theorem entries_aligned_first_switch : ∃ h, Exec (fun h m h' => h.Step ⟨1, 2, 3, 4, 5, 6⟩ m h' ∧
    EntersAligned ⟨1, 2, 3, 4, 5, 6⟩ h m h') mainHistory
      [.create 77 88 ⟨3000, 19383, 20000⟩, .own, .switch 1 false] h := by
  obtain ⟨h, hexec, -⟩ := mainHistory_exec (x := ⟨1, 2, 3, 4, 5, 6⟩)
  exact ⟨h, (entries_aligned_iff _ mainHistory_start _ h).mpr hexec⟩

/-- The thread switches back, and `pet_thread_cleanup` is entered with `rsp` at a multiple of 16. -/
theorem cleanup_misaligned_switch_back : ∃ h h', mainHistory.Start ∧
    Exec (History.Step ⟨1, 2, 3, 4, 5, 6⟩) mainHistory
      [.create 77 88 ⟨3000, 19383, 20000⟩, .own, .switch 1 false, .own] h ∧
    h.Step ⟨1, 2, 3, 4, 5, 6⟩ (.switch 0 false) h' ∧
      ¬ EntryAligned (cleanupEntry ⟨1, 2, 3, 4, 5, 6⟩ h.world.cpu) := by
  obtain ⟨h, hexec, hlive, hrun, hbegun, htop, hrsp⟩ := mainHistory_exec (x := ⟨1, 2, 3, 4, 5, 6⟩)
  have hexec := hexec.mono fun _ _ _ hs => hs.2
  obtain ⟨w₁, w₂, hown, -, -, hsp, hsw⟩ := exists_switch (x := ⟨1, 2, 3, 4, 5, 6⟩) 19382 false hlive
    (by rw [hrun]; decide) (by rw [htop]; decide) (by rw [htop]; decide) (by rw [htop, hrsp])
  have h₁ : h.Step ⟨1, 2, 3, 4, 5, 6⟩ .own ⟨w₁, h.begun⟩ := ⟨trivial, hown, rfl⟩
  have h₂ : History.Step ⟨1, 2, 3, 4, 5, 6⟩ ⟨w₁, h.begun⟩ (.switch 0 false) ⟨w₂, insert 0 h.begun⟩ :=
    ⟨show 8 * w₁.cpu.reg .rsp % 16 = 0 by rw [hsp], hsw, rfl⟩
  have hrun₁ := Exec.snoc hexec h₁
  have hI : AlignInv ⟨w₁, h.begun⟩ := hrun₁.inv mainHistory_start.inv fun _ _ _ hI hs => hI.step hs
  have hzero : 0 ∈ h.begun := by simp [hbegun]
  refine ⟨_, _, mainHistory_start, hrun₁, h₂, fun hentry => ?_⟩
  exact (hI.switch_iff h₂).mp ⟨hentry, fun hne => absurd hzero hne⟩ hzero

end

end PetLab.Threads
