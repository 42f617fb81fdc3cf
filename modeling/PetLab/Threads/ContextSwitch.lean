import Mathlib.Data.Finset.Basic
import PetLab.Threads.SwitchStack

/-!
# Switching between threads

Any number of threads, each with its own stack and a word `stack_rsp`, on one processor.
A thread runs its own code, creates threads, and calls `__switch_to_stack` to go
on with another thread. Which thread that is does not matter here, so that every order the
scheduler could choose is among the runs of `World.Step`.

What is assumed of the code of a thread, and of the C functions called on its stack, is where they write:
on their own stack, below what is in use there, or in words that are no thread's stack or
`stack_rsp` (`Protected`). The registers they may change at will.

A thread that is not running is `Parked`: its `stack_rsp` points at a context on its
stack. `switch_spec` says that a switch resumes the context of one thread and parks the other;
`World.Step.keeps` says that no step touches the memory of any third thread.
-/

namespace PetLab.Threads

open PetLab.Lib

/-- The memory of a thread. -/
structure Stack where
  /-- The lowest word of the stack. -/
  lo : ℕ
  /-- The highest word of the stack. -/
  base : ℕ
  /-- The field `stack_rsp` of the thread's record. -/
  cell : ℕ

/-- The words that belong to a thread. -/
def Stack.Owns (s : Stack) (a : ℕ) : Prop := (s.lo ≤ a ∧ a ≤ s.base) ∨ a = s.cell

/-- The processor and the threads. -/
structure World where
  /-- The processor and the memory. -/
  cpu : Cpu Reg
  /-- The id of the running thread. -/
  running : ℕ
  /-- `thread_id_count`. -/
  threadIdCount : ℕ
  /-- The threads that have not exited. -/
  live : Finset ℕ
  /-- Where each thread has its stack. -/
  stack : ℕ → Stack

/-- The words that code on the stack of thread `t` leaves alone while what it has of the stack begins
below `sp`: those of the other threads, the `stack_rsp` of `t`, and the stack from `sp` up. -/
def Protected (live : Finset ℕ) (stack : ℕ → Stack) (t sp a : ℕ) : Prop :=
  (∃ s ∈ live, s ≠ t ∧ (stack s).Owns a) ∨ a = (stack t).cell ∨ (sp ≤ a ∧ a ≤ (stack t).base)

/-- What can happen next. -/
inductive Move
  /-- The running thread runs its own code. -/
  | own
  /-- It calls `pet_thread_create`, which gets the memory `s`. -/
  | create (func arg : ℕ) (s : Stack)
  /-- It calls `__switch_to_stack` to go on with `t`; `exits` says that it will not come back. -/
  | switch (t : ℕ) (exits : Bool)
  /-- The function of thread `t` returns. -/
  | ret (t : ℕ)
  /-- `__capture_return` runs. -/
  | capture

/-- The stack of the running thread. -/
def World.top (w : World) : Stack := w.stack w.running

/-- The threads that are left after a switch. -/
def World.left (w : World) (exits : Bool) : Finset ℕ := if exits then w.live.erase w.running else w.live

/-- Memory that `malloc` and `calloc` can give to a new thread. -/
structure Fresh (w : World) (s : Stack) : Prop where
  size : s.base = s.lo + (numEntries - 1)
  cell : s.cell < s.lo ∨ s.base < s.cell
  apart : ∀ t ∈ w.live, ∀ a, s.Owns a → ¬ (w.stack t).Owns a

/-- The running thread is about to call `__switch_to_stack(&thread->stack_rsp, &old_thread->stack_rsp,
old_thread->id, thread->id)`. The assertions of `__thread_invoker` say that `thread` is not the
running one. There is room for a context and one more return address. -/
structure AtCall (w : World) (t : ℕ) : Prop where
  live : t ∈ w.live
  ne : t ≠ w.running
  rdi : w.cpu.reg .rdi = (w.stack t).cell
  rsi : w.cpu.reg .rsi = w.top.cell
  rdx : w.cpu.reg .rdx = w.running
  rcx : w.cpu.reg .rcx = t
  room : w.top.lo + 16 ≤ w.cpu.reg .rsp
  base : w.cpu.reg .rsp ≤ w.top.base

/-- One move. While its function has not returned, the stack pointer of a thread is at or below the word `base`,
which a created thread has its first return address in. -/
def World.Step (x : Text) (w : World) : Move → World → Prop
  | .own, w' => w.cpu.reg .rsp ≤ w.top.base ∧ ∃ c : Cpu Reg,
      w.top.lo ≤ c.reg .rsp ∧ c.reg .rsp ≤ w.top.base ∧
      (∀ a, Protected w.live w.stack w.running w.top.base a → c.mem a = w.cpu.mem a) ∧ w' = { w with cpu := c }
  | .create func arg s, w' => w.cpu.reg .rsp ≤ w.top.base ∧ Fresh w s ∧
      w' = { w with
        cpu := { w.cpu with mem := createStack x w.cpu.mem s.lo s.cell func arg }
        threadIdCount := w.threadIdCount + 1
        live := insert w.threadIdCount w.live
        stack := Function.update w.stack w.threadIdCount s }
  | .switch t exits, w' => AtCall w t ∧ ∃ c : Cpu Reg,
      Exec (Instr.Step x86 (Body (Protected (w.left exits) w.stack t))) w.cpu
        (.call x.switchToStack (w.cpu.reg .rip) :: switchToStack x) c ∧
      w' = { w with cpu := c, running := t, live := w.left exits }
  | .ret t, w' => w.running = t ∧ w.cpu.reg .rsp = w.top.base ∧
      w' = { w with cpu := [Instr.ret].foldl (Instr.apply x86) w.cpu }
  | .capture, w' => w.cpu.reg .rip = x.captureReturn ∧ w.cpu.reg .rsp = w.top.base + 1 ∧
      w' = { w with cpu := (captureReturn x).foldl (Instr.apply x86) w.cpu }

/-- The program starts with its main thread alone. -/
structure World.Initial (w : World) : Prop where
  running : w.running = 0
  count : w.threadIdCount = 1
  live : w.live = {0}
  size : w.top.lo ≤ w.top.base
  cell : w.top.cell < w.top.lo ∨ w.top.base < w.top.cell

/-! ### What holds of every reachable state -/

/-- Thread `t` has a context on its stack with the registers `f`, where its `stack_rsp` points. -/
structure Parked (w : World) (t : ℕ) (f : Reg → ℕ) : Prop where
  ctx : Holds w.cpu.mem (w.cpu.mem (w.stack t).cell) (execCtx.map f)
  rsp : f .rsp = w.cpu.mem (w.stack t).cell + 15
  lo : (w.stack t).lo < w.cpu.mem (w.stack t).cell
  base : f .rsp ≤ (w.stack t).base

/-- The threads have their memory apart from each other, and all but the running one are parked. -/
structure WorldInv (w : World) : Prop where
  running : w.running ∈ w.live
  lt : ∀ t ∈ w.live, t < w.threadIdCount
  size : ∀ t ∈ w.live, (w.stack t).lo ≤ (w.stack t).base
  cell : ∀ t ∈ w.live, (w.stack t).cell < (w.stack t).lo ∨ (w.stack t).base < (w.stack t).cell
  apart : ∀ s ∈ w.live, ∀ t ∈ w.live, s ≠ t → ∀ a, (w.stack s).Owns a → ¬ (w.stack t).Owns a
  parked : ∀ t ∈ w.live, t ≠ w.running → ∃ f, Parked w t f

section

variable {x : Text} {w w' : World} {m : Move} {t : ℕ} {f : Reg → ℕ} {exits : Bool}

theorem World.Initial.inv (h : w.Initial) : WorldInv w := by
  have hlive : ∀ t ∈ w.live, t = 0 := by
    intro t ht
    rwa [h.live, Finset.mem_singleton] at ht
  refine ⟨?_, fun t ht => ?_, fun t ht => ?_, fun t ht => ?_, fun s hs t ht hne => ?_, fun t ht hne => ?_⟩
  · rw [h.live, h.running, Finset.mem_singleton]
  · rw [hlive t ht, h.count]
    exact Nat.one_pos
  · rw [hlive t ht, ← h.running]
    exact h.size
  · rw [hlive t ht, ← h.running]
    exact h.cell
  · exact absurd ((hlive s hs).trans (hlive t ht).symm) hne
  · exact absurd ((hlive t ht).trans h.running.symm) hne

theorem mem_of_mem_left {s : ℕ} (h : s ∈ w.left exits) : s ∈ w.live := by
  unfold World.left at h
  split_ifs at h
  · exact Finset.mem_of_mem_erase h
  · exact h

theorem mem_left {s : ℕ} (h : s ∈ w.live) (hne : s ≠ w.running) : s ∈ w.left exits := by
  unfold World.left
  split_ifs
  · exact Finset.mem_erase.mpr ⟨hne, h⟩
  · exact h

/-- A thread that is left after it switched has not exited. -/
theorem eq_false_of_running_mem_left (h : w.running ∈ w.left exits) : exits = false := by
  cases exits with
  | false => rfl
  | true => exact absurd rfl (Finset.mem_erase.mp h).1

/-- A context stays while the words of the thread do. -/
theorem Parked.congr (h : Parked w t f) (hstack : w'.stack t = w.stack t)
    (hmem : ∀ a, (w.stack t).Owns a → w'.cpu.mem a = w.cpu.mem a) : Parked w' t f := by
  have hcell : w'.cpu.mem (w.stack t).cell = w.cpu.mem (w.stack t).cell := hmem _ (.inr rfl)
  have hrsp := h.rsp
  have hlo := h.lo
  have hbase := h.base
  refine ⟨?_, ?_, ?_, ?_⟩ <;> rw [hstack]
  · rw [hcell]
    refine h.ctx.congr fun a ha ha' => hmem a (.inl ?_)
    rw [List.length_map, show execCtx.length = 15 from rfl] at ha'
    omega
  · rw [hcell, hrsp]
  · rw [hcell]
    exact hlo
  · exact hbase

/-- What a switch to `t` does, when the context of `t` is `f`. -/
structure SwitchSpec (w : World) (t : ℕ) (f : Reg → ℕ) (exits : Bool) (w' : World) : Prop where
  running : w'.running = t
  count : w'.threadIdCount = w.threadIdCount
  live : w'.live = w.left exits
  stack : w'.stack = w.stack
  /-- The registers of `t` are those of its context. -/
  resumes : ∀ r, r ≠ .rax → w'.cpu.reg r = f r
  /-- The thread that called is parked with the registers it had. -/
  parks : exits = false → Parked w' w.running w.cpu.reg
  /-- The highest word of both stacks stays, -/
  base : w'.cpu.mem (w.stack t).base = w.cpu.mem (w.stack t).base
  top : exits = false → w'.cpu.mem w.top.base = w.cpu.mem w.top.base
  /-- and so do those of every other thread. -/
  others : ∀ s ∈ w'.live, s ≠ t → s ≠ w.running → ∀ a, (w.stack s).Owns a → w'.cpu.mem a = w.cpu.mem a

theorem mem_execCtx {r : Reg} (hr : r ≠ .rax) (hr' : r ≠ .rsp) : r ∈ execCtx := by
  revert hr hr'
  cases r <;> decide

/-- The first part of a switch parks the thread that calls, and writes to no other thread's memory. -/
theorem AtCall.saves {B : Cpu Reg → Cpu Reg → Prop} {c₁ : Cpu Reg} (hw : WorldInv w) (hcall : AtCall w t)
    (hout : Exec (Instr.Step x86 B) w.cpu (.call x.switchToStack (w.cpu.reg .rip) :: switchOut) c₁) :
    c₁.reg .rdi = (w.stack t).cell ∧ Parked { w with cpu := c₁ } w.running w.cpu.reg ∧
      c₁.mem w.top.base = w.cpu.mem w.top.base ∧ ∀ a, ¬ w.top.Owns a → c₁.mem a = w.cpu.mem a := by
  obtain ⟨-, -, hrdi, hrsi, -, -, hroom, hbase⟩ := hcall
  have hcells : w.top.cell < w.top.lo ∨ w.top.base < w.top.cell := hw.cell _ hw.running
  obtain ⟨hsp, hreg, hctx, hcell, hmem⟩ := switchOut_spec hout rfl (by omega) (by rw [hrsi]; omega)
  rw [hrsi] at hcell hmem
  refine ⟨(hreg _ (by decide) (by decide)).trans hrdi, ?_, hmem _ (.inr hbase) (by omega), fun a ha => ?_⟩
  · change c₁.mem (w.stack w.running).cell = c₁.reg .rsp at hcell
    refine ⟨?_, ?_, ?_, hbase⟩ <;> show _ <;> rw [hcell]
    · exact hctx
    · exact hsp.symm
    · change w.top.lo < _
      omega
  · have ha' : ¬ (w.top.lo ≤ a ∧ a ≤ w.top.base) := fun h => ha (.inl h)
    exact hmem a (by omega) fun h => ha (.inr h)

/-- The second part takes the registers of a parked thread. `pet_thread_cleanup` and its return address
leave alone what is in use on the stack it runs on, and the memory of the other threads. -/
theorem Parked.restores {live : Finset ℕ} {c' : Cpu Reg} (hf : Parked w t f)
    (hrdi : w.cpu.reg .rdi = (w.stack t).cell)
    (hin : Exec (Instr.Step x86 (Body (Protected live w.stack t))) w.cpu (switchIn x) c') :
    (∀ r, r ≠ .rax → c'.reg r = f r) ∧ c'.mem (w.stack t).base = w.cpu.mem (w.stack t).base ∧
      ∀ s ∈ live, s ≠ t → (∀ a, (w.stack s).Owns a → ¬ (w.stack t).Owns a) →
        ∀ a, (w.stack s).Owns a → c'.mem a = w.cpu.mem a := by
  obtain ⟨p, hp⟩ : ∃ p, p = w.cpu.mem (w.stack t).cell := ⟨_, rfl⟩
  obtain ⟨hctx, hrsp, hlo, hbase⟩ := hf
  rw [← hp] at hctx hrsp hlo
  obtain ⟨hregs, hsp, hmem⟩ := switchIn_spec hin (by rw [hrdi, hp]) (by omega) hctx fun a ha ha' =>
    .inr (.inr ⟨ha, by omega⟩)
  refine ⟨fun r hr => ?_, hmem _ (.inr (.inr ⟨by omega, le_rfl⟩)) (by omega), fun s hs hst hapart a ha => ?_⟩
  · by_cases hr' : r = .rsp
    · rw [hr', hrsp]
      exact hsp
    · exact hregs r (mem_execCtx hr hr')
  · refine hmem a (.inl ⟨s, hs, hst, ha⟩) ?_
    rintro rfl
    exact hapart _ ha (.inl ⟨by omega, by omega⟩)

/-- **A switch** resumes the context of the one thread and parks the other. -/
theorem switch_spec (hw : WorldInv w) (h : w.Step x (.switch t exits) w') (hf : Parked w t f) :
    SwitchSpec w t f exits w' := by
  obtain ⟨hcall, c', hexec, rfl⟩ := h
  have ht := hcall.live
  have hne := hcall.ne
  obtain ⟨c₁, hout, hin⟩ := exec_append.mp (show Exec _ _ ((_ :: switchOut) ++ switchIn x) _ from hexec)
  obtain ⟨hrdi, hparked, htop, hmem⟩ := hcall.saves hw hout
  have hmem_t : ∀ a, (w.stack t).Owns a → c₁.mem a = w.cpu.mem a := fun a ha =>
    hmem a (hw.apart t ht _ hw.running hne a ha)
  have hf₁ : Parked { w with cpu := c₁ } t f := hf.congr rfl hmem_t
  obtain ⟨hregs, hbase, hkeep⟩ := hf₁.restores hrdi hin
  have hkeep : ∀ s ∈ w.left exits, s ≠ t → ∀ a, (w.stack s).Owns a → c'.mem a = c₁.mem a := fun s hs hst =>
    hkeep s hs hst (hw.apart s (mem_of_mem_left hs) t ht hst)
  have hleft : exits = false → w.running ∈ w.left exits := by
    rintro rfl
    exact hw.running
  have hsize_t := hw.size t ht
  have hsize : w.top.lo ≤ w.top.base := hw.size _ hw.running
  refine ⟨rfl, rfl, rfl, rfl, hregs, fun he => ?_, ?_, fun he => ?_, fun s hs hst hsr a ha => ?_⟩
  · exact hparked.congr rfl (hkeep _ (hleft he) (Ne.symm hne))
  · exact hbase.trans (hmem_t _ (.inl ⟨hsize_t, le_rfl⟩))
  · exact (hkeep _ (hleft he) (Ne.symm hne) w.top.base (.inl ⟨hsize, le_rfl⟩)).trans htop
  · exact (hkeep s hs hst a ha).trans (hmem a (hw.apart s (mem_of_mem_left hs) _ hw.running hsr a ha))

/-! ### What a step keeps -/

/-- What a new thread gets is written to its own memory only. -/
theorem Fresh.createStack_of_not_owns {s : Stack} {func arg a : ℕ} (hs : Fresh w s) (ha : ¬ s.Owns a) :
    createStack x w.cpu.mem s.lo s.cell func arg a = w.cpu.mem a := by
  have hsize := hs.size
  have hcell := hs.cell
  have ha' : ¬ (s.lo ≤ a ∧ a ≤ s.base) := fun h => ha (.inl h)
  rw [numEntries_eq] at hsize
  refine (createStack_spec func arg (by rw [numEntries_eq]; omega)).2.2.2 a ?_ fun h => ha (.inr h)
  rw [numEntries_eq]
  omega

/-- **A thread that is not running** keeps its memory until it is switched to. -/
theorem World.Step.keeps (hw : WorldInv w) (h : w.Step x m w') (ht : t ∈ w.live) (hne : t ≠ w.running)
    (hm : ∀ e, m ≠ .switch t e) :
    t ∈ w'.live ∧ t ≠ w'.running ∧ w'.stack t = w.stack t ∧
      ∀ a, (w.stack t).Owns a → w'.cpu.mem a = w.cpu.mem a := by
  cases m with
  | own =>
    obtain ⟨-, c, -, -, hmem, rfl⟩ := h
    exact ⟨ht, hne, rfl, fun a ha => hmem a (.inl ⟨t, ht, hne, ha⟩)⟩
  | create func arg s =>
    obtain ⟨-, hs, rfl⟩ := h
    refine ⟨Finset.mem_insert_of_mem ht, hne, Function.update_of_ne (hw.lt t ht).ne _ _, fun a ha => ?_⟩
    exact hs.createStack_of_not_owns fun h => hs.apart t ht a h ha
  | switch u exits =>
    have hu : u ≠ t := fun hu => hm exits (hu ▸ rfl)
    obtain ⟨f, hf⟩ := hw.parked u h.1.live h.1.ne
    have hsw := switch_spec hw h hf
    have hleft : t ∈ w'.live := by
      rw [hsw.live]
      exact mem_left ht hne
    exact ⟨hleft, by rw [hsw.running]; exact hu.symm, by rw [hsw.stack],
      hsw.others t hleft hu.symm hne⟩
  | ret u =>
    obtain ⟨-, -, rfl⟩ := h
    exact ⟨ht, hne, rfl, fun a _ => rfl⟩
  | capture =>
    obtain ⟨-, hsp, rfl⟩ := h
    refine ⟨ht, hne, rfl, fun a ha => (captureReturn_spec w.cpu).2.2 a ?_⟩
    rw [hsp, Nat.add_sub_cancel]
    rintro rfl
    exact hw.apart t ht _ hw.running hne _ ha (.inl ⟨hw.size _ hw.running, le_rfl⟩)

/-- The words of the running thread that a step keeps, as long as its function does not return. -/
theorem World.Step.keeps_base (hw : WorldInv w) (h : w.Step x m w') (hsp : w.cpu.reg .rsp ≤ w.top.base)
    (hlive : w.running ∈ w'.live) (hm : m ≠ .ret w.running) :
    w'.cpu.mem w.top.base = w.cpu.mem w.top.base ∧ w'.stack w.running = w.top ∧
      (w'.running = w.running → w'.cpu.reg .rsp ≤ w.top.base) := by
  cases m with
  | own =>
    obtain ⟨-, c, -, hc, hmem, rfl⟩ := h
    exact ⟨hmem _ (.inr (.inr ⟨le_rfl, le_rfl⟩)), rfl, fun _ => hc⟩
  | create func arg s =>
    obtain ⟨-, hs, rfl⟩ := h
    refine ⟨hs.createStack_of_not_owns fun h => hs.apart _ hw.running _ h ?_,
      Function.update_of_ne (hw.lt _ hw.running).ne _ _, fun _ => hsp⟩
    exact .inl ⟨hw.size _ hw.running, le_rfl⟩
  | switch u exits =>
    obtain ⟨f, hf⟩ := hw.parked u h.1.live h.1.ne
    have hsw := switch_spec hw h hf
    rw [hsw.live] at hlive
    exact ⟨hsw.top (eq_false_of_running_mem_left hlive), by rw [hsw.stack]; rfl,
      fun hr => absurd (hsw.running.symm.trans hr) h.1.ne⟩
  | ret u => exact absurd (h.1 ▸ rfl) hm
  | capture =>
    obtain ⟨-, hsp', -⟩ := h
    omega

/-! ### Every reachable state -/

/-- A new thread is parked, with its function and its argument. -/
theorem Fresh.parked {s : Stack} {func arg : ℕ} (hs : Fresh w s) (h : w.Step x (.create func arg s) w') :
    Parked w' w.threadIdCount (firstReg func arg s.base) ∧ w'.cpu.mem s.base = x.captureReturn ∧
      w'.stack w.threadIdCount = s := by
  obtain ⟨-, -, rfl⟩ := h
  have hsize := hs.size
  have hcell := hs.cell
  have hstack : Function.update w.stack w.threadIdCount s w.threadIdCount = s := Function.update_self ..
  have hout : s.cell < s.lo ∨ s.lo + numEntries ≤ s.cell := by
    rw [numEntries_eq] at hsize ⊢
    omega
  obtain ⟨hctx, hbase, hrsp, -⟩ := createStack_spec (x := x) (m := w.cpu.mem) func arg hout
  rw [← hsize] at hctx hbase
  refine ⟨⟨?_, ?_, ?_, ?_⟩, hbase, hstack⟩ <;> simp only [hstack, hrsp]
  · exact hctx
  · change s.base = _
    rw [numEntries_eq] at hsize ⊢
    omega
  · rw [numEntries_eq]
    omega
  · exact le_rfl

/-- A step that leaves the threads what and where they are keeps the invariant. -/
theorem WorldInv.of_cpu {c : Cpu Reg} (hw : WorldInv w) (h : w.Step x m { w with cpu := c })
    (hm : ∀ t e, m ≠ .switch t e) : WorldInv { w with cpu := c } := by
  refine ⟨hw.running, hw.lt, hw.size, hw.cell, hw.apart, fun t ht hne => ?_⟩
  obtain ⟨f, hf⟩ := hw.parked t ht hne
  obtain ⟨-, -, hstack, hmem⟩ := h.keeps hw ht hne (hm t)
  exact ⟨f, hf.congr hstack hmem⟩

theorem WorldInv.create {func arg : ℕ} {s : Stack} (hw : WorldInv w) (h : w.Step x (.create func arg s) w') :
    WorldInv w' := by
  have hs := h.2.1
  obtain ⟨hnew, -, hstack⟩ := hs.parked h
  have hkeep : ∀ t ∈ w.live, w'.stack t = w.stack t := by
    intro t ht
    rw [h.2.2]
    exact Function.update_of_ne (hw.lt t ht).ne _ _
  have hlive : ∀ t, t ∈ w'.live → t = w.threadIdCount ∨ t ∈ w.live := by
    intro t ht
    rw [h.2.2] at ht
    exact Finset.mem_insert.mp ht
  have hcount : w'.threadIdCount = w.threadIdCount + 1 := by rw [h.2.2]
  have hrun : w'.running = w.running := by rw [h.2.2]
  have hsize := hs.size
  refine ⟨?_, fun t ht => ?_, fun t ht => ?_, fun t ht => ?_, fun t ht u hu hne a hta hua => ?_,
    fun t ht hne => ?_⟩
  · rw [h.2.2]
    exact Finset.mem_insert_of_mem hw.running
  · rcases hlive t ht with rfl | ht
    · omega
    · have := hw.lt t ht
      omega
  · rcases hlive t ht with rfl | ht
    · rw [hstack]
      omega
    · rw [hkeep t ht]
      exact hw.size t ht
  · rcases hlive t ht with rfl | ht
    · rw [hstack]
      exact hs.cell
    · rw [hkeep t ht]
      exact hw.cell t ht
  · -- the new memory is apart from all the rest
    rcases hlive t ht with rfl | ht <;> rcases hlive u hu with rfl | hu
    · exact hne rfl
    · rw [hstack] at hta
      rw [hkeep u hu] at hua
      exact hs.apart u hu a hta hua
    · rw [hkeep t ht] at hta
      rw [hstack] at hua
      exact hs.apart t ht a hua hta
    · rw [hkeep t ht] at hta
      rw [hkeep u hu] at hua
      exact hw.apart t ht u hu hne a hta hua
  · rcases hlive t ht with rfl | ht
    · exact ⟨_, hnew⟩
    · rw [hrun] at hne
      obtain ⟨f, hf⟩ := hw.parked t ht hne
      obtain ⟨-, -, hstack, hmem⟩ := h.keeps hw ht hne fun e => by simp
      exact ⟨f, hf.congr hstack hmem⟩

theorem WorldInv.switch (hw : WorldInv w) (h : w.Step x (.switch t exits) w') : WorldInv w' := by
  obtain ⟨f, hf⟩ := hw.parked t h.1.live h.1.ne
  have hsw := switch_spec hw h hf
  have hlive : ∀ s, s ∈ w'.live → s ∈ w.live := by
    intro s hs
    rw [hsw.live] at hs
    exact mem_of_mem_left hs
  refine ⟨?_, fun s hs => ?_, fun s hs => ?_, fun s hs => ?_, fun s hs u hu => ?_, fun s hs hne => ?_⟩
  · rw [hsw.running, hsw.live]
    exact mem_left h.1.live h.1.ne
  · rw [hsw.count]
    exact hw.lt s (hlive s hs)
  · rw [hsw.stack]
    exact hw.size s (hlive s hs)
  · rw [hsw.stack]
    exact hw.cell s (hlive s hs)
  · rw [hsw.stack]
    exact hw.apart s (hlive s hs) u (hlive u hu)
  · rw [hsw.running] at hne
    by_cases hr : s = w.running
    · -- the thread that called is parked now, if it is still there
      subst hr
      rw [hsw.live] at hs
      exact ⟨_, hsw.parks (eq_false_of_running_mem_left hs)⟩
    · obtain ⟨g, hg⟩ := hw.parked s (hlive s hs) hr
      exact ⟨g, hg.congr (by rw [hsw.stack]) (hsw.others s hs hne hr)⟩

/-- **The invariant** is kept by every step. -/
theorem WorldInv.step (hw : WorldInv w) (h : w.Step x m w') : WorldInv w' := by
  cases m with
  | own =>
    obtain ⟨-, c, -, -, -, rfl⟩ := id h
    exact hw.of_cpu h (by simp)
  | create func arg s => exact hw.create h
  | switch t exits => exact hw.switch h
  | ret u =>
    obtain ⟨-, -, rfl⟩ := id h
    exact hw.of_cpu h (by simp)
  | capture =>
    obtain ⟨-, -, rfl⟩ := id h
    exact hw.of_cpu h (by simp)

theorem WorldInv.of_exec {w₀ : World} {ms : List Move} (h₀ : w₀.Initial) (h : Exec (World.Step x) w₀ ms w) :
    WorldInv w :=
  h.inv h₀.inv fun _ _ _ hw h => hw.step h

/-! ### Runs -/

/-- A thread keeps its memory in every run in which it is not switched to. -/
theorem exec_keeps {ms : List Move} (hw : WorldInv w) (h : Exec (World.Step x) w ms w') (ht : t ∈ w.live)
    (hne : t ≠ w.running) (hms : ∀ e, Move.switch t e ∉ ms) :
    WorldInv w' ∧ t ∈ w'.live ∧ t ≠ w'.running ∧ w'.stack t = w.stack t ∧
      ∀ a, (w.stack t).Owns a → w'.cpu.mem a = w.cpu.mem a := by
  induction h with
  | nil => exact ⟨hw, ht, hne, rfl, fun _ _ => rfl⟩
  | @snoc ms m v v' _ hstep ih =>
    obtain ⟨hv, htv, hnev, hstack, hmem⟩ := ih fun e he => hms e (List.mem_append_left _ he)
    have hm : ∀ e, m ≠ .switch t e := fun e he => hms e (by simp [he])
    obtain ⟨ht', hne', hstack', hmem'⟩ := hstep.keeps hv htv hnev hm
    refine ⟨hv.step hstep, ht', hne', hstack'.trans hstack, fun a ha => ?_⟩
    rw [hmem' a (by rw [hstack]; exact ha), hmem a ha]

/-- The function of thread `t`, which has the stack `s`, has not returned: its return address is there. -/
structure Entered (x : Text) (s : Stack) (t : ℕ) (w : World) : Prop where
  lt : t < w.threadIdCount
  word : t ∈ w.live → w.stack t = s ∧ w.cpu.mem s.base = x.captureReturn ∧
    (w.running = t → w.cpu.reg .rsp ≤ s.base)

theorem World.Step.count_le (h : w.Step x m w') : w.threadIdCount ≤ w'.threadIdCount ∧
    ∀ t, t < w.threadIdCount → t ∈ w'.live → t ∈ w.live := by
  cases m with
  | own =>
    obtain ⟨-, c, -, -, -, rfl⟩ := h
    exact ⟨le_rfl, fun _ _ ht => ht⟩
  | create func arg s =>
    obtain ⟨-, -, rfl⟩ := h
    exact ⟨Nat.le_succ _, fun t hlt ht => (Finset.mem_insert.mp ht).resolve_left hlt.ne⟩
  | switch u exits =>
    obtain ⟨-, c, -, rfl⟩ := h
    exact ⟨le_rfl, fun _ _ ht => mem_of_mem_left ht⟩
  | ret u =>
    obtain ⟨-, -, rfl⟩ := h
    exact ⟨le_rfl, fun _ _ ht => ht⟩
  | capture =>
    obtain ⟨-, -, rfl⟩ := h
    exact ⟨le_rfl, fun _ _ ht => ht⟩

/-- The return address stays until it is used. -/
theorem Entered.step {s : Stack} (hw : WorldInv w) (he : Entered x s t w) (h : w.Step x m w')
    (hm : m ≠ .ret t) : Entered x s t w' := by
  refine ⟨he.lt.trans_le h.count_le.1, fun ht' => ?_⟩
  have ht := h.count_le.2 t he.lt ht'
  obtain ⟨hstack, hword, hsp⟩ := he.word ht
  by_cases hr : w.running = t
  · -- it runs: its code stays below the word
    subst hr
    have htop : w.top = s := hstack
    obtain ⟨hmem, hstack', hsp'⟩ := h.keeps_base hw (by rw [htop]; exact hsp rfl) ht' hm
    rw [htop] at hmem hstack' hsp'
    exact ⟨hstack', hmem.trans hword, hsp'⟩
  · by_cases hsw : ∃ e, m = .switch t e
    · -- it is resumed, with the stack pointer of its context
      obtain ⟨e, rfl⟩ := hsw
      obtain ⟨f, hf⟩ := hw.parked t ht (Ne.symm hr)
      have hspec := switch_spec hw h hf
      have hbase := hspec.base
      rw [hstack] at hbase
      refine ⟨by rw [hspec.stack, hstack], hbase.trans hword, fun _ => ?_⟩
      rw [hspec.resumes _ (by decide), ← hstack]
      exact hf.base
    · obtain ⟨-, hne', hstack', hmem⟩ := h.keeps hw ht (Ne.symm hr) fun e he => hsw ⟨e, he⟩
      rw [hstack] at hstack' hmem
      have hsize := hw.size t ht
      rw [hstack] at hsize
      exact ⟨hstack', (hmem _ (.inl ⟨hsize, le_rfl⟩)).trans hword, fun hr' => absurd hr'.symm hne'⟩

theorem Entered.exec {s : Stack} {ms : List Move} (hw : WorldInv w) (he : Entered x s t w)
    (h : Exec (World.Step x) w ms w') (hms : Move.ret t ∉ ms) : WorldInv w' ∧ Entered x s t w' := by
  induction h with
  | nil => exact ⟨hw, he⟩
  | @snoc ms m v v' _ hstep ih =>
    obtain ⟨hv, hev⟩ := ih fun h => hms (List.mem_append_left _ h)
    exact ⟨hv.step hstep, hev.step hv hstep fun h => hms (by simp [h])⟩

/-- **Returning**: once the function of `t` has executed its `ret`, there is nothing to do but to enter
`__quarantine`, with what the function returned. -/
theorem Entered.returns {s : Stack} (hw : WorldInv w) (he : Entered x s t w) (h : w.Step x (.ret t) w') :
    w'.cpu.reg .rip = x.captureReturn ∧ (∃ w₁, w'.Step x .capture w₁) ∧
      ∀ m w₁, w'.Step x m w₁ → w₁.cpu.reg .rip = x.quarantine ∧ w₁.cpu.reg .rdi = w.cpu.reg .rax := by
  obtain ⟨hr, hsp, hw'⟩ := h
  obtain ⟨hstack, hword, -⟩ := he.word (hr ▸ hw.running)
  have htop : w.top = s := by
    rw [← hstack, ← hr]
    rfl
  have hcpu : w'.cpu = w.cpu.pop x86 .rip := by rw [hw']; rfl
  have htop' : w'.top = w.top := by rw [hw']; rfl
  have hrip : w'.cpu.reg .rip = x.captureReturn := by
    rw [hcpu, Cpu.pop_self, ← hword, ← htop, ← hsp]
    rfl
  have hsp' : w'.cpu.reg .rsp = w'.top.base + 1 := by
    rw [hcpu, htop', ← hsp]
    exact Cpu.pop_sp (P := x86) (by decide)
  have hrax : w'.cpu.reg .rax = w.cpu.reg .rax := by
    rw [hcpu]
    exact Cpu.pop_of_ne (P := x86) (by decide) (by decide)
  refine ⟨hrip, ⟨_, hrip, hsp', rfl⟩, fun m w₁ h₁ => ?_⟩
  cases m with
  | own => exact absurd h₁.1 (by omega)
  | create func arg s => exact absurd h₁.1 (by omega)
  | switch u exits => exact absurd h₁.1.base (by omega)
  | ret u => exact absurd h₁.2.1 (by omega)
  | capture =>
    obtain ⟨-, -, rfl⟩ := h₁
    obtain ⟨hq, hdi, -⟩ := captureReturn_spec (x := x) w'.cpu
    exact ⟨hq, hdi.trans hrax⟩

/-- **Resuming**: between two switches, the one out of a thread and the next one to it, its
registers are on its stack. -/
theorem WorldInv.resumes {ms : List Move} {w₁ w₂ w₃ : World} (hw : WorldInv w) (hout : w.Step x (.switch t false) w₁)
    (hexec : Exec (World.Step x) w₁ ms w₂) (hms : ∀ e, Move.switch w.running e ∉ ms)
    (hin : w₂.Step x (.switch w.running exits) w₃) : ∀ r, r ≠ .rax → w₃.cpu.reg r = w.cpu.reg r := by
  obtain ⟨f, hf⟩ := hw.parked t hout.1.live hout.1.ne
  have hspec := switch_spec hw hout hf
  have hlive : w.running ∈ w₁.live := by
    rw [hspec.live]
    exact hw.running
  have hne : w.running ≠ w₁.running := by
    rw [hspec.running]
    exact hout.1.ne.symm
  obtain ⟨hw₂, -, -, hstack, hmem⟩ := exec_keeps (hw.step hout) hexec hlive hne hms
  exact (switch_spec hw₂ hin ((hspec.parks rfl).congr hstack hmem)).resumes

/-- A new thread is there, and does not run yet. -/
theorem WorldInv.created {func arg : ℕ} {s : Stack} (hw : WorldInv w) (h : w.Step x (.create func arg s) w') :
    w.threadIdCount ∈ w'.live ∧ w.threadIdCount ≠ w'.running := by
  obtain ⟨-, -, rfl⟩ := h
  exact ⟨Finset.mem_insert_self .., (hw.lt _ hw.running).ne'⟩

/-- **Starting**: the first switch to a thread enters its function. -/
theorem WorldInv.enters {func arg : ℕ} {s : Stack} {ms : List Move} {w₁ w₂ w₃ : World} (hw : WorldInv w)
    (hcreate : w.Step x (.create func arg s) w₁) (hexec : Exec (World.Step x) w₁ ms w₂)
    (hms : ∀ e, Move.switch w.threadIdCount e ∉ ms) (hin : w₂.Step x (.switch w.threadIdCount exits) w₃) :
    (∀ r, r ≠ .rax → w₃.cpu.reg r = firstReg func arg s.base r) ∧ w₃.cpu.mem s.base = x.captureReturn ∧
      WorldInv w₃ ∧ Entered x s w.threadIdCount w₃ := by
  obtain ⟨hparked, hword, hstack₁⟩ := hcreate.2.1.parked hcreate
  have hw₁ := hw.step hcreate
  obtain ⟨hlive, hne⟩ := hw.created hcreate
  obtain ⟨hw₂, -, -, hstack, hmem⟩ := exec_keeps hw₁ hexec hlive hne hms
  have hspec := switch_spec hw₂ hin (hparked.congr hstack hmem)
  have hsize := hw₁.size _ hlive
  have hbase := hspec.base
  rw [hstack₁] at hstack hmem hsize
  rw [hstack, hmem _ (.inl ⟨hsize, le_rfl⟩), hword] at hbase
  have hw₃ := hw₂.step hin
  refine ⟨hspec.resumes, hbase, hw₃, ?_, fun _ => ⟨by rw [hspec.stack, hstack], hbase, fun _ => ?_⟩⟩
  · have := hw₃.lt _ hw₃.running
    rwa [hspec.running] at this
  · exact (hspec.resumes .rsp (by decide)).le

/-- **The round trip.** In every reachable state:

* if the running thread switches to another one, then however the threads go on from there,
  when it is switched to next its registers are those it had at its call;
* if it creates a thread, then when that is switched to for the first time, execution enters `func` with `arg` in `rdi`
  and `__capture_return` as return address; and whenever `func` returns later, what it
  leaves in `rax` is the argument `__quarantine` is entered with. -/
theorem switch_round_trip (x : Text) {w₀ : World} {ms₀ : List Move} (h₀ : w₀.Initial)
    (hrun : Exec (World.Step x) w₀ ms₀ w) :
    (∀ t ms w₁ w₂ w₃ exits, w.Step x (.switch t false) w₁ → Exec (World.Step x) w₁ ms w₂ →
      (∀ e, Move.switch w.running e ∉ ms) → w₂.Step x (.switch w.running exits) w₃ →
      ∀ r, r ≠ .rax → w₃.cpu.reg r = w.cpu.reg r) ∧
    ∀ func arg s ms w₁ w₂ w₃ exits, w.Step x (.create func arg s) w₁ → Exec (World.Step x) w₁ ms w₂ →
      (∀ e, Move.switch w.threadIdCount e ∉ ms) → w₂.Step x (.switch w.threadIdCount exits) w₃ →
      (w₃.cpu.reg .rip = func ∧ w₃.cpu.reg .rdi = arg ∧ w₃.cpu.mem (w₃.cpu.reg .rsp) = x.captureReturn) ∧
      ∀ ms' w₄ w₅, Exec (World.Step x) w₃ ms' w₄ → Move.ret w.threadIdCount ∉ ms' →
        w₄.Step x (.ret w.threadIdCount) w₅ →
        w₅.cpu.reg .rip = x.captureReturn ∧ (∃ w₆, w₅.Step x .capture w₆) ∧
        ∀ m w₆, w₅.Step x m w₆ → w₆.cpu.reg .rip = x.quarantine ∧ w₆.cpu.reg .rdi = w₄.cpu.reg .rax := by
  have hw := WorldInv.of_exec h₀ hrun
  refine ⟨fun t ms w₁ w₂ w₃ exits hout hexec hms hin => hw.resumes hout hexec hms hin, ?_⟩
  intro func arg s ms w₁ w₂ w₃ exits hcreate hexec hms hin
  obtain ⟨hregs, hword, hw₃, hentered⟩ := hw.enters hcreate hexec hms hin
  have hrsp : w₃.cpu.reg .rsp = s.base := hregs .rsp (by decide)
  refine ⟨⟨hregs .rip (by decide), hregs .rdi (by decide), by rw [hrsp, hword]⟩, ?_⟩
  intro ms' w₄ w₅ hexec' hms' hret
  obtain ⟨hw₄, hentered₄⟩ := hentered.exec hw₃ hexec' hms'
  exact hentered₄.returns hw₄ hret

/-- Whatever the running thread was doing, it can go on to switch to any other thread, if its stack has room. -/
theorem exists_switch (sp : ℕ) (exits : Bool) (ht : t ∈ w.live) (hne : t ≠ w.running) (hroom : w.top.lo + 16 ≤ sp)
    (hbase : sp ≤ w.top.base) (hsp : w.cpu.reg .rsp ≤ w.top.base) :
    ∃ w₁ w₂, w.Step x .own w₁ ∧ w₁.running = w.running ∧ w₁.stack = w.stack ∧ w₁.cpu.reg .rsp = sp ∧
      w₁.Step x (.switch t exits) w₂ := by
  obtain ⟨c, hc⟩ : ∃ c : Cpu Reg, c = ((((w.cpu.set .rsp sp).set .rdi (w.stack t).cell).set .rsi
    w.top.cell).set .rdx w.running).set .rcx t := ⟨_, rfl⟩
  have hrsp : c.reg .rsp = sp := by rw [hc]; rfl
  have hcall : AtCall { w with cpu := c } t := by
    subst hc
    exact ⟨ht, hne, rfl, rfl, rfl, rfl, hroom, hbase⟩
  refine ⟨{ w with cpu := c }, _, ⟨hsp, c, by omega, by omega, fun a _ => ?_, rfl⟩, rfl, rfl, hrsp,
    hcall, _, exec_apply ?_ _ _, rfl⟩
  · rw [hc]
    rfl
  · exact fun _ => ⟨rfl, fun _ _ => rfl⟩

/-- The running thread can create a thread and switch to it, and that has the whole of its stack then. -/
theorem WorldInv.exists_start {s : Stack} (hw : WorldInv w) (func arg sp : ℕ) (hs : Fresh w s)
    (hroom : w.top.lo + 16 ≤ sp) (hbase : sp ≤ w.top.base) (hsp : w.cpu.reg .rsp ≤ w.top.base) :
    ∃ w₁ w₂ w₃, w.Step x (.create func arg s) w₁ ∧ w₁.Step x .own w₂ ∧ w₂.cpu.reg .rsp = sp ∧
      w₂.running = w.running ∧ w₂.Step x (.switch w.threadIdCount false) w₃ ∧ w.running ∈ w₃.live ∧
      w₃.running = w.threadIdCount ∧ w₃.top = s ∧ w₃.cpu.reg .rsp = s.base := by
  obtain ⟨w₁, hcreate⟩ : ∃ w₁, w.Step x (.create func arg s) w₁ := ⟨_, hsp, hs, rfl⟩
  obtain ⟨hlive, hne⟩ := hw.created hcreate
  have htop : w₁.top = w.top := by
    rw [hcreate.2.2]
    exact Function.update_of_ne (hw.lt _ hw.running).ne _ _
  have hrsp : w₁.cpu.reg .rsp = w.cpu.reg .rsp := by rw [hcreate.2.2]
  have hrun : w₁.running = w.running := by rw [hcreate.2.2]
  obtain ⟨w₂, w₃, hown, hrun₂, -, hrsp₂, hsw⟩ := exists_switch (x := x) sp false hlive hne (by rw [htop]; exact hroom)
    (by rw [htop]; exact hbase) (by rw [hrsp, htop]; exact hsp)
  obtain ⟨hregs, -, hw₃, hentered⟩ := hw.enters hcreate (.single hown) (by simp) hsw
  obtain ⟨f, hf⟩ := ((hw.step hcreate).step hown).parked _ hsw.1.live hsw.1.ne
  have hspec := switch_spec ((hw.step hcreate).step hown) hsw hf
  have hlive₃ : w.running ∈ w₃.live := by
    rw [hspec.live, ← hrun, ← hrun₂]
    exact ((hw.step hcreate).step hown).running
  have htop₃ : w₃.top = s := by
    rw [World.top, hspec.running]
    exact (hentered.word (hspec.running ▸ hw₃.running)).1
  exact ⟨w₁, w₂, w₃, hcreate, hown, hrsp₂, hrun₂.trans hrun, hsw, hlive₃, hspec.running, htop₃, hregs .rsp (by decide)⟩

/-- The main thread, with a stack of a thousand words. -/
def mainWorld : World where
  cpu := ⟨fun r => if r = .rsp then 900 else 0, fun _ => 0⟩
  running := 0
  threadIdCount := 1
  live := {0}
  stack := fun _ => ⟨1, 1000, 2000⟩

/-- The main thread creates a thread, switches to it and is switched back to. -/
theorem switch_round_trip_two : ∃ w w₁ w₂ w₃ : World, w.Step ⟨1, 2, 3, 4, 5, 6⟩ (.switch 1 false) w₁ ∧
    (w₁.cpu.reg .rip = 77 ∧ w₁.cpu.reg .rdi = 88 ∧ w₁.cpu.mem (w₁.cpu.reg .rsp) = 4) ∧
    w₁.Step ⟨1, 2, 3, 4, 5, 6⟩ .own w₂ ∧ w₂.Step ⟨1, 2, 3, 4, 5, 6⟩ (.switch 0 false) w₃ ∧
    ∀ r, r ≠ .rax → w₃.cpu.reg r = w.cpu.reg r := by
  obtain ⟨x, hx⟩ : ∃ x : Text, x = ⟨1, 2, 3, 4, 5, 6⟩ := ⟨_, rfl⟩
  rw [← hx]
  have h₀ : mainWorld.Initial := ⟨rfl, rfl, rfl, by decide, by decide⟩
  have hfresh : Fresh mainWorld ⟨3000, 19383, 20000⟩ := by
    refine ⟨rfl, by decide, fun t _ a ha => ?_⟩
    simp only [Stack.Owns, mainWorld] at ha ⊢
    omega
  obtain ⟨w', w, w₁, hcreate, hown, -, hrw, hout, hlive₁, hrun₁, htop₁, hsp₁⟩ := h₀.inv.exists_start (x := x)
    77 88 1000 hfresh (by decide) (by decide) (by decide)
  have hrun₂ : Exec (World.Step x) mainWorld [.create 77 88 ⟨3000, 19383, 20000⟩, .own] w :=
    .snoc (.single hcreate) hown
  obtain ⟨w₂, w₃, hown₂, -, -, -, hin⟩ := exists_switch (x := x) (t := 0) 19383 false hlive₁
    (by rw [hrun₁]; decide) (by rw [htop₁]; decide) (by rw [htop₁]) (by rw [hsp₁, htop₁])
  refine ⟨w, w₁, w₂, w₃, hout, ?_, hown₂, hin, ?_⟩
  · have h₂ := (switch_round_trip x h₀ .nil).2 77 88 _ [.own] w' w w₁ false hcreate (.single hown)
      (fun e => by simp) hout
    rw [show x.captureReturn = 4 by rw [hx]] at h₂
    exact h₂.1
  · exact (switch_round_trip x h₀ hrun₂).1 1 [.own] w₁ w₂ w₃ false hout (.single hown₂) (fun e => by simp)
      (by rw [hrw]; exact hin)

end

end PetLab.Threads
