import Mathlib.Data.List.Nodup
import PetLab.Lib.StackMachine

/-!
# `__switch_to_stack` and the first context of a thread

The assembly of `Threads/pet_thread_hw.S`, and the part of `pet_thread_create` that
lays out a new stack. Three texts describe the same fifteen words: the pushes of
`save_registers` after the `call`, the pops of `restore_registers` before the `ret`,
and the fields of `struct exec_ctx`. They agree (`execCtx_eq_saved`,
`execCtx_eq_restored`).

Memory is counted in words of 8 bytes, as the code counts it: every push moves `rsp`
by one word, and `stack_bottom` is indexed as an array of words.

`__switch_to_stack` is cut where the stack changes. `switchOut_spec` says that its
first part leaves the registers of the caller on the caller's stack;
`switchIn_spec` says that its second part takes the registers of the other thread from that
thread's stack, with the call of `pet_thread_cleanup` in between.
-/

namespace PetLab.Threads

open PetLab.Lib

/-- The registers the code uses. -/
inductive Reg
  | rax | rbx | rcx | rdx | rdi | rsi | r8 | r9 | r10 | r11 | r12 | r13 | r14 | r15 | rbp | rsp | rip
  deriving DecidableEq, Repr

/-- `rsp` is the stack pointer, `rip` the instruction pointer. -/
def x86 : Pointers Reg := ⟨.rsp, .rip, by decide⟩

/-- Where the linker has put the functions, and the addresses after the two calls the
assembly makes. -/
structure Text where
  /-- `__switch_to_stack`. -/
  switchToStack : ℕ
  /-- `pet_thread_cleanup`. -/
  petThreadCleanup : ℕ
  /-- After the call of `pet_thread_cleanup`. -/
  afterCleanup : ℕ
  /-- `__capture_return`. -/
  captureReturn : ℕ
  /-- `__quarantine`. -/
  quarantine : ℕ
  /-- After the call of `__quarantine`. -/
  afterQuarantine : ℕ

/-! ### The assembly -/

/-- `save_registers`. -/
def saveRegisters : List Reg :=
  [.rbx, .rcx, .rdx, .rdi, .rsi, .r8, .r9, .r10, .r11, .r12, .r13, .r14, .r15, .rbp]

/-- `restore_registers`. -/
def restoreRegisters : List Reg :=
  [.rbp, .r15, .r14, .r13, .r12, .r11, .r10, .r9, .r8, .rsi, .rdi, .rdx, .rcx, .rbx]

/-- The fields of `struct exec_ctx`, in order. -/
def execCtx : List Reg :=
  [.rbp, .r15, .r14, .r13, .r12, .r11, .r10, .r9, .r8, .rsi, .rdi, .rdx, .rcx, .rbx, .rip]

/-- The first part of `__switch_to_stack`, on the stack of the thread that calls it. -/
def switchOut : List (Instr Reg) :=
  saveRegisters.map Instr.push ++ [Instr.store Reg.rsp Reg.rsi]

/-- The second part, from `movq (%rdi), %rsp` on, on the stack of the thread to go on with. -/
def switchIn (x : Text) : List (Instr Reg) :=
  [Instr.load Reg.rdi Reg.rsp, Instr.mov Reg.rdx Reg.rdi, Instr.mov Reg.rcx Reg.rsi] ++
    callReturn x.petThreadCleanup x.afterCleanup ++ restoreRegisters.map Instr.pop ++ [Instr.ret]

/-- `__switch_to_stack`. -/
def switchToStack (x : Text) : List (Instr Reg) := switchOut ++ switchIn x

/-- `__capture_return`, up to the entry of `__quarantine`, which does not return. -/
def captureReturn (x : Text) : List (Instr Reg) := [.mov .rax .rdi, .call x.quarantine x.afterQuarantine]

/-- What was pushed by the call and by `save_registers` is a `struct exec_ctx`. -/
theorem execCtx_eq_saved : execCtx = (Reg.rip :: saveRegisters).reverse := rfl

/-- `restore_registers` and `ret` pop a `struct exec_ctx`. -/
theorem execCtx_eq_restored : execCtx = restoreRegisters ++ [.rip] := rfl

theorem execCtx_nodup : execCtx.Nodup := by decide

/-! ### Saving -/

section

variable {x : Text} {B : Cpu Reg → Cpu Reg → Prop} {c c' : Cpu Reg} {f : Reg → ℕ}

/-- **Switching out**: when `__switch_to_stack` has been called with return address `rip` and has
saved the registers, the words below the old `rsp` are the context of the caller, and
the word `rsi` points at holds their address. -/
theorem switchOut_spec {back : ℕ} (h : Exec (Instr.Step x86 B) c (.call x.switchToStack back :: switchOut) c')
    (hback : back = c.reg .rip) (hroom : 15 ≤ c.reg .rsp)
    (hcell : c.reg .rsi + 15 < c.reg .rsp ∨ c.reg .rsp ≤ c.reg .rsi) :
    c'.reg .rsp + 15 = c.reg .rsp ∧ (∀ r, r ≠ .rsp → r ≠ .rip → c'.reg r = c.reg r) ∧
      Holds c'.mem (c'.reg .rsp) (execCtx.map c.reg) ∧ c'.mem (c.reg .rsi) = c'.reg .rsp ∧
      ∀ a, a < c'.reg .rsp ∨ c.reg .rsp ≤ a → a ≠ c.reg .rsi → c'.mem a = c.mem a := by
  obtain ⟨c₀, hc₀, h⟩ := exec_cons_iff.mp h
  obtain ⟨c₁, hpush, h⟩ := exec_append.mp h
  obtain ⟨_, rfl, h⟩ := exec_cons_iff.mp h
  obtain rfl := exec_nil_iff.mp h
  have hc₀ : c₀ = c.call x86 x.switchToStack back := hc₀
  have hsp₀ : c₀.reg .rsp = c.reg .rsp - 1 := hc₀ ▸ Cpu.call_sp (P := x86)
  have hreg₀ : ∀ r, r ≠ .rsp → r ≠ .rip → c₀.reg r = c.reg r := fun r hr hr' => by
    rw [hc₀, Cpu.call_of_ne (P := x86) hr hr']
  have htop : c₀.mem (c.reg .rsp - 1) = c.reg .rip := by
    rw [hc₀, ← hback]
    exact Cpu.call_top (P := x86)
  have hmem₀ : ∀ a, a ≠ c.reg .rsp - 1 → c₀.mem a = c.mem a := fun a ha => by
    rw [hc₀, Cpu.call_mem (P := x86) ha]
  have hlen : saveRegisters.length = 14 := rfl
  obtain ⟨hsp, hreg, hold, hmem⟩ := exec_push (P := x86) hpush (by decide) (by show _ ≤ c₀.reg .rsp; omega)
  simp only [show x86.sp = .rsp from rfl] at hsp hreg hold hmem
  have hcell₁ : c₁.reg .rsi = c.reg .rsi := by rw [hreg _ (by decide), hreg₀ _ (by decide) (by decide)]
  show c₁.reg .rsp + 15 = c.reg .rsp ∧ (∀ r, r ≠ .rsp → r ≠ .rip → c₁.reg r = c.reg r) ∧
    Holds (c₁.write (c₁.reg .rsi) (c₁.reg .rsp)).mem (c₁.reg .rsp) (execCtx.map c.reg) ∧
    (c₁.write (c₁.reg .rsi) (c₁.reg .rsp)).mem (c.reg .rsi) = c₁.reg .rsp ∧
    ∀ a, a < c₁.reg .rsp ∨ c.reg .rsp ≤ a → a ≠ c.reg .rsi →
      (c₁.write (c₁.reg .rsi) (c₁.reg .rsp)).mem a = c.mem a
  rw [hcell₁]
  refine ⟨by omega, fun r hr hr' => (hreg r hr).trans (hreg₀ r hr hr'), ?_, Cpu.write_self .., fun a ha hne => ?_⟩
  · -- the return address is on top of the registers
    have hctx : Holds c₁.mem (c₁.reg .rsp) (execCtx.map c.reg) := by
      rw [execCtx_eq_saved, List.reverse_cons, List.map_append, holds_append]
      constructor
      · have hr : ∀ r ∈ saveRegisters.reverse, r ≠ .rsp ∧ r ≠ .rip := by decide
        rw [← List.map_congr_left fun r h => hreg₀ r (hr r h).1 (hr r h).2]
        exact hold
      · refine ⟨?_, trivial⟩
        rw [List.length_map, List.length_reverse, show c₁.reg .rsp + saveRegisters.length = c.reg .rsp - 1 by omega,
          hmem _ (.inr (by omega))]
        exact htop
    refine hctx.congr fun a ha ha' => Cpu.write_of_ne ?_
    rw [List.length_map, show execCtx.length = 15 from rfl] at ha'
    omega
  · rw [Cpu.write_of_ne hne, hmem a (by omega), hmem₀ a (by omega)]

/-! ### Restoring -/

/-- What the body of a function may do that is called with the stack pointer at `sp`: it
gives `rsp` back as it was, and the words that `K sp` protects. -/
def Body (K : ℕ → ℕ → Prop) (c c' : Cpu Reg) : Prop :=
  c'.reg .rsp = c.reg .rsp ∧ ∀ a, K (c.reg .rsp) a → c'.mem a = c.mem a

/-- **Switching in**: where `rdi` points at the address of a context, the registers
of the context are taken, and `rsp` is left above it. The call of `pet_thread_cleanup`
makes no difference to this if it leaves alone the context and its own return address below it. -/
theorem switchIn_spec {K : ℕ → ℕ → Prop} {p : ℕ} (h : Exec (Instr.Step x86 (Body K)) c (switchIn x) c')
    (hp : c.mem (c.reg .rdi) = p) (hpos : 0 < p) (hold : Holds c.mem p (execCtx.map f))
    (hK : ∀ a, p - 1 ≤ a → a < p + 15 → K (p - 1) a) :
    (∀ r ∈ execCtx, c'.reg r = f r) ∧ c'.reg .rsp = p + 15 ∧
      ∀ a, K (p - 1) a → a ≠ p - 1 → c'.mem a = c.mem a := by
  rw [switchIn, List.append_assoc, List.append_assoc] at h
  obtain ⟨c₁, hload, h⟩ := exec_append.mp h
  obtain ⟨c₂, hcall, h⟩ := exec_append.mp h
  obtain ⟨c₃, hpop, h⟩ := exec_append.mp h
  obtain ⟨_, rfl, h⟩ := exec_cons_iff.mp h
  obtain rfl := exec_nil_iff.mp h
  -- `movq (%rdi), %rsp` and the arguments
  obtain ⟨hsp₁, hmem₁⟩ : c₁.reg .rsp = p ∧ c₁.mem = c.mem := by
    obtain ⟨_, rfl, hload⟩ := exec_cons_iff.mp hload
    obtain ⟨_, rfl, hload⟩ := exec_cons_iff.mp hload
    obtain ⟨_, rfl, hload⟩ := exec_cons_iff.mp hload
    obtain rfl := exec_nil_iff.mp hload
    exact ⟨hp, rfl⟩
  -- `call pet_thread_cleanup`
  obtain ⟨d, hd, rfl⟩ := exec_callReturn hcall
  obtain ⟨c₁', hc₁'⟩ : ∃ c₁', c₁' = c₁.call x86 x.petThreadCleanup x.afterCleanup := ⟨_, rfl⟩
  rw [← hc₁'] at hd
  have hsp₁' : c₁'.reg .rsp = p - 1 := by
    rw [hc₁', ← hsp₁]
    exact Cpu.call_sp (P := x86)
  have hmem₁' : ∀ a, a ≠ p - 1 → c₁'.mem a = c.mem a := by
    intro a ha
    rw [← hsp₁] at ha
    rw [hc₁', ← hmem₁, Cpu.call_mem (P := x86) ha]
  obtain ⟨hdsp, hdmem⟩ := hd
  rw [hsp₁'] at hdsp hdmem
  have hsp₂ : (d.pop x86 x86.ip).reg .rsp = p := by
    rw [show (d.pop x86 x86.ip).reg .rsp = d.reg .rsp + 1 from Cpu.pop_sp x86.sp_ne_ip, hdsp]
    omega
  have hctx : Holds d.mem p (execCtx.map f) := by
    refine hold.congr fun a ha ha' => ?_
    rw [List.length_map, show execCtx.length = 15 from rfl] at ha'
    rw [hdmem a (hK a (by omega) ha'), hmem₁' a (by omega)]
  -- `restore_registers` and `ret`
  rw [execCtx_eq_restored, List.map_append, holds_append, List.length_map] at hctx
  obtain ⟨hregs, hsp, -, hmem⟩ := exec_pop (P := x86) (f := f) hpop (by decide)
    (by rw [show x86.sp = .rsp from rfl, hsp₂]; exact hctx.1)
  rw [show x86.sp = .rsp from rfl, hsp₂, show restoreRegisters.length = 14 from rfl] at hsp
  have hrip : (c₃.pop x86 .rip).reg .rip = f .rip := by
    rw [Cpu.pop_self, show x86.sp = .rsp from rfl, hsp, hmem]
    exact hctx.2.1
  refine ⟨fun r hr => ?_, ?_, fun a ha ha' => ?_⟩
  · rw [execCtx_eq_restored, List.mem_append, List.mem_singleton] at hr
    rcases hr with hr | rfl
    · obtain ⟨h₁, h₂⟩ : r ≠ .rip ∧ r ≠ .rsp := by
        constructor <;> rintro rfl <;> revert hr <;> decide
      rw [← hregs r hr]
      exact Cpu.pop_of_ne h₁ h₂
    · exact hrip
  · show (c₃.pop x86 x86.ip).reg .rsp = p + 15
    rw [show (c₃.pop x86 x86.ip).reg .rsp = c₃.reg .rsp + 1 from Cpu.pop_sp x86.sp_ne_ip, hsp]
  · show c₃.mem a = c.mem a
    rw [hmem]
    exact (hdmem a ha).trans (hmem₁' a ha')

/-! ### Returning -/

/-- **`__capture_return`** enters `__quarantine` with what was in `rax` as its argument. -/
theorem captureReturn_spec (c : Cpu Reg) :
    ((captureReturn x).foldl (Instr.apply x86) c).reg .rip = x.quarantine ∧
      ((captureReturn x).foldl (Instr.apply x86) c).reg .rdi = c.reg .rax ∧
      ∀ a, a ≠ c.reg .rsp - 1 → ((captureReturn x).foldl (Instr.apply x86) c).mem a = c.mem a := by
  change ((c.set .rdi (c.reg .rax)).call x86 x.quarantine x.afterQuarantine).reg .rip = _ ∧
    ((c.set .rdi (c.reg .rax)).call x86 x.quarantine x.afterQuarantine).reg .rdi = _ ∧
    ∀ a, a ≠ c.reg .rsp - 1 → ((c.set .rdi (c.reg .rax)).call x86 x.quarantine x.afterQuarantine).mem a = c.mem a
  refine ⟨Cpu.call_ip (P := x86), ?_, fun a ha => Cpu.call_mem (P := x86) ha⟩
  rw [Cpu.call_of_ne (P := x86) (by decide) (by decide), Cpu.set_self]

/-! ### The first context -/

/-- `STACK_SIZE`, in bytes. -/
def stackSize : ℕ := 4096 * 32

/-- `num_entries`: how many words a stack has. -/
def numEntries : ℕ := stackSize / 8

/-- The offset of a field in `struct exec_ctx`. -/
def offset (r : Reg) : ℕ := execCtx.idxOf r

/-- `calloc` fills the words from `a` on with zeros. -/
def calloc (m : ℕ → ℕ) (a n : ℕ) : ℕ → ℕ := fun b => if a ≤ b ∧ b < a + n then 0 else m b

/-- What `pet_thread_create` writes, for a stack at `bottom` and a record whose field
`stack_rsp` is the word `cell`. -/
def createStack (x : Text) (m : ℕ → ℕ) (bottom cell func arg : ℕ) : ℕ → ℕ :=
  let initCtx := bottom + (numEntries - 16)
  let m := calloc m bottom numEntries
  let m := Function.update m (initCtx + offset .rip) func
  let m := Function.update m (initCtx + offset .rbp) (bottom + (numEntries - 1))
  let m := Function.update m (initCtx + offset .rdi) arg
  let m := Function.update m (bottom + (numEntries - 1)) x.captureReturn
  Function.update m cell (bottom + (numEntries - 16))

/-- The registers a thread starts with, where `base` is the address of the last word of its stack. -/
def firstReg (func arg base : ℕ) : Reg → ℕ
  | .rip => func
  | .rbp => base
  | .rdi => arg
  | .rsp => base
  | _ => 0

theorem numEntries_eq : numEntries = 16384 := rfl

theorem offset_lt {r : Reg} (hr : r ∈ execCtx) : offset r < 15 := List.idxOf_lt_length_of_mem hr

theorem offset_inj {r s : Reg} (hr : r ∈ execCtx) : offset r = offset s ↔ r = s := List.idxOf_inj hr

/-- **A new stack** has a context for the thread function and its argument, which `stack_rsp` points at, and
above the context the return address of the thread function. -/
theorem createStack_spec {m : ℕ → ℕ} {bottom cell : ℕ} (func arg : ℕ)
    (hcell : cell < bottom ∨ bottom + numEntries ≤ cell) :
    Holds (createStack x m bottom cell func arg) (bottom + (numEntries - 16))
        (execCtx.map (firstReg func arg (bottom + (numEntries - 1)))) ∧
      createStack x m bottom cell func arg (bottom + (numEntries - 1)) = x.captureReturn ∧
      createStack x m bottom cell func arg cell = bottom + (numEntries - 16) ∧
      ∀ a, a < bottom ∨ bottom + numEntries ≤ a → a ≠ cell → createStack x m bottom cell func arg a = m a := by
  simp only [numEntries_eq, Nat.reduceSub] at hcell ⊢
  refine ⟨holds_map_of_idxOf execCtx_nodup fun r hr => ?_, ?_, Function.update_self .., fun a ha hne => ?_⟩
  · have hlt := offset_lt hr
    have hoff : ∀ s, bottom + 16368 + offset r = bottom + 16368 + offset s ↔ r = s := fun s =>
      Nat.add_left_cancel_iff.trans (offset_inj hr)
    change createStack x m bottom cell func arg (bottom + 16368 + offset r) = _
    simp only [createStack, numEntries_eq, Nat.reduceSub, Function.update_apply, hoff]
    have hzero : calloc m bottom 16384 (bottom + 16368 + offset r) = 0 := if_pos (by omega)
    rw [if_neg (by omega), if_neg (by omega), hzero]
    cases r with
    | rsp => exact absurd hr (by decide)
    | _ => rfl
  · simp only [createStack, numEntries_eq, Nat.reduceSub]
    rw [Function.update_of_ne (by omega), Function.update_self]
  · have hlt : ∀ r ∈ execCtx, a ≠ bottom + 16368 + offset r := fun r hr => by have := offset_lt hr; omega
    simp only [createStack, numEntries_eq, Nat.reduceSub]
    rw [Function.update_of_ne hne, Function.update_of_ne (by omega), Function.update_of_ne (hlt _ (by decide)),
      Function.update_of_ne (hlt _ (by decide)), Function.update_of_ne (hlt _ (by decide)), calloc,
      if_neg (by omega)]

end

end PetLab.Threads
