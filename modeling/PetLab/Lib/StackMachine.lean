import Mathlib.Logic.Function.Basic
import PetLab.Lib.Run

/-!
# A register machine with a stack

A processor has registers, one of them the stack pointer and one the instruction
pointer, and a memory of words. The stack grows downwards. `Instr` has the
instructions that save and restore registers and that call and return, and a
piece of code is run by `Exec`, one instruction after the other.

The body of a function written elsewhere is one step, `Instr.body`, and a relation
`B` says what it can do. What is proved of code that calls it holds of every function
that keeps to `B`.

`exec_push` and `exec_pop` say what a block of pushes and a block of pops do:
pushing registers lays their values out in memory in reverse order (`Holds`), and popping
takes them from there.
-/

namespace PetLab.Lib

/-- A processor, and the memory it works on. -/
structure Cpu (ρ : Type*) where
  /-- The registers. -/
  reg : ρ → ℕ
  /-- The words of the memory, by address. -/
  mem : ℕ → ℕ

/-- Which registers point at the stack and at the code. -/
structure Pointers (ρ : Type*) where
  /-- The stack pointer. -/
  sp : ρ
  /-- The instruction pointer. -/
  ip : ρ
  /-- They are two registers. -/
  sp_ne_ip : sp ≠ ip

/-- Instructions. -/
inductive Instr (ρ : Type*)
  /-- Push a register. -/
  | push (r : ρ)
  /-- Pop a register. -/
  | pop (r : ρ)
  /-- Copy one register to another. -/
  | mov (src dst : ρ)
  /-- Write a register to the word another one points at. -/
  | store (src dst : ρ)
  /-- Read the word a register points at. -/
  | load (src dst : ρ)
  /-- Push the return address and go to a function. -/
  | call (target back : ℕ)
  /-- Pop the instruction pointer. -/
  | ret
  /-- The function called does what it does. -/
  | body

/-- The words `vs` stand in memory `m` from address `p` on. -/
def Holds (m : ℕ → ℕ) : ℕ → List ℕ → Prop
  | _, [] => True
  | p, v :: vs => m p = v ∧ Holds m (p + 1) vs

section

variable {m m' : ℕ → ℕ} {p : ℕ} {vs ws : List ℕ}

theorem holds_append : Holds m p (vs ++ ws) ↔ Holds m p vs ∧ Holds m (p + vs.length) ws := by
  induction vs generalizing p with
  | nil => simp [Holds]
  | cons v vs ih =>
    rw [List.cons_append, Holds, Holds, ih, List.length_cons, and_assoc, Nat.add_right_comm p 1, Nat.add_assoc p]

/-- Words stay where they are while nothing is written over them. -/
theorem Holds.congr (h : Holds m p vs) (hm : ∀ a, p ≤ a → a < p + vs.length → m' a = m a) : Holds m' p vs := by
  induction vs generalizing p with
  | nil => trivial
  | cons v vs ih =>
    have hl : (v :: vs).length = vs.length + 1 := rfl
    refine ⟨?_, ih h.2 fun a ha ha' => hm a (by omega) (by omega)⟩
    rw [hm p (Nat.le_refl p) (by omega)]
    exact h.1

/-- A record whose fields are written one by one, each at its offset. -/
theorem holds_map_of_idxOf {ρ : Type*} [DecidableEq ρ] {rs : List ρ} {f : ρ → ℕ} (hnd : rs.Nodup)
    (h : ∀ r ∈ rs, m (p + rs.idxOf r) = f r) : Holds m p (rs.map f) := by
  induction rs generalizing p with
  | nil => trivial
  | cons r rs ih =>
    obtain ⟨hr, hnd⟩ := List.nodup_cons.mp hnd
    refine ⟨?_, ih hnd fun s hs => ?_⟩
    · have := h r List.mem_cons_self
      rwa [List.idxOf_cons_self, Nat.add_zero] at this
    · have hsr : r ≠ s := fun hrs => hr (hrs ▸ hs)
      have := h s (List.mem_cons_of_mem r hs)
      rwa [List.idxOf_cons, beq_false_of_ne hsr, cond_false, Nat.add_comm _ 1, ← Nat.add_assoc] at this

end

section

variable {ρ : Type*}

/-- Write `v` to the word at `a`. -/
def Cpu.write (c : Cpu ρ) (a v : ℕ) : Cpu ρ := { c with mem := Function.update c.mem a v }

@[simp] theorem Cpu.write_reg (c : Cpu ρ) (a v : ℕ) : (c.write a v).reg = c.reg := rfl

@[simp] theorem Cpu.write_self (c : Cpu ρ) (a v : ℕ) : (c.write a v).mem a = v := Function.update_self ..

@[simp] theorem Cpu.write_of_ne {c : Cpu ρ} {a b v : ℕ} (h : b ≠ a) : (c.write a v).mem b = c.mem b :=
  Function.update_of_ne h ..

variable [DecidableEq ρ]

/-- Give register `r` the value `v`. -/
def Cpu.set (c : Cpu ρ) (r : ρ) (v : ℕ) : Cpu ρ := { c with reg := Function.update c.reg r v }

@[simp] theorem Cpu.set_mem (c : Cpu ρ) (r : ρ) (v : ℕ) : (c.set r v).mem = c.mem := rfl

@[simp] theorem Cpu.set_self (c : Cpu ρ) (r : ρ) (v : ℕ) : (c.set r v).reg r = v := Function.update_self ..

@[simp] theorem Cpu.set_of_ne {c : Cpu ρ} {r s : ρ} {v : ℕ} (h : s ≠ r) : (c.set r v).reg s = c.reg s :=
  Function.update_of_ne h ..

variable (P : Pointers ρ)

/-- Put a value on the stack. -/
def Cpu.push (c : Cpu ρ) (v : ℕ) : Cpu ρ := (c.set P.sp (c.reg P.sp - 1)).write (c.reg P.sp - 1) v

/-- Take the top of the stack into register `r`. -/
def Cpu.pop (c : Cpu ρ) (r : ρ) : Cpu ρ := (c.set P.sp (c.reg P.sp + 1)).set r (c.mem (c.reg P.sp))

/-- Go to a function, with the return address on the stack. -/
def Cpu.call (c : Cpu ρ) (target back : ℕ) : Cpu ρ := (c.push P back).set P.ip target

section

variable {P} {c : Cpu ρ} {r s : ρ} {a v w : ℕ}

theorem Cpu.push_sp : (c.push P v).reg P.sp = c.reg P.sp - 1 := by simp [Cpu.push]

theorem Cpu.push_of_ne (h : r ≠ P.sp) : (c.push P v).reg r = c.reg r := by simp [Cpu.push, h]

theorem Cpu.push_top : (c.push P v).mem (c.reg P.sp - 1) = v := by simp [Cpu.push]

theorem Cpu.push_mem (h : a ≠ c.reg P.sp - 1) : (c.push P v).mem a = c.mem a := by simp [Cpu.push, h]

theorem Cpu.pop_sp (h : P.sp ≠ r) : (c.pop P r).reg P.sp = c.reg P.sp + 1 := by simp [Cpu.pop, h]

theorem Cpu.pop_self : (c.pop P r).reg r = c.mem (c.reg P.sp) := by simp [Cpu.pop]

theorem Cpu.pop_of_ne (h : s ≠ r) (h' : s ≠ P.sp) : (c.pop P r).reg s = c.reg s := by simp [Cpu.pop, h, h']

theorem Cpu.call_sp : (c.call P v w).reg P.sp = c.reg P.sp - 1 := by
  rw [Cpu.call, Cpu.set_of_ne P.sp_ne_ip, Cpu.push_sp]

theorem Cpu.call_ip : (c.call P v w).reg P.ip = v := by rw [Cpu.call, Cpu.set_self]

theorem Cpu.call_of_ne (h : r ≠ P.sp) (h' : r ≠ P.ip) : (c.call P v w).reg r = c.reg r := by
  rw [Cpu.call, Cpu.set_of_ne h', Cpu.push_of_ne h]

theorem Cpu.call_top : (c.call P v w).mem (c.reg P.sp - 1) = w := Cpu.push_top

theorem Cpu.call_mem (h : a ≠ c.reg P.sp - 1) : (c.call P v w).mem a = c.mem a := Cpu.push_mem h

end

/-- What an instruction does; `body` is for its own code to say. -/
def Instr.apply (c : Cpu ρ) : Instr ρ → Cpu ρ
  | push r => c.push P (c.reg r)
  | pop r => c.pop P r
  | mov src dst => c.set dst (c.reg src)
  | store src dst => c.write (c.reg dst) (c.reg src)
  | load src dst => c.set dst (c.mem (c.reg src))
  | call target back => c.call P target back
  | ret => c.pop P P.ip
  | body => c

/-- One step, where `B` is what the body of a function can do. -/
def Instr.Step (B : Cpu ρ → Cpu ρ → Prop) (c : Cpu ρ) (i : Instr ρ) (c' : Cpu ρ) : Prop :=
  match i with
  | body => B c c'
  | i => c' = i.apply P c

/-- Call a function and come back from it. -/
def callReturn (target back : ℕ) : List (Instr ρ) := [.call target back, .body, .ret]

variable {P} {B : Cpu ρ → Cpu ρ → Prop} {c c' : Cpu ρ} {rs : List ρ} {f : ρ → ℕ}

/-- Code can run if the functions it calls may do nothing. -/
theorem exec_apply (hB : ∀ c, B c c) (c : Cpu ρ) (is : List (Instr ρ)) :
    Exec (Instr.Step P B) c is (is.foldl (Instr.apply P) c) := by
  refine exec_foldl (g := id) (fun c i _ => ?_) c
  cases i with
  | body => exact hB c
  | _ => rfl

/-- Code in which no function is called does what its instructions do. -/
theorem exec_eq_foldl {is : List (Instr ρ)} (h : Exec (Instr.Step P B) c is c') (hbody : .body ∉ is) :
    c' = is.foldl (Instr.apply P) c := by
  induction h with
  | nil => rfl
  | @snoc is i d d' _ hi ih =>
    obtain ⟨his, hne⟩ := not_or.mp (List.mem_append.not.mp hbody)
    rw [List.foldl_append, ← ih his]
    cases i with
    | body => exact absurd (List.mem_singleton_self _) hne
    | _ => exact hi

/-- **Pushing** a block of registers leaves their values below the old top of the
stack, the last one first, and everything else as it was. -/
theorem exec_push (h : Exec (Instr.Step P B) c (rs.map .push) c') (hsp : P.sp ∉ rs)
    (hroom : rs.length ≤ c.reg P.sp) :
    c'.reg P.sp + rs.length = c.reg P.sp ∧ (∀ r, r ≠ P.sp → c'.reg r = c.reg r) ∧
      Holds c'.mem (c'.reg P.sp) (rs.reverse.map c.reg) ∧
      ∀ a, a < c'.reg P.sp ∨ c.reg P.sp ≤ a → c'.mem a = c.mem a := by
  induction rs generalizing c with
  | nil =>
    obtain rfl := exec_nil_iff.mp h
    exact ⟨rfl, fun _ _ => rfl, trivial, fun _ _ => rfl⟩
  | cons r rs ih =>
    obtain ⟨c₁, hc₁, h⟩ := exec_cons_iff.mp (List.map_cons (f := Instr.push) ▸ h)
    obtain ⟨hr, hrs⟩ : P.sp ≠ r ∧ P.sp ∉ rs := by simpa using hsp
    have hl : (r :: rs).length = rs.length + 1 := rfl
    obtain rfl : c₁ = c.push P (c.reg r) := hc₁
    have hsp₁ : (c.push P (c.reg r)).reg P.sp = c.reg P.sp - 1 := Cpu.push_sp
    obtain ⟨h₁, h₂, h₃, h₄⟩ := ih h hrs (by omega)
    refine ⟨by omega, fun s hs => (h₂ s hs).trans (Cpu.push_of_ne hs), ?_, fun a ha => ?_⟩
    · -- the registers pushed later are below the word of `r`, which they leave alone
      rw [List.reverse_cons, List.map_append, holds_append]
      constructor
      · have hreg : ∀ s ∈ rs.reverse, (c.push P (c.reg r)).reg s = c.reg s := by
          intro s hs
          refine Cpu.push_of_ne ?_
          rintro rfl
          exact hrs (List.mem_reverse.mp hs)
        rw [← List.map_congr_left hreg]
        exact h₃
      · refine ⟨?_, trivial⟩
        have ha : c'.reg P.sp + (rs.reverse.map c.reg).length = c.reg P.sp - 1 := by
          rw [List.length_map, List.length_reverse]
          omega
        rw [ha, h₄ _ (.inr (by omega))]
        exact Cpu.push_top
    · rw [h₄ a (by omega), Cpu.push_mem (by omega)]

/-- **Popping** a block of registers takes their values from the words at the top
of the stack, and leaves everything else as it was. -/
theorem exec_pop (h : Exec (Instr.Step P B) c (rs.map .pop) c') (hsp : P.sp ∉ rs)
    (hold : Holds c.mem (c.reg P.sp) (rs.map f)) :
    (∀ r ∈ rs, c'.reg r = f r) ∧ c'.reg P.sp = c.reg P.sp + rs.length ∧
      (∀ r, r ∉ rs → r ≠ P.sp → c'.reg r = c.reg r) ∧ c'.mem = c.mem := by
  induction rs generalizing c with
  | nil =>
    obtain rfl := exec_nil_iff.mp h
    exact ⟨by simp, rfl, fun _ _ _ => rfl, rfl⟩
  | cons r rs ih =>
    obtain ⟨c₁, hc₁, h⟩ := exec_cons_iff.mp (List.map_cons (f := Instr.pop) ▸ h)
    obtain ⟨hr, hrs⟩ : P.sp ≠ r ∧ P.sp ∉ rs := by simpa using hsp
    obtain rfl : c₁ = c.pop P r := hc₁
    have hsp₁ : (c.pop P r).reg P.sp = c.reg P.sp + 1 := Cpu.pop_sp hr
    have hr₁ : (c.pop P r).reg r = f r := Cpu.pop_self.trans hold.1
    obtain ⟨h₁, h₂, h₃, h₄⟩ := ih h hrs (by rw [hsp₁]; exact hold.2)
    refine ⟨fun s hs => ?_, ?_, fun s hs hs' => ?_, h₄⟩
    · by_cases hin : s ∈ rs
      · exact h₁ s hin
      · -- popped here and not again
        obtain rfl : s = r := (List.mem_cons.mp hs).resolve_right hin
        exact (h₃ s hin hr.symm).trans hr₁
    · rw [h₂, hsp₁, List.length_cons]
      omega
    · obtain ⟨hsr, hs⟩ : s ≠ r ∧ s ∉ rs := by simpa using hs
      rw [h₃ s hs hs', Cpu.pop_of_ne hsr hs']

/-- **Calling** a function: it runs from the state the call leads to, and its return pops
the instruction pointer. -/
theorem exec_callReturn {target back : ℕ} (h : Exec (Instr.Step P B) c (callReturn target back) c') :
    ∃ c₁, B (c.call P target back) c₁ ∧ c' = c₁.pop P P.ip := by
  obtain ⟨_, rfl, h⟩ := exec_cons_iff.mp h
  obtain ⟨c₁, hB, h⟩ := exec_cons_iff.mp h
  obtain ⟨_, rfl, h⟩ := exec_cons_iff.mp h
  obtain rfl := exec_nil_iff.mp h
  exact ⟨c₁, hB, rfl⟩

end

end PetLab.Lib
