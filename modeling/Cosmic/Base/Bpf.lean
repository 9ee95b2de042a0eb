/-
Classic BPF, as `seccomp` runs it: a program of instructions with one accumulator, whose jumps go
forward only.

A jump of `n` skips the next `n` instructions, so a program is run by one pass over it: `run` carries
the number of instructions still to skip. A program that runs off its end, or into an instruction it
does not know, has no result.
-/
import Mathlib.Data.List.Basic

set_option autoImplicit false

namespace Cosmic.Base.Bpf

/-- One instruction. -/
structure Insn where
  code : UInt16
  jt : UInt8
  jf : UInt8
  k : UInt32
  deriving DecidableEq, Repr

/-- What one instruction leaves: instructions to skip and the accumulator, or the program's result. -/
inductive Effect where
  | go (skip : ℕ) (a : UInt32)
  | ret (k : UInt32)
  | bad

/-- One instruction, with the words of the data it judges. -/
def Insn.step (data : UInt32 → Option UInt32) (i : Insn) (a : UInt32) : Effect :=
  if i.code = 0x20 then
    match data i.k with
    | some w => .go 0 w
    | none => .bad
  else if i.code = 0x15 then .go (if a = i.k then i.jt else i.jf).toNat a
  else if i.code = 0x35 then .go (if i.k ≤ a then i.jt else i.jf).toNat a
  else if i.code = 0x54 then .go 0 (a &&& i.k)
  else if i.code = 0x05 then .go i.k.toNat a
  else if i.code = 0x06 then .ret i.k
  else .bad

/-- Runs a program, the first `skip` instructions left out. -/
def run (data : UInt32 → Option UInt32) : List Insn → ℕ → UInt32 → Option UInt32
  | [], _, _ => none
  | _ :: rest, skip + 1, a => run data rest skip a
  | i :: rest, 0, a =>
    match i.step data a with
    | .go skip a => run data rest skip a
    | .ret k => some k
    | .bad => none

variable {data : UInt32 → Option UInt32}

theorem run_skip (skipped rest : List Insn) (a : UInt32) :
    run data (skipped ++ rest) skipped.length a = run data rest 0 a := by
  induction skipped with
  | nil => rfl
  | cons i skipped ih => exact ih

/-- A jump over whole blocks goes on after them. -/
theorem run_skip_of {skipped rest : List Insn} {n : ℕ} (h : skipped.length = n) (a : UInt32) :
    run data (skipped ++ rest) n a = run data rest 0 a := by
  rw [← h, run_skip]

theorem run_load {jt jf : UInt8} {k w : UInt32} (h : data k = some w) (rest : List Insn)
    (a : UInt32) : run data (⟨0x20, jt, jf, k⟩ :: rest) 0 a = run data rest 0 w := by
  rw [run, Insn.step, if_pos rfl, h]

theorem run_equal (jt jf : UInt8) (k : UInt32) (rest : List Insn) (a : UInt32) :
    run data (⟨0x15, jt, jf, k⟩ :: rest) 0 a =
      if a = k then run data rest jt.toNat a else run data rest jf.toNat a := by
  have hstep : Insn.step data ⟨0x15, jt, jf, k⟩ a = .go (if a = k then jt else jf).toNat a := rfl
  rw [run, hstep]
  dsimp only
  split
  · rfl
  · rfl

theorem run_at_least (jt jf : UInt8) (k : UInt32) (rest : List Insn) (a : UInt32) :
    run data (⟨0x35, jt, jf, k⟩ :: rest) 0 a =
      if k ≤ a then run data rest jt.toNat a else run data rest jf.toNat a := by
  have hstep : Insn.step data ⟨0x35, jt, jf, k⟩ a = .go (if k ≤ a then jt else jf).toNat a := rfl
  rw [run, hstep]
  dsimp only
  split
  · rfl
  · rfl

end Cosmic.Base.Bpf
