/-
Byte strings, and whole numbers written in decimal.

A string of the programs modelled here is a string of bytes, whatever they spell. `lit` gives the
bytes of an ASCII literal, and `tostring` the decimal digits of a number.
-/
import Mathlib.Data.List.Basic
import Mathlib.Data.Nat.Digits.Defs

set_option autoImplicit false

namespace Cosmic.Base

open List Bool Nat UInt8

abbrev Bytes : Type := List UInt8

instance : LawfulBEq Bytes := inferInstance

def lit (s : String) : Bytes := s.toList.map (fun c => UInt8.ofNat c.toNat)

/-- A number in decimal. -/
def tostring (n : ℕ) : Bytes := (toDigits 10 n).map (fun c => UInt8.ofNat c.toNat)

/-- `0` to `9`. -/
def isDigit (b : UInt8) : Bool := 48 ≤ b && b ≤ 57

theorem lit_ne_nil (c : Char) (cs : List Char) : lit (String.ofList (c :: cs)) ≠ [] := by
  rw [lit, String.toList_ofList]
  exact cons_ne_nil _ _

theorem lit_append_ne_nil (c : Char) (cs : List Char) (s : Bytes) : lit (String.ofList (c :: cs)) ++ s ≠ [] :=
  append_ne_nil_of_left_ne_nil (lit_ne_nil c cs) s

/-! ## The digits of a number -/

theorem isDigit_of_mem_tostring {n : ℕ} {b : UInt8} (h : b ∈ tostring n) : isDigit b = true := by
  obtain ⟨c, hc, rfl⟩ := mem_map.mp h
  have hd : c.isDigit = true := isDigit_of_mem_toDigits (by decide) (by decide) hc
  simp only [Char.isDigit, and_eq_true, decide_eq_true_eq, ge_iff_le] at hd
  have hlo : 48 ≤ c.toNat := hd.1
  have hhi : c.toNat ≤ 57 := hd.2
  simp only [isDigit, and_eq_true, decide_eq_true_eq, le_iff_toNat_le, toNat_ofNat']
  rw [Nat.mod_eq_of_lt (by omega)]
  exact ⟨hlo, hhi⟩

theorem tostring_ne_nil (n : ℕ) : tostring n ≠ [] := by
  simp only [tostring, ne_eq, map_eq_nil_iff]
  exact toDigits_ne_nil

end Cosmic.Base
