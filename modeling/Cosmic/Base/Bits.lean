/-
The bits of bytes, and prefixes of bits compared a byte at a time.

Two addresses share their first `n` bits when their first `n / 8` bytes are equal and the next ones
agree under the mask of the `n % 8` bits left over. That is how every network prefix is compared;
here it is said of bits, and the comparison of bytes is proved to mean it.
-/
import Cosmic.Base.Text
import Mathlib.Data.Nat.Bitwise
import Mathlib.Tactic.IntervalCases

set_option autoImplicit false

namespace Cosmic.Base

open List Nat

def byte_bits (b : UInt8) : List Bool := (List.range 8).map fun i => b.toNat.testBit (7 - i)

def bits (s : Bytes) : List Bool := s.flatMap byte_bits

/-- The mask of the highest `n` bits of a byte. -/
def high_mask (n : ℕ) : UInt8 := UInt8.ofNat ((0xff <<< (8 - n)) &&& 0xff)

@[simp] theorem byte_bits_length (b : UInt8) : (byte_bits b).length = 8 := by simp [byte_bits]

@[simp] theorem bits_nil : bits [] = [] := rfl

theorem bits_cons (b : UInt8) (s : Bytes) : bits (b :: s) = byte_bits b ++ bits s := rfl

theorem bits_length (s : Bytes) : (bits s).length = 8 * s.length := by
  induction s with
  | nil => rfl
  | cons b s ih =>
    rw [bits_cons, length_append, ih, byte_bits_length, length_cons]
    omega

theorem take_byte_bits {a b : UInt8} {n : ℕ} (hn : n ≤ 8) : (byte_bits a).take n = (byte_bits b).take n ↔
      ∀ i, i < n → a.toNat.testBit (7 - i) = b.toNat.testBit (7 - i) := by
  unfold byte_bits
  rw [← map_take, ← map_take, take_range, Nat.min_eq_left hn, map_inj_left]
  simp only [mem_range]

theorem byte_eq_of_testBit {a b : UInt8} (h : ∀ i, i < 8 → a.toNat.testBit i = b.toNat.testBit i) : a = b := by
  apply UInt8.toNat_inj.mp
  apply eq_of_testBit_eq
  intro i
  by_cases hi : i < 8
  · exact h i hi
  · have hpow : 2 ^ 8 ≤ 2 ^ i := Nat.pow_le_pow_right (by decide) (by omega)
    have ha := a.toNat_lt
    have hb := b.toNat_lt
    rw [testBit_eq_false_of_lt (by omega), testBit_eq_false_of_lt (by omega)]

theorem byte_bits_inj {a b : UInt8} (h : byte_bits a = byte_bits b) : a = b := by
  have htake := (take_byte_bits (b := b) (n := 8) (Nat.le_refl 8)).mp (by rw [h])
  apply byte_eq_of_testBit
  intro i hi
  have hbit := htake (7 - i) (by omega)
  rwa [show 7 - (7 - i) = i by omega] at hbit

theorem high_mask_testBit {n i : ℕ} (hn : n ≤ 8) (hi : i < 8) :
    (high_mask n).toNat.testBit i = decide (8 - n ≤ i) := by
  interval_cases n <;> interval_cases i <;> decide

theorem and_high_mask {a b : UInt8} {n : ℕ} (hn : n ≤ 8) :
    a &&& high_mask n = b &&& high_mask n ↔ (byte_bits a).take n = (byte_bits b).take n := by
  have hbit : ∀ (c : UInt8) (i : ℕ), i < 8 →
      (c &&& high_mask n).toNat.testBit i = (c.toNat.testBit i && decide (8 - n ≤ i)) := by
    intro c i hi
    rw [UInt8.toNat_and, testBit_and, high_mask_testBit hn hi]
  rw [take_byte_bits hn]
  constructor
  · intro h i hi
    have ha := hbit a (7 - i) (by omega)
    have hb := hbit b (7 - i) (by omega)
    have hin : decide (8 - n ≤ 7 - i) = true := decide_eq_true (by omega)
    rw [hin, Bool.and_true] at ha hb
    rw [← ha, ← hb, h]
  · intro h
    apply byte_eq_of_testBit
    intro i hi
    rw [hbit a i hi, hbit b i hi]
    by_cases hin : 8 - n ≤ i
    · have hsame := h (7 - i) (by omega)
      rw [show 7 - (7 - i) = i by omega] at hsame
      rw [hsame]
    · rw [decide_eq_false hin, Bool.and_false, Bool.and_false]

/-- Two byte strings of one length share their first `n` bits where their whole bytes are equal
and the next ones agree under the mask. -/
theorem take_bits_iff {s t : Bytes} {n : ℕ} (hlen : s.length = t.length) (hn : n ≤ 8 * s.length) :
    (bits s).take n = (bits t).take n ↔ s.take (n / 8) = t.take (n / 8) ∧
        (n % 8 ≠ 0 → ∀ a b, s[n / 8]? = some a → t[n / 8]? = some b →
          a &&& high_mask (n % 8) = b &&& high_mask (n % 8)) := by
  induction s generalizing t n with
  | nil =>
    obtain rfl : t = [] := length_eq_zero_iff.mp hlen.symm
    simp
  | cons a s ih =>
    obtain ⟨b, t, rfl⟩ : ∃ b u, t = b :: u := by
      cases t with
      | nil => cases hlen
      | cons b t => exact ⟨b, t, rfl⟩
    rw [length_cons, length_cons, Nat.add_right_cancel_iff] at hlen
    rw [bits_cons, bits_cons]
    by_cases hsmall : n < 8
    · have hdiv : n / 8 = 0 := by omega
      have hmod : n % 8 = n := Nat.mod_eq_of_lt hsmall
      rw [take_append_of_le_length (by simp; omega),
        take_append_of_le_length (by simp; omega), hdiv, hmod, ← and_high_mask (by omega)]
      simp only [take_zero, getElem?_cons_zero, Option.some_inj, true_and]
      constructor
      · rintro h - _ _ rfl rfl
        exact h
      intro h
      by_cases hzero : n = 0
      · rw [hzero]
        have hmask : high_mask 0 = 0 := by decide
        rw [hmask, UInt8.and_zero, UInt8.and_zero]
      · exact h hzero a b rfl rfl
    · obtain ⟨m, rfl⟩ : ∃ m, n = m + 8 := ⟨n - 8, by omega⟩
      rw [length_cons] at hn
      have htake : ∀ (c : UInt8) (u : Bytes),
          (byte_bits c ++ bits u).take (m + 8) = byte_bits c ++ (bits u).take m := by
        intro c u
        rw [take_append, byte_bits_length, Nat.add_sub_cancel, take_of_length_le (by rw [byte_bits_length]; omega)]
      have happend : byte_bits a ++ (bits s).take m = byte_bits b ++ (bits t).take m ↔
          byte_bits a = byte_bits b ∧ (bits s).take m = (bits t).take m :=
        ⟨fun h => append_inj h (by simp), fun h => by rw [h.1, h.2]⟩
      rw [htake, htake, happend, show (m + 8) / 8 = m / 8 + 1 by omega, show (m + 8) % 8 = m % 8 by omega,
        take_succ_cons, take_succ_cons, getElem?_cons_succ, getElem?_cons_succ,
        ih hlen (by omega), List.cons.injEq]
      constructor
      · rintro ⟨hab, hst, hmask⟩
        exact ⟨⟨byte_bits_inj hab, hst⟩, hmask⟩
      · rintro ⟨⟨hab, hst⟩, hmask⟩
        exact ⟨by rw [hab], hst, hmask⟩

/-- Byte strings with the same bits are the same. -/
theorem bits_inj {s t : Bytes} (h : bits s = bits t) : s = t := by
  have hlen : s.length = t.length := by
    have h8 := congrArg List.length h
    rw [bits_length, bits_length] at h8
    omega
  have htake := ((take_bits_iff hlen le_rfl).mp (by rw [h])).1
  rw [Nat.mul_div_cancel_left _ (by decide)] at htake
  rwa [take_length, take_of_length_le (Nat.le_of_eq hlen.symm)] at htake

end Cosmic.Base
