/-
Numbers of a file, the most significant byte first.
-/
import Cosmic.Base.Attempt
import Cosmic.Base.Search
import Mathlib.Data.Nat.Bitwise

set_option autoImplicit false

namespace Cosmic.Base

open Attempt List Nat

/-! ## What the bytes are -/

/-- The number that the bytes of `s` are. -/
def big_endian (s : Bytes) : ℕ := s.foldl (fun n b => 256 * n + b.toNat) 0

/-- The number that the `size` bytes of `data` at `i` are. -/
def nat_at (data : Bytes) (size i : ℕ) : ℕ := big_endian (sub data i (i + size - 1))

/-- The number that they are in two's complement. -/
def int_at (data : Bytes) (size i : ℕ) : ℤ := Int.bmod (nat_at data size i) (2 ^ (8 * size))

/-! ## Reading them -/

/-- The byte at `i`: a read outside the data raises. -/
def byte_at (data : Bytes) (i : ℕ) : Attempt ℕ := need ((byte data i).map UInt8.toNat)

/-- The bytes from `i` on are of the data, `n` of them. -/
def Within (data : Bytes) (i n : ℕ) : Prop := 1 ≤ i ∧ i + n ≤ data.length + 1

variable {data : Bytes} {i n : ℕ}

theorem Within.of_le {i' n' : ℕ} (h : Within data i n) (hi : i ≤ i') (hn : i' + n' ≤ i + n) :
    Within data i' n' := ⟨h.1.trans hi, hn.trans h.2⟩

variable {j : ℕ}

theorem Within.byte (h : Within data i n) (hij : i ≤ j) (hj : j < i + n) : ∃ b, Base.byte data j = some b :=
  byte_of_le (h.1.trans hij) (le_of_lt_succ (hj.trans_le h.2))

theorem byte_at_safe (h : Within data i n) (hij : i ≤ j) (hj : j < i + n) :
    Safe (byte_at data j) (fun v => ∃ b, byte data j = some b ∧ b.toNat = v) := by
  obtain ⟨b, hb⟩ := h.byte hij hj
  refine safe_need ⟨b.toNat, ?_, b, hb, rfl⟩
  rw [hb]
  rfl

variable {b : UInt8}

theorem sub_succ (hi : 1 ≤ i) (hj : i ≤ j) (hb : byte data j = some b) :
    sub data i j = sub data i (j - 1) ++ [b] := by
  obtain ⟨k, rfl⟩ := Nat.exists_eq_add_of_le' (hi.trans hj)
  obtain ⟨hlt, hb⟩ := List.getElem?_eq_some_iff.mp hb
  unfold sub
  rw [Nat.add_sub_cancel]
  rw [take_succ_eq_append_getElem hlt, hb, drop_append_of_le_length]
  rw [length_take]
  omega

theorem sub_cons (hi : 1 ≤ i) (hj : i ≤ j) (hb : byte data i = some b) : sub data i j = b :: sub data (i + 1) j := by
  obtain ⟨k, rfl⟩ := Nat.exists_eq_add_of_le' hi
  obtain ⟨hlt, hb⟩ := List.getElem?_eq_some_iff.mp hb
  have hlen : k < (data.take j).length := by
    rw [length_take]
    omega
  unfold sub
  rw [Nat.add_sub_cancel, Nat.add_sub_cancel, drop_eq_getElem_cons hlen, getElem_take, hb]

theorem mem_sub (hi : 1 ≤ i) (h : b ∈ sub data i j) : ∃ k, i ≤ k ∧ k ≤ j ∧ byte data k = some b := by
  obtain ⟨k, hk, rfl⟩ := getElem_of_mem h
  unfold sub at hk ⊢
  rw [length_drop, length_take] at hk
  refine ⟨i + k, by omega, by omega, ?_⟩
  rw [byte_eq data (by omega), getElem_drop, getElem_take, getElem?_eq_getElem (by omega)]
  congr 2
  omega

theorem big_endian_append (s : Bytes) (b : UInt8) : big_endian (s ++ [b]) = 256 * big_endian s + b.toNat := by
  unfold big_endian
  rw [foldl_append]
  rfl

variable {size : ℕ}

theorem nat_at_succ (hi : 1 ≤ i) (hb : byte data (i + size) = some b) :
    nat_at data (size + 1) i = 256 * nat_at data size i + b.toNat := by
  unfold nat_at
  rw [show i + (size + 1) - 1 = i + size by omega, sub_succ hi (by omega) hb, big_endian_append]

theorem nat_at_zero (data : Bytes) (hi : 1 ≤ i) : nat_at data 0 i = 0 := by
  unfold nat_at sub
  rw [drop_eq_nil_of_le]
  · rfl
  · rw [length_take]
    omega

/-- The next bytes are the low ones. -/
theorem nat_at_add (hi : 1 ≤ i) (more : ℕ) (h : i + (size + more) ≤ data.length + 1) :
    nat_at data (size + more) i = 256 ^ more * nat_at data size i + nat_at data more (i + size) := by
  induction more with
  | zero =>
    rw [nat_at_zero data (by omega), pow_zero, one_mul, Nat.add_zero, Nat.add_zero]
  | succ more ih =>
    obtain ⟨b, hb⟩ := byte_of_le (s := data) (i := i + size + more) (by omega) (by omega)
    rw [← Nat.add_assoc size more 1, nat_at_succ hi (by rw [← Nat.add_assoc]; exact hb), nat_at_succ (by omega) hb,
      ih (by omega)]
    ring

theorem nat_at_lt (h : Within data i size) : nat_at data size i < 256 ^ size := by
  induction size with
  | zero =>
    rw [nat_at_zero data h.1]
    exact Nat.one_pos
  | succ size ih =>
    obtain ⟨b, hb⟩ := h.byte (j := i + size) (by omega) (by omega)
    have hlt := ih (h.of_le le_rfl (by omega))
    have hb' := b.toNat_lt
    rw [nat_at_succ h.1 hb, pow_succ]
    omega

/-- Four bytes put together by shifts. -/
theorem shifts_eq {a b c d : ℕ} (hb : b < 256) (hc : c < 256) (hd : d < 256) :
    (a <<< 24) ||| (b <<< 16) ||| (c <<< 8) ||| d = 256 * (256 * (256 * a + b) + c) + d := by
  have h₁ : (a <<< 24) ||| (b <<< 16) = (256 * a + b) <<< 16 := by
    rw [← shiftLeft_add_eq_or_of_lt (by rw [Nat.shiftLeft_eq]; omega)]
    simp only [Nat.shiftLeft_eq]
    ring
  have h₂ : ((256 * a + b) <<< 16) ||| (c <<< 8) = (256 * (256 * a + b) + c) <<< 8 := by
    rw [← shiftLeft_add_eq_or_of_lt (by rw [Nat.shiftLeft_eq]; omega)]
    simp only [Nat.shiftLeft_eq]
    ring
  rw [h₁, h₂, ← shiftLeft_add_eq_or_of_lt (by omega), Nat.shiftLeft_eq]
  ring

end Cosmic.Base
