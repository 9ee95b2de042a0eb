/-
UTF-8: the bytes of a character, and the strings that are characters one after another.

A byte that starts a character is never one that continues one, and it says how many follow, so
the characters of a string are found from its bytes alone: `encode` loses nothing.
-/
import Cosmic.Base.Text
import Mathlib.Data.List.Lex

set_option autoImplicit false

namespace Cosmic.Base

open List Bool UInt8

def utf8 (c : Char) : Bytes :=
  let n := c.toNat
  if n < 0x80 then [UInt8.ofNat n]
  else if n < 0x800 then [UInt8.ofNat (0xc0 + n / 64), UInt8.ofNat (0x80 + n % 64)]
  else if n < 0x10000 then
    [UInt8.ofNat (0xe0 + n / 4096), UInt8.ofNat (0x80 + n / 64 % 64), UInt8.ofNat (0x80 + n % 64)]
  else
    [UInt8.ofNat (0xf0 + n / 262144), UInt8.ofNat (0x80 + n / 4096 % 64),
      UInt8.ofNat (0x80 + n / 64 % 64), UInt8.ofNat (0x80 + n % 64)]

def encode (cs : List Char) : Bytes := cs.flatMap utf8

def continues (b : UInt8) : Bool := 0x80 ≤ b && b ≤ 0xbf

@[simp] theorem encode_nil : encode [] = [] := rfl

@[simp] theorem encode_cons (c : Char) (cs : List Char) : encode (c :: cs) = utf8 c ++ encode cs := rfl

theorem encode_append (cs ds : List Char) : encode (cs ++ ds) = encode cs ++ encode ds := flatMap_append

/-! ## Characters by their numbers -/

theorem char_lt (c : Char) : c.toNat < 0x110000 := by
  rcases c.valid with h | h
  · exact lt_trans (show c.toNat < 0xd800 from h) (by decide)
  · exact h.2

theorem char_not_surrogate (c : Char) : c.toNat < 0xd800 ∨ 0xe000 ≤ c.toNat := by
  rcases c.valid with h | h
  · exact .inl h
  · exact .inr h.1

/-- The character of a number that is one. -/
theorem exists_char {n : ℕ} (h : n < 0xd800 ∨ (0xe000 ≤ n ∧ n < 0x110000)) : ∃ c : Char, c.toNat = n := by
  have hvalid : n.isValidChar := by
    rcases h with h | h
    · exact .inl h
    · exact .inr ⟨by omega, h.2⟩
  refine ⟨Char.ofNat n, ?_⟩
  unfold Char.ofNat
  rw [dif_pos hvalid]
  rfl

theorem toNat_byte {n : ℕ} (h : n < 256) : (UInt8.ofNat n).toNat = n := toNat_ofNat_of_lt' h

theorem continues_iff {b : UInt8} : continues b = true ↔ 0x80 ≤ b.toNat ∧ b.toNat ≤ 0xbf := by
  rw [continues, and_eq_true, decide_eq_true_iff, decide_eq_true_iff, le_iff_toNat_le, le_iff_toNat_le]
  exact Iff.rfl

theorem continues_byte {n : ℕ} (h : n < 64) : continues (UInt8.ofNat (0x80 + n)) = true := by
  rw [continues_iff, toNat_byte (by omega)]
  omega

/-! ## The shape of a character's bytes -/

theorem utf8_one {c : Char} (h : c.toNat < 0x80) : utf8 c = [UInt8.ofNat c.toNat] := by
  rw [utf8, if_pos h]

theorem utf8_two {c : Char} (h : 0x80 ≤ c.toNat) (h' : c.toNat < 0x800) :
    utf8 c = [UInt8.ofNat (0xc0 + c.toNat / 64), UInt8.ofNat (0x80 + c.toNat % 64)] := by
  rw [utf8, if_neg (by omega), if_pos h']

theorem utf8_three {c : Char} (h : 0x800 ≤ c.toNat) (h' : c.toNat < 0x10000) :
    utf8 c = [UInt8.ofNat (0xe0 + c.toNat / 4096), UInt8.ofNat (0x80 + c.toNat / 64 % 64),
      UInt8.ofNat (0x80 + c.toNat % 64)] := by
  rw [utf8, if_neg (by omega), if_neg (by omega), if_pos h']

theorem utf8_four {c : Char} (h : 0x10000 ≤ c.toNat) :
    utf8 c = [UInt8.ofNat (0xf0 + c.toNat / 262144), UInt8.ofNat (0x80 + c.toNat / 4096 % 64),
      UInt8.ofNat (0x80 + c.toNat / 64 % 64), UInt8.ofNat (0x80 + c.toNat % 64)] := by
  rw [utf8, if_neg (by omega), if_neg (by omega), if_neg (by omega)]

theorem utf8_cases (c : Char) : c.toNat < 0x80 ∨ (0x80 ≤ c.toNat ∧ c.toNat < 0x800) ∨
    (0x800 ≤ c.toNat ∧ c.toNat < 0x10000) ∨ 0x10000 ≤ c.toNat := by
  omega

theorem utf8_ne_nil (c : Char) : utf8 c ≠ [] := by
  rcases utf8_cases c with h | ⟨h, h'⟩ | ⟨h, h'⟩ | h
  · rw [utf8_one h]; exact cons_ne_nil _ _
  · rw [utf8_two h h']; exact cons_ne_nil _ _
  · rw [utf8_three h h']; exact cons_ne_nil _ _
  · rw [utf8_four h]; exact cons_ne_nil _ _

/-- Every byte of a character after its first continues it. -/
theorem continues_tail (c : Char) : ∀ b ∈ (utf8 c).tail, continues b = true := by
  have hlow (n : ℕ) : continues (UInt8.ofNat (0x80 + n % 64)) = true := continues_byte (Nat.mod_lt n (by decide))
  rcases utf8_cases c with h | ⟨h, h'⟩ | ⟨h, h'⟩ | h
  · rw [utf8_one h, tail_cons]
    exact forall_mem_nil _
  · rw [utf8_two h h', tail_cons, forall_mem_singleton]
    exact hlow _
  · rw [utf8_three h h', tail_cons, forall_mem_cons, forall_mem_singleton]
    exact ⟨hlow _, hlow _⟩
  · rw [utf8_four h, tail_cons, forall_mem_cons, forall_mem_cons, forall_mem_singleton]
    exact ⟨hlow _, hlow _, hlow _⟩

/-- The first byte of a character continues none. -/
theorem continues_head {c : Char} {b : UInt8} {s : Bytes} (h : utf8 c = b :: s) : continues b = false := by
  have hlt := char_lt c
  rw [← not_eq_true, continues_iff]
  rcases utf8_cases c with h₁ | ⟨h₁, h₂⟩ | ⟨h₁, h₂⟩ | h₁
  · rw [utf8_one h₁] at h
    rw [← (List.cons.inj h).1, toNat_byte (by omega)]
    omega
  · rw [utf8_two h₁ h₂] at h
    rw [← (List.cons.inj h).1, toNat_byte (by omega)]
    omega
  · rw [utf8_three h₁ h₂] at h
    rw [← (List.cons.inj h).1, toNat_byte (by omega)]
    omega
  · rw [utf8_four h₁] at h
    rw [← (List.cons.inj h).1, toNat_byte (by omega)]
    omega

/-! ## Reading a character back -/

/-- The code point of the sequence that `s` begins with, which is well formed. -/
def code_point (s : Bytes) : ℕ :=
  let at_ (i : ℕ) := (s.getD i 0).toNat
  if at_ 0 < 0x80 then at_ 0
  else if at_ 0 < 0xe0 then (at_ 0 &&& 0x1f) <<< 6 ||| (at_ 1 &&& 0x3f)
  else if at_ 0 < 0xf0 then (at_ 0 &&& 0x0f) <<< 12 ||| (at_ 1 &&& 0x3f) <<< 6 ||| (at_ 2 &&& 0x3f)
  else (at_ 0 &&& 0x07) <<< 18 ||| (at_ 1 &&& 0x3f) <<< 12 ||| (at_ 2 &&& 0x3f) <<< 6 ||| (at_ 3 &&& 0x3f)

theorem low_bits (n k : ℕ) : n &&& (2 ^ k - 1) = n % 2 ^ k := Nat.and_two_pow_sub_one_eq_mod n k

theorem shift_or {a b : ℕ} (k : ℕ) (h : b < 2 ^ k) : a <<< k ||| b = a * 2 ^ k + b := by
  rw [← Nat.shiftLeft_add_eq_or_of_lt h, Nat.shiftLeft_eq]

theorem code_point_utf8 (c : Char) (s : Bytes) : code_point (utf8 c ++ s) = c.toNat := by
  have hlt := char_lt c
  have h1 (n : ℕ) : n &&& 0x1f = n % 32 := low_bits n 5
  have h2 (n : ℕ) : n &&& 0x3f = n % 64 := low_bits n 6
  have h3 (n : ℕ) : n &&& 0x0f = n % 16 := low_bits n 4
  have h4 (n : ℕ) : n &&& 0x07 = n % 8 := low_bits n 3
  rcases utf8_cases c with h | ⟨h, h'⟩ | ⟨h, h'⟩ | h
  · rw [utf8_one h, code_point]
    simp only [cons_append, getD_cons_zero]
    rw [toNat_byte (by omega), if_pos h]
  · rw [utf8_two h h', code_point]
    simp only [cons_append, getD_cons_zero, getD_cons_succ]
    rw [toNat_byte (by omega), toNat_byte (by omega), if_neg (by omega), if_pos (by omega), h1, h2,
      shift_or 6 (by omega)]
    omega
  · rw [utf8_three h h', code_point]
    simp only [cons_append, getD_cons_zero, getD_cons_succ]
    rw [toNat_byte (by omega), toNat_byte (by omega), toNat_byte (by omega), if_neg (by omega),
      if_neg (by omega), if_pos (by omega), h3, h2, h2, Nat.or_assoc, shift_or 6 (by omega),
      shift_or 12 (by omega)]
    omega
  · rw [utf8_four h, code_point]
    simp only [cons_append, getD_cons_zero, getD_cons_succ]
    rw [toNat_byte (by omega), toNat_byte (by omega), toNat_byte (by omega), toNat_byte (by omega),
      if_neg (by omega), if_neg (by omega), if_neg (by omega), h4, h2, h2, h2, Nat.or_assoc, Nat.or_assoc,
      shift_or 6 (by omega), shift_or 12 (by omega), shift_or 18 (by omega)]
    omega

theorem utf8_cancel {c d : Char} {s t : Bytes} (h : utf8 c ++ s = utf8 d ++ t) : c = d ∧ s = t := by
  have hcd : c = d := by
    apply Char.toNat_inj.mp
    rw [← code_point_utf8 c s, h, code_point_utf8]
  subst hcd
  exact ⟨rfl, append_cancel_left h⟩

theorem encode_inj {cs ds : List Char} (h : encode cs = encode ds) : cs = ds := by
  induction cs generalizing ds with
  | nil =>
    rcases ds with _ | ⟨d, ds⟩
    · rfl
    · exact absurd (append_eq_nil_iff.mp h.symm).1 (utf8_ne_nil d)
  | cons c cs ih =>
    rcases ds with _ | ⟨d, ds⟩
    · exact absurd (append_eq_nil_iff.mp h).1 (utf8_ne_nil c)
    · obtain ⟨rfl, hrest⟩ := utf8_cancel h
      rw [ih hrest]

/-!
UTF-16: the code units of a character, and the order strings have by their units.

A character past U+FFFF is a pair of surrogates, whose first unit comes before U+E000: the order
of the units is not the order of the characters, and the two part there alone.
-/

def utf16 (c : Char) : List ℕ :=
  if c.toNat < 0x10000 then [c.toNat]
  else [0xd800 + (c.toNat - 0x10000) / 1024, 0xdc00 + (c.toNat - 0x10000) % 1024]

def units (cs : List Char) : List ℕ := cs.flatMap utf16

@[simp] theorem units_nil : units [] = [] := rfl

@[simp] theorem units_cons (c : Char) (cs : List Char) : units (c :: cs) = utf16 c ++ units cs := rfl

theorem units_append (cs ds : List Char) : units (cs ++ ds) = units cs ++ units ds := flatMap_append

theorem utf16_one {c : Char} (h : c.toNat < 0x10000) : utf16 c = [c.toNat] := by
  rw [utf16, if_pos h]

theorem utf16_two {c : Char} (h : 0x10000 ≤ c.toNat) :
    utf16 c = [0xd800 + (c.toNat - 0x10000) / 1024, 0xdc00 + (c.toNat - 0x10000) % 1024] := by
  rw [utf16, if_neg (by omega)]

theorem utf16_ne_nil (c : Char) : utf16 c ≠ [] := by
  rcases lt_or_ge c.toNat 0x10000 with h | h
  · rw [utf16_one h]; exact cons_ne_nil _ _
  · rw [utf16_two h]; exact cons_ne_nil _ _

/-! ## The order of units -/

theorem append_lt_append {p s t : List ℕ} (h : s < t) : p ++ s < p ++ t := by
  induction p with
  | nil => exact h
  | cons n p ih => exact cons_lt_cons_iff.mpr (.inr ⟨rfl, ih⟩)

theorem lt_append {p s : List ℕ} (h : s ≠ []) : p < p ++ s := by
  obtain ⟨n, s, rfl⟩ := exists_cons_of_ne_nil h
  have hnil : ([] : List ℕ) < n :: s := nil_lt_cons n s
  simpa using append_lt_append hnil

/-- A character before another in the order of their units: both, or neither, are pairs, or the
one that is not comes after the surrogates. -/
def Before (c d : Char) : Prop :=
  if c.toNat < 0x10000 ↔ d.toNat < 0x10000 then c.toNat < d.toNat
  else if c.toNat < 0x10000 then c.toNat < 0xd800 else 0xe000 ≤ d.toNat

/-- Of two characters one comes before the other. -/
theorem before_or {c d : Char} (h : c ≠ d) : Before c d ∨ Before d c := by
  have hne : c.toNat ≠ d.toNat := fun heq => h (Char.toNat_inj.mp heq)
  have hc := char_not_surrogate c
  have hd := char_not_surrogate d
  unfold Before
  split_ifs <;> omega

/-- A character before another decides the order of whatever strings they begin. -/
theorem units_lt {c d : Char} (h : Before c d) (s t : List ℕ) : utf16 c ++ s < utf16 d ++ t := by
  have hlc := char_lt c
  unfold Before at h
  rcases lt_or_ge c.toNat 0x10000 with hc | hc <;> rcases lt_or_ge d.toNat 0x10000 with hd | hd
  · rw [if_pos (by omega)] at h
    rw [utf16_one hc, utf16_one hd]
    exact cons_lt_cons_iff.mpr (.inl h)
  · rw [if_neg (by omega), if_pos hc] at h
    rw [utf16_one hc, utf16_two hd]
    exact cons_lt_cons_iff.mpr (.inl (by omega))
  · rw [if_neg (by omega), if_neg (by omega)] at h
    rw [utf16_two hc, utf16_one hd]
    exact cons_lt_cons_iff.mpr (.inl (by omega))
  · rw [if_pos (by omega)] at h
    rw [utf16_two hc, utf16_two hd]
    -- two pairs: the first units decide, or are equal and the second ones do
    by_cases hfirst : (c.toNat - 0x10000) / 1024 = (d.toNat - 0x10000) / 1024
    · rw [hfirst]
      exact cons_lt_cons_iff.mpr (.inr ⟨rfl, cons_lt_cons_iff.mpr (.inl (by omega))⟩)
    · exact cons_lt_cons_iff.mpr (.inl (by omega))

end Cosmic.Base
