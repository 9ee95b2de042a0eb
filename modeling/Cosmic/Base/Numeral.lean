/-
Numerals and code points, as Lua's `tonumber`, `utf8` and `string.char` read and write them.

A float is whatever the machine's `strtod` makes of a numeral and `%.17g` writes of it: `Floats`
holds the two, and nothing here depends on what they answer. Which texts are numerals, and
which of those are integers, is decided here.
-/
import Cosmic.Base.Search
import Mathlib.Data.List.Induction
import Mathlib.Data.List.TakeWhile

set_option autoImplicit false

namespace Cosmic.Base

open List Option

/-- The machine's floats: reading a numeral, and what is asked of a value to write it. -/
structure Floats (F : Type) where
  /-- `strtod` of a numeral. -/
  read : Bytes → F
  /-- The float of an integer. -/
  of_integer : ℤ → F
  /-- Neither infinite nor `nan`. -/
  finite : F → Bool
  /-- `string.format("%.17g", x)` -/
  text : F → Bytes

/-- A Lua number: its subtype is `math.type`'s answer. -/
inductive Number (F : Type) where
  | integer (n : ℤ)
  | float (x : F)

/-! ## Digits -/

def digit_value (b : UInt8) : ℕ :=
  if isDigit b then b.toNat - 48 else if 97 ≤ b then b.toNat - 87 else b.toNat - 55

/-- The value of a run of digits in `base`. -/
def digits_value (base : ℕ) (s : Bytes) : ℕ := s.foldl (fun n b => base * n + digit_value b) 0

/-- `tonumber` of a text of decimal digits. -/
def decimal (s : Bytes) : Option ℕ :=
  if s ≠ [] ∧ s.all isDigit then some (digits_value 10 s) else none

/-- `tonumber(s, 16)` of a text of hexadecimal digits. -/
def hexadecimal (s : Bytes) : Option ℕ :=
  if s ≠ [] ∧ s.all isHex then some (digits_value 16 s) else none

/-! ## Numerals -/

/-- The signed 64-bit integer of the low 64 bits of `n`. -/
def signed (n : ℤ) : ℤ := (n + 2 ^ 63) % 2 ^ 64 - 2 ^ 63

def sign_of : Bytes → Bool × Bytes
  | 45 :: s => (true, s)
  | 43 :: s => (false, s)
  | s => (false, s)

/-- The text after `0x`. -/
def after_0x : Bytes → Option Bytes
  | 48 :: x :: s => if x == 120 || x == 88 then some s else none
  | _ => none

/-- `l_str2int`: the integer a numeral is. A hexadecimal one wraps around; a decimal one that is
too big is none. -/
def str2int (s : Bytes) : Option ℤ :=
  let (neg, s) := sign_of (s.dropWhile isSpace)
  match after_0x s with
  | some s =>
    if s.takeWhile isHex = [] ∨ ¬(s.dropWhile isHex).all isSpace then none
    else
      let a : ℤ := digits_value 16 (s.takeWhile isHex)
      some (signed (if neg then -a else a))
  | none =>
    let a : ℤ := digits_value 10 (s.takeWhile isDigit)
    if s.takeWhile isDigit = [] ∨ ¬(s.dropWhile isDigit).all isSpace then none
    else if a > 2 ^ 63 - 1 + (if neg then 1 else 0) then none
    else some (if neg then -a else a)

/-- An exponent `mark` with its sign and digits, or nothing, up to the blanks at the end. -/
def is_exponent (mark : UInt8 → Bool) : Bytes → Bool
  | [] => true
  | b :: s =>
    if mark b then
      let s := (sign_of s).2
      s.takeWhile isDigit ≠ [] && (s.dropWhile isDigit).all isSpace
    else (b :: s).all isSpace

/-- Digits with an optional dot and an optional exponent. -/
def is_mantissa (digit mark : UInt8 → Bool) (s : Bytes) : Bool :=
  let whole := s.takeWhile digit
  match s.dropWhile digit with
  | 46 :: s => (whole ≠ [] || s.takeWhile digit ≠ []) && is_exponent mark (s.dropWhile digit)
  | s => whole ≠ [] && is_exponent mark s

/-- Whether `strtod` reads the whole text. (It reads no other text that `l_str2d` accepts: `inf` and
`nan` are refused for their `n`.) -/
def is_float (s : Bytes) : Bool :=
  let s := (sign_of (s.dropWhile isSpace)).2
  match after_0x s with
  | some s => is_mantissa isHex (fun b => b == 112 || b == 80) s
  | none => is_mantissa isDigit (fun b => b == 101 || b == 69) s

/-- `tonumber(s)` -/
def tonumber {F : Type} (fl : Floats F) (s : Bytes) : Option (Number F) :=
  match str2int s with
  | some n => some (.integer n)
  | none => if is_float s then some (.float (fl.read s)) else none

/-! ## Code points -/

/-- `string.char(n)`, which raises past 255. -/
def char (n : ℕ) : Option Bytes := if n ≤ 255 then some [UInt8.ofNat n] else none

/-- The bytes before `rest` of the code point whose high bits are `x`, where the first byte has
room for `mfb`. -/
def utf8_lead : ℕ → ℕ → ℕ → Bytes → Bytes
  | 0, _, _, rest => rest
  | more + 1, x, mfb, rest =>
    if x > mfb then utf8_lead more (x / 64) (mfb / 2) (UInt8.ofNat (128 + x % 64) :: rest)
    else UInt8.ofNat (254 - 2 * mfb + x) :: rest

/-- `utf8.char(x)`, which raises past `7FFFFFFF`. -/
def utf8_char (x : ℕ) : Option Bytes :=
  if x > 0x7FFFFFFF then none
  else if x < 128 then some [UInt8.ofNat x]
  else some (utf8_lead 6 (x / 64) 31 [UInt8.ofNat (128 + x % 64)])

/-- How many continuation bytes follow the first byte `c` of a character, and the least code point
that takes as many. -/
def utf8_form (c : UInt8) : Option (ℕ × ℕ) :=
  if c < 0xC0 then none
  else if c < 0xE0 then some (1, 0x80)
  else if c < 0xF0 then some (2, 0x800)
  else if c < 0xF8 then some (3, 0x10000)
  else if c < 0xFC then some (4, 0x200000)
  else if c < 0xFE then some (5, 0x4000000)
  else none

/-- The text after the character at the start of `s`, where it is one of Unicode's. -/
def utf8_next : Bytes → Option Bytes
  | [] => none
  | c :: s =>
    if c < 128 then some s
    else do
      let (count, least) ← utf8_form c
      let more := s.take count
      let x := more.foldl (fun x b => 64 * x + b.toNat % 64) (c.toNat % 2 ^ (6 - count))
      if more.length = count ∧ more.all (fun b => 128 ≤ b && b < 192) ∧ least ≤ x ∧
          x ≤ 0x10FFFF ∧ ¬(0xD800 ≤ x ∧ x ≤ 0xDFFF) then
        some (s.drop count)
      else none

/-- `utf8.len(s) ~= nil`, read one character a round. -/
def utf8_valid : ℕ → Bytes → Bool
  | _, [] => true
  | 0, _ => false
  | rounds + 1, s =>
    match utf8_next s with
    | some s => utf8_valid rounds s
    | none => false

example : utf8_char 0x20AC = some [0xE2, 0x82, 0xAC] := by decide

/-! ## Digits have a value -/

variable {s : Bytes}

theorem decimal_of_digits (hs : s ≠ []) (hd : ∀ b ∈ s, isDigit b = true) :
    decimal s = some (digits_value 10 s) :=
  if_pos ⟨hs, all_eq_true.mpr hd⟩

theorem hexadecimal_of_digits (hs : s ≠ []) (hd : ∀ b ∈ s, isHex b = true) :
    hexadecimal s = some (digits_value 16 s) :=
  if_pos ⟨hs, all_eq_true.mpr hd⟩

/-! ## How large a run of digits is -/

theorem digit_value_lt {b : UInt8} (h : isHex b = true) : digit_value b < 16 := by
  simp only [isHex, isDigit, Bool.or_eq_true, Bool.and_eq_true, decide_eq_true_eq, UInt8.le_iff_toNat_le] at h
  simp only [digit_value, isDigit, Bool.and_eq_true, decide_eq_true_eq, UInt8.le_iff_toNat_le]
  simp only [UInt8.toNat_ofNat] at h ⊢
  split
  · omega
  · split <;> omega

theorem digits_value_append (base : ℕ) (s t : Bytes) :
    digits_value base (s ++ t) = t.foldl (fun n b => base * n + digit_value b) (digits_value base s) :=
  foldl_append

theorem digits_value_lt (h : ∀ b ∈ s, isHex b = true) : digits_value 16 s < 16 ^ s.length := by
  induction s using reverseRecOn with
  | nil => decide
  | append_singleton s b ih =>
    have hs : digits_value 16 s < 16 ^ s.length := ih fun c hc => h c (mem_append_left _ hc)
    have hb : digit_value b < 16 := digit_value_lt (h b (mem_append_right _ mem_cons_self))
    rw [digits_value_append, foldl_cons, foldl_nil, length_append, length_singleton, pow_succ]
    omega

/-- Leading zeros count for nothing. -/
theorem digits_value_dropWhile (base : ℕ) (s : Bytes) :
    digits_value base (s.dropWhile (· == 48)) = digits_value base s := by
  induction s with
  | nil => rfl
  | cons b s ih =>
    rw [dropWhile_cons]
    split
    · next hb =>
      rw [ih, beq_iff_eq.mp hb]
      rfl
    · rfl

/-! ## A number written and read -/

theorem digits_value_tostring (n : ℕ) : digits_value 10 (tostring n) = n := by
  have hdigit : ∀ c ∈ Nat.toDigits 10 n, digit_value (UInt8.ofNat c.toNat) = c.toNat - '0'.toNat := by
    intro c hc
    have hd : isDigit (UInt8.ofNat c.toNat) = true := isDigit_of_mem_tostring (mem_map_of_mem hc)
    have hc' : c.isDigit = true := Nat.isDigit_of_mem_toDigits (by decide) (by decide) hc
    simp only [Char.isDigit, Bool.and_eq_true, decide_eq_true_eq, ge_iff_le] at hc'
    have hhi : c.toNat ≤ 57 := hc'.2
    unfold digit_value
    rw [if_pos hd, UInt8.toNat_ofNat', Nat.mod_eq_of_lt (by omega)]
    rfl
  unfold digits_value tostring
  rw [foldl_map]
  calc (Nat.toDigits 10 n).foldl (fun n c => 10 * n + digit_value (UInt8.ofNat c.toNat)) 0
      = (Nat.toDigits 10 n).foldl (fun n c => 10 * n + (c.toNat - '0'.toNat)) 0 :=
        foldl_ext _ _ _ fun m c hc => by rw [hdigit c hc]
    _ = n := Nat.ofDigitChars_ten_toDigits

theorem decimal_tostring (n : ℕ) : decimal (tostring n) = some n := by
  rw [decimal_of_digits (tostring_ne_nil n) fun b => isDigit_of_mem_tostring, digits_value_tostring]

theorem tostring_inj {n m : ℕ} (h : tostring n = tostring m) : n = m := by
  rw [← digits_value_tostring n, h, digits_value_tostring]

/-- A number has at most `k` digits where it is below `10 ^ k`. -/
theorem tostring_length_le {n k : ℕ} (hk : 0 < k) : (tostring n).length ≤ k ↔ n < 10 ^ k := by
  unfold tostring
  rw [length_map]
  exact Nat.length_toDigits_le_iff (by decide) hk

/-!
What `tonumber` makes of a text of decimal digits, and how far its integers reach.
-/

/-! ## Digits -/

theorem digit_cases {b : UInt8} (h : isDigit b = true) : 48 ≤ b.toNat ∧ b.toNat ≤ 57 := by
  simp only [isDigit, Bool.and_eq_true, decide_eq_true_eq, UInt8.le_iff_toNat_le] at h
  exact h

theorem digit_ne {b c : UInt8} (h : isDigit b = true) (hc : c.toNat < 48 ∨ 57 < c.toNat) : b ≠ c := by
  rintro rfl
  have := digit_cases h
  omega

theorem digit_not_space {b : UInt8} (h : isDigit b = true) : isSpace b = false := by
  have hne : ∀ c : UInt8, c.toNat < 48 → (b == c) = false := fun c hc =>
    beq_eq_false_iff_ne.mpr (digit_ne h (.inl hc))
  simp only [isSpace, isBlank, isBreak, hne 32 (by decide), hne 9 (by decide), hne 11 (by decide),
    hne 12 (by decide), hne 10 (by decide), hne 13 (by decide), Bool.or_false]

theorem sign_of_digit {b : UInt8} (h : isDigit b = true) : sign_of (b :: s) = (false, b :: s) := by
  unfold sign_of
  split
  · next heq => exact absurd (List.cons.inj heq).1 (digit_ne h (.inl (by decide)))
  · next heq => exact absurd (List.cons.inj heq).1 (digit_ne h (.inl (by decide)))
  · rfl

theorem after_0x_digits (h : ∀ b ∈ s, isDigit b = true) : after_0x s = none := by
  unfold after_0x
  split
  · next x t =>
    have hx := h x (mem_cons_of_mem _ mem_cons_self)
    have h120 := digit_ne (c := 120) hx (.inr (by decide))
    have h88 := digit_ne (c := 88) hx (.inr (by decide))
    rw [if_neg]
    simp only [Bool.or_eq_true, beq_iff_eq]
    rintro (rfl | rfl)
    · exact h120 rfl
    · exact h88 rfl
  · rfl

theorem takeWhile_digits (h : ∀ b ∈ s, isDigit b = true) : s.takeWhile isDigit = s :=
  takeWhile_eq_self_iff.mpr h

theorem dropWhile_digits (h : ∀ b ∈ s, isDigit b = true) : s.dropWhile isDigit = [] :=
  dropWhile_eq_nil_iff.mpr h

theorem str2int_digits (hs : s ≠ []) (h : ∀ b ∈ s, isDigit b = true)
    (hmax : digits_value 10 s < 2 ^ 63) : str2int s = some (digits_value 10 s : ℤ) := by
  obtain ⟨b, t, rfl⟩ := exists_cons_of_ne_nil hs
  have hb := h b mem_cons_self
  have hspace : (b :: t).dropWhile isSpace = b :: t :=
    dropWhile_cons_of_neg (by rw [digit_not_space hb]; exact Bool.false_ne_true)
  unfold str2int
  simp only [hspace, sign_of_digit hb, after_0x_digits h, takeWhile_digits h, dropWhile_digits h, all_nil,
    not_true_eq_false, or_false, if_neg hs, Bool.false_eq_true, if_false]
  rw [if_neg (by omega)]

theorem tonumber_digits {F : Type} (fl : Floats F) (hs : s ≠ []) (h : ∀ b ∈ s, isDigit b = true)
    (hmax : digits_value 10 s < 2 ^ 63) : tonumber fl s = some (.integer (digits_value 10 s)) := by
  unfold tonumber
  rw [str2int_digits hs h hmax]

/-! ## How far integers reach -/

theorem signed_range (n : ℤ) : -2 ^ 63 ≤ signed n ∧ signed n < 2 ^ 63 := by
  unfold signed
  omega

/-- An integer read is one of 64 bits. -/
theorem str2int_range {n : ℤ} (h : str2int s = some n) : -2 ^ 63 ≤ n ∧ n < 2 ^ 63 := by
  unfold str2int at h
  generalize sign_of (s.dropWhile isSpace) = signed_text at h
  obtain ⟨neg, t⟩ := signed_text
  cases hx : after_0x t with
  | some t =>
    simp only [hx] at h
    split at h
    · cases h
    · rw [← some.inj h]
      exact signed_range _
  | none =>
    simp only [hx] at h
    split at h
    · cases h
    cases neg with
    | true =>
      simp only [if_true] at h
      obtain ⟨hmax, hn⟩ := (ite_none_left_eq_some).mp h
      rw [← some.inj hn]
      omega
    | false =>
      simp only [Bool.false_eq_true, if_false] at h
      obtain ⟨hmax, hn⟩ := (ite_none_left_eq_some).mp h
      rw [← some.inj hn]
      omega

end Cosmic.Base
