/-
`codec.tl`: bytes as hexadecimal and as base64.

The decoders take what the encoders write and nothing else, so that texts may be compared in the place of the bytes
they spell.
-/
import Cosmic.Base.Parts
import Mathlib.Data.List.GetD

set_option autoImplicit false

namespace Cosmic.Codec

open Cosmic.Base List Except

def refuse (why : Bytes) : Except Bytes Bytes := .error (lit "codec: " ++ why)

/-! ## Hexadecimal -/

def DIGITS : Bytes := lit "0123456789abcdef"

def UPPER : Bytes := lit "0123456789ABCDEF"

/-- `hex_of`: a byte's two lowercase digits. -/
def hex_of (b : UInt8) : Bytes := [DIGITS.getD (b.toNat >>> 4) 0, DIGITS.getD (b.toNat &&& 15) 0]

/-- The number that a digit of either case stands for. -/
def digit_of (c : UInt8) : Option ℕ := (DIGITS.idxOf? c).or (UPPER.idxOf? c)

/-- `byte_of_hex`: the byte that a pair of digits spells. -/
def byte_of_hex (h l : UInt8) : Option UInt8 := do
  let hi ← digit_of h
  let lo ← digit_of l
  return UInt8.ofNat (hi * 16 + lo)

/-- `s:gsub("..", byte_of_hex)`: a pair that is not in the table stays. -/
def spelled_pairs : Bytes → Bytes
  | h :: l :: s => ((byte_of_hex h l).map fun b => [b]).getD [h, l] ++ spelled_pairs s
  | s => s

/-- `hex` -/
def hex (s : Bytes) : Bytes := s.flatMap hex_of

/-- The text `byte 0x%02x at %d`. -/
def byte_at (s : Bytes) (i : ℕ) : Bytes := lit "byte 0x" ++ hex_of (s.getD i 0) ++ lit " at " ++ tostring (i + 1)

/-- `unhex` -/
def unhex (s : Bytes) : Except Bytes Bytes :=
  if s.length % 2 ≠ 0 then refuse (lit "hex text of odd length " ++ tostring s.length)
  else
    match s.findIdx? fun b => !isHex b with
    | some i => refuse (byte_at s i ++ lit " is not a hex digit")
    | none => .ok (spelled_pairs s)

/-! ## Base64 -/

/-- An alphabet: the character of each 6-bit value, and the pattern of the characters outside it. -/
structure Alphabet where
  chars : Bytes
  outside : UInt8 → Bool
  length : chars.length = 64
  nodup : chars.Nodup
  outside_iff : ∀ b, outside b = false ↔ b ∈ chars

namespace Alphabet

variable (a : Alphabet)

/-- `char[v]`, for a `v` below 64. -/
def char (v : ℕ) : UInt8 := a.chars.getD v 0

/-- `pair[v]`, for a `v` below 4096. -/
def pair (v : ℕ) : Bytes := [a.char (v >>> 6), a.char (v &&& 63)]

/-- `value[c]`, for a `c` of the alphabet. -/
def value (c : UInt8) : ℕ := a.chars.idxOf c

def encode (pad : Bool) : Bytes → Bytes
  | b₁ :: b₂ :: b₃ :: s =>
    let v := (b₁.toNat <<< 16) ||| (b₂.toNat <<< 8) ||| b₃.toNat
    a.pair (v >>> 12) ++ a.pair (v &&& 4095) ++ encode pad s
  | [b₁, b₂] =>
    let v := (b₁.toNat <<< 10) ||| (b₂.toNat <<< 2)
    a.pair (v >>> 6) ++ [a.char (v &&& 63)] ++ if pad then lit "=" else []
  | [b₁] => a.pair (b₁.toNat <<< 4) ++ if pad then lit "==" else []
  | [] => []

def groups : Bytes → Bytes
  | c₁ :: c₂ :: c₃ :: c₄ :: s =>
    let v := (a.value c₁ <<< 18) ||| (a.value c₂ <<< 12) ||| (a.value c₃ <<< 6) ||| a.value c₄
    UInt8.ofNat (v >>> 16) :: UInt8.ofNat ((v >>> 8) &&& 255) :: UInt8.ofNat (v &&& 255) :: groups s
  | _ => []

end Alphabet

/-- The characters decoded at a time. -/
def BATCH : ℕ := 4096

namespace Alphabet

variable (a : Alphabet)

/-- `expand`, in a number of batches. -/
def batches : ℕ → Bytes → Bytes
  | 0, _ => []
  | n + 1, s => a.groups (s.take BATCH) ++ batches n (s.drop BATCH)

def expand (s : Bytes) : Bytes := a.batches ((s.length + BATCH - 1) / BATCH) s

/-- What is left of whole groups. `none` where its unused bits are not zero. -/
def tail : Bytes → Option Bytes
  | [c₁, c₂] =>
    let v := (a.value c₁ <<< 6) ||| a.value c₂
    if v &&& 15 ≠ 0 then none else some [UInt8.ofNat (v >>> 4)]
  | [c₁, c₂, c₃] =>
    let v := (a.value c₁ <<< 12) ||| (a.value c₂ <<< 6) ||| a.value c₃
    if v &&& 3 ≠ 0 then none else some [UInt8.ofNat (v >>> 10), UInt8.ofNat ((v >>> 2) &&& 255)]
  | _ => some []

/-- The length of `s` without its padding. -/
def unpadded (s : Bytes) : ℕ :=
  if s.drop (s.length - 2) = lit "==" then s.length - 2
  else if s.drop (s.length - 1) = lit "=" then s.length - 1
  else s.length

def decode (s : Bytes) (padded : Bool) (name : Bytes) : Except Bytes Bytes :=
  if padded ∧ s.length % 4 ≠ 0 then
    refuse (name ++ lit " text of length " ++ tostring s.length ++ lit ", not a multiple of 4")
  else if ¬padded ∧ s.length % 4 = 1 then
    refuse (name ++ lit " text of length " ++ tostring s.length ++ lit " leaves one character over")
  else
    let n := if padded then unpadded s else s.length
    match (s.findIdx? a.outside).filter (· < n) with
    | some i =>
      if s.getD i 0 = 61 then refuse (name ++ lit " text has misplaced '=' padding at " ++ tostring (i + 1))
      else refuse (byte_at s i ++ lit " is outside the " ++ name ++ lit " alphabet")
    | none =>
      let whole := n - n % 4
      match a.tail ((s.take n).drop whole) with
      | none => refuse (name ++ lit " text ends in nonzero padding bits")
      | some last => .ok (a.expand (s.take whole) ++ last)

end Alphabet

theorem outside_iff_of_ranges {chars : Bytes} {x y : UInt8} (h : chars.map UInt8.toNat =
    range' 65 26 ++ range' 97 26 ++ range' 48 10 ++ [x.toNat, y.toNat]) (b : UInt8) :
    (!(isAlpha b || isDigit b || b == x || b == y)) = false ↔ b ∈ chars := by
  have hmem : b ∈ chars ↔ b.toNat ∈ chars.map UInt8.toNat := by
    rw [mem_map]
    exact ⟨fun hb => ⟨b, hb, rfl⟩, fun ⟨c, hc, hcb⟩ => UInt8.toNat_inj.mp hcb ▸ hc⟩
  rw [hmem, h]
  simp only [mem_append, mem_range'_1, mem_cons, not_mem_nil, or_false, Bool.not_eq_false',
    Bool.or_eq_true, beq_iff_eq, ← UInt8.toNat_inj, isAlpha, isDigit, Bool.and_eq_true, decide_eq_true_eq,
    UInt8.le_iff_toNat_le, UInt8.reduceToNat]
  omega

def STANDARD : Alphabet where
  chars := lit "ABCDEFGHIJKLMNOPQRSTUVWXYZabcdefghijklmnopqrstuvwxyz0123456789+/"
  outside b := !(isAlpha b || isDigit b || b == 43 || b == 47)
  length := by decide
  nodup := by decide
  outside_iff := outside_iff_of_ranges (by decide)

def URL : Alphabet where
  chars := lit "ABCDEFGHIJKLMNOPQRSTUVWXYZabcdefghijklmnopqrstuvwxyz0123456789-_"
  outside b := !(isAlpha b || isDigit b || b == 45 || b == 95)
  length := by decide
  nodup := by decide
  outside_iff := outside_iff_of_ranges (by decide)

def base64 (s : Bytes) : Bytes := STANDARD.encode true s

def unbase64 (s : Bytes) : Except Bytes Bytes := STANDARD.decode s true (lit "base64")

def base64url (s : Bytes) : Bytes := URL.encode false s

def unbase64url (s : Bytes) : Except Bytes Bytes := URL.decode s false (lit "base64url")

namespace Alphabet

variable {a : Alphabet}

/-! ## Characters and their values -/

theorem char_mem {v : ℕ} (hv : v < 64) : a.char v ∈ a.chars := by
  have hlt : v < a.chars.length := a.length ▸ hv
  unfold char
  rw [getD_eq_getElem _ _ hlt]
  exact getElem_mem hlt

theorem value_char {v : ℕ} (hv : v < 64) : a.value (a.char v) = v := by
  have hlt : v < a.chars.length := a.length ▸ hv
  unfold char value
  rw [getD_eq_getElem _ _ hlt]
  exact a.nodup.idxOf_getElem v hlt

theorem value_lt {c : UInt8} (hc : c ∈ a.chars) : a.value c < 64 := a.length ▸ idxOf_lt_length_iff.mpr hc

theorem char_value {c : UInt8} (hc : c ∈ a.chars) : a.char (a.value c) = c := by
  have hlt : a.value c < a.chars.length := idxOf_lt_length_iff.mpr hc
  unfold char
  rw [getD_eq_getElem _ _ hlt]
  exact getElem_idxOf hlt

theorem equals_not_mem (h : a.outside 61 = true) {c : UInt8} (hc : c ∈ a.chars) : c ≠ 61 := by
  rintro rfl
  rw [(a.outside_iff 61).mpr hc] at h
  cases h

theorem char_eq_iff {v : ℕ} {c : UInt8} (hv : v < 64) (hc : c ∈ a.chars) : a.char v = c ↔ v = a.value c :=
  ⟨fun h => h ▸ (value_char hv).symm, fun h => h ▸ char_value hc⟩

/-! ## Groups of bits -/

theorem and_63 (v : ℕ) : v &&& 63 = v % 64 := Nat.and_two_pow_sub_one_eq_mod v 6

theorem pair_eq (v : ℕ) : a.pair v = [a.char (v / 64), a.char (v % 64)] := by
  unfold pair
  rw [and_63, Nat.shiftRight_eq_div_pow]

theorem join_eq (x : ℕ) {y k : ℕ} (hy : y < 2 ^ k) : x <<< k ||| y = 2 ^ k * x + y := by
  rw [← Nat.shiftLeft_add_eq_or_of_lt hy, Nat.shiftLeft_eq, Nat.mul_comm]

theorem join_shift (x y j k : ℕ) (hy : y < 2 ^ j) : x <<< (j + k) ||| y <<< k = (2 ^ j * x + y) <<< k := by
  have hshift : y <<< k < 2 ^ (j + k) := by
    rw [Nat.shiftLeft_eq, pow_add]
    exact Nat.mul_lt_mul_of_pos_right hy (Nat.two_pow_pos k)
  rw [join_eq x hshift, Nat.shiftLeft_eq, Nat.shiftLeft_eq, pow_add, Nat.add_mul]
  ring

theorem encode_group (pad : Bool) (b₁ b₂ b₃ : UInt8) (s : Bytes) : a.encode pad (b₁ :: b₂ :: b₃ :: s) =
    a.char (b₁.toNat / 4) :: a.char (b₁.toNat % 4 * 16 + b₂.toNat / 16) :: a.char (b₂.toNat % 16 * 4 + b₃.toNat / 64) ::
      a.char (b₃.toNat % 64) :: a.encode pad s := by
  have h₂ := b₂.toNat_lt
  have h₃ := b₃.toNat_lt
  have hjoin : (b₁.toNat <<< 16) ||| (b₂.toNat <<< 8) ||| b₃.toNat = 256 * (256 * b₁.toNat + b₂.toNat) + b₃.toNat := by
    rw [join_shift b₁.toNat b₂.toNat 8 8 h₂, join_eq _ h₃]
    omega
  have hlow : ∀ v : ℕ, v &&& 4095 = v % 4096 := fun v => Nat.and_two_pow_sub_one_eq_mod v 12
  have hhigh : (256 * (256 * b₁.toNat + b₂.toNat) + b₃.toNat) / 2 ^ 12 = 16 * b₁.toNat + b₂.toNat / 16 := by
    rw [show 2 ^ 12 = 256 * 16 from rfl, ← Nat.div_div_eq_div_mul]
    omega
  have hrest : (256 * (256 * b₁.toNat + b₂.toNat) + b₃.toNat) % 4096 = b₂.toNat % 16 * 256 + b₃.toNat := by
    rw [show 256 * (256 * b₁.toNat + b₂.toNat) + b₃.toNat =
      4096 * (16 * b₁.toNat + b₂.toNat / 16) + (b₂.toNat % 16 * 256 + b₃.toNat) by omega, Nat.mul_add_mod]
    exact Nat.mod_eq_of_lt (by omega)
  rw [encode]
  simp only [hjoin, hhigh, hrest, pair_eq, hlow, Nat.shiftRight_eq_div_pow, cons_append, nil_append]
  rw [show (16 * b₁.toNat + b₂.toNat / 16) / 64 = b₁.toNat / 4 by omega,
    show (16 * b₁.toNat + b₂.toNat / 16) % 64 = b₁.toNat % 4 * 16 + b₂.toNat / 16 by omega,
    show (b₂.toNat % 16 * 256 + b₃.toNat) / 64 = b₂.toNat % 16 * 4 + b₃.toNat / 64 by omega,
    show (b₂.toNat % 16 * 256 + b₃.toNat) % 64 = b₃.toNat % 64 by omega]

theorem encode_two (pad : Bool) (b₁ b₂ : UInt8) : a.encode pad [b₁, b₂] =
    [a.char (b₁.toNat / 4), a.char (b₁.toNat % 4 * 16 + b₂.toNat / 16), a.char (b₂.toNat % 16 * 4)] ++
      if pad then lit "=" else [] := by
  have h₂ := b₂.toNat_lt
  have hjoin : (b₁.toNat <<< 10) ||| (b₂.toNat <<< 2) = (256 * b₁.toNat + b₂.toNat) * 4 := by
    rw [join_shift b₁.toNat b₂.toNat 8 2 h₂, Nat.shiftLeft_eq]
    omega
  rw [encode]
  simp only [hjoin, pair_eq, and_63, Nat.shiftRight_eq_div_pow, cons_append, nil_append]
  rw [show (256 * b₁.toNat + b₂.toNat) * 4 / 2 ^ 6 / 64 = b₁.toNat / 4 by omega,
    show (256 * b₁.toNat + b₂.toNat) * 4 / 2 ^ 6 % 64 = b₁.toNat % 4 * 16 + b₂.toNat / 16 by omega,
    show (256 * b₁.toNat + b₂.toNat) * 4 % 64 = b₂.toNat % 16 * 4 by omega]

theorem encode_one (pad : Bool) (b : UInt8) : a.encode pad [b] =
    [a.char (b.toNat / 4), a.char (b.toNat % 4 * 16)] ++ if pad then lit "==" else [] := by
  rw [encode]
  simp only [pair_eq, Nat.shiftLeft_eq]
  rw [show b.toNat * 2 ^ 4 / 64 = b.toNat / 4 by omega, show b.toNat * 2 ^ 4 % 64 = b.toNat % 4 * 16 by omega]

theorem groups_group {c₁ c₂ c₃ c₄ : UInt8} (h₂ : a.value c₂ < 64) (h₃ : a.value c₃ < 64) (h₄ : a.value c₄ < 64)
    (s : Bytes) : a.groups (c₁ :: c₂ :: c₃ :: c₄ :: s) =
      UInt8.ofNat (4 * a.value c₁ + a.value c₂ / 16) :: UInt8.ofNat (a.value c₂ % 16 * 16 + a.value c₃ / 4) ::
        UInt8.ofNat (a.value c₃ % 4 * 64 + a.value c₄) :: a.groups s := by
  have hjoin : (a.value c₁ <<< 18) ||| (a.value c₂ <<< 12) ||| (a.value c₃ <<< 6) ||| a.value c₄ =
      64 * (64 * (64 * a.value c₁ + a.value c₂) + a.value c₃) + a.value c₄ := by
    rw [join_shift (a.value c₁) (a.value c₂) 6 12 h₂, join_shift _ (a.value c₃) 6 6 h₃, join_eq _ h₄]
    omega
  have hlow : ∀ v : ℕ, v &&& 255 = v % 256 := fun v => Nat.and_two_pow_sub_one_eq_mod v 8
  rw [groups]
  simp only [hjoin, hlow, Nat.shiftRight_eq_div_pow]
  generalize a.value c₁ = v₁ at *
  generalize a.value c₂ = v₂ at *
  generalize a.value c₃ = v₃ at *
  generalize a.value c₄ = v₄ at *
  have hhigh : (64 * (64 * (64 * v₁ + v₂) + v₃) + v₄) / 2 ^ 16 = 4 * v₁ + v₂ / 16 := by
    rw [show 2 ^ 16 = 64 * (64 * 16) from rfl, ← Nat.div_div_eq_div_mul, ← Nat.div_div_eq_div_mul,
      show (64 * (64 * (64 * v₁ + v₂) + v₃) + v₄) / 64 = 64 * (64 * v₁ + v₂) + v₃ by omega,
      show (64 * (64 * v₁ + v₂) + v₃) / 64 = 64 * v₁ + v₂ by omega]
    omega
  have hmiddle : (64 * (64 * (64 * v₁ + v₂) + v₃) + v₄) / 2 ^ 8 % 256 = v₂ % 16 * 16 + v₃ / 4 := by
    rw [show 2 ^ 8 = 64 * 4 from rfl, ← Nat.div_div_eq_div_mul,
      show (64 * (64 * (64 * v₁ + v₂) + v₃) + v₄) / 64 = 64 * (64 * v₁ + v₂) + v₃ by omega]
    omega
  rw [hhigh, hmiddle, show (64 * (64 * (64 * v₁ + v₂) + v₃) + v₄) % 256 = v₃ % 4 * 64 + v₄ by omega]

theorem tail_two {c₁ c₂ : UInt8} (h₂ : a.value c₂ < 64) : a.tail [c₁, c₂] =
    if a.value c₂ % 16 ≠ 0 then none else some [UInt8.ofNat (4 * a.value c₁ + a.value c₂ / 16)] := by
  have hlow : ∀ v : ℕ, v &&& 15 = v % 16 := fun v => Nat.and_two_pow_sub_one_eq_mod v 4
  rw [tail]
  simp only [join_eq _ (k := 6) h₂, hlow, Nat.shiftRight_eq_div_pow]
  rw [show (2 ^ 6 * a.value c₁ + a.value c₂) % 16 = a.value c₂ % 16 by omega,
    show (2 ^ 6 * a.value c₁ + a.value c₂) / 2 ^ 4 = 4 * a.value c₁ + a.value c₂ / 16 by omega]

theorem tail_three {c₁ c₂ c₃ : UInt8} (h₂ : a.value c₂ < 64) (h₃ : a.value c₃ < 64) : a.tail [c₁, c₂, c₃] =
    if a.value c₃ % 4 ≠ 0 then none
    else some [UInt8.ofNat (4 * a.value c₁ + a.value c₂ / 16), UInt8.ofNat (a.value c₂ % 16 * 16 + a.value c₃ / 4)] := by
  have hjoin : (a.value c₁ <<< 12) ||| (a.value c₂ <<< 6) ||| a.value c₃ =
      64 * (64 * a.value c₁ + a.value c₂) + a.value c₃ := by
    rw [join_shift (a.value c₁) (a.value c₂) 6 6 h₂, join_eq _ h₃]
    omega
  have hlow : ∀ v : ℕ, v &&& 3 = v % 4 := fun v => Nat.and_two_pow_sub_one_eq_mod v 2
  have hbyte : ∀ v : ℕ, v &&& 255 = v % 256 := fun v => Nat.and_two_pow_sub_one_eq_mod v 8
  rw [tail]
  simp only [hjoin, hlow, hbyte, Nat.shiftRight_eq_div_pow]
  generalize a.value c₁ = v₁ at *
  generalize a.value c₂ = v₂ at *
  generalize a.value c₃ = v₃ at *
  have hhigh : (64 * (64 * v₁ + v₂) + v₃) / 2 ^ 10 = 4 * v₁ + v₂ / 16 := by
    rw [show 2 ^ 10 = 64 * 16 from rfl, ← Nat.div_div_eq_div_mul]
    omega
  rw [hhigh, show (64 * (64 * v₁ + v₂) + v₃) % 4 = v₃ % 4 by omega,
    show (64 * (64 * v₁ + v₂) + v₃) / 2 ^ 2 % 256 = v₂ % 16 * 16 + v₃ / 4 by omega]

/-! ## Base64 read back -/

theorem ofNat_toNat_of_lt {n : ℕ} (h : n < 256) : (UInt8.ofNat n).toNat = n := UInt8.toNat_ofNat_of_lt' h

theorem groups_tail_iff : ∀ {u : Bytes}, (∀ c ∈ u, c ∈ a.chars) → u.length % 4 ≠ 1 → ∀ s : Bytes,
    (a.tail (u.drop (u.length - u.length % 4))).map (a.groups (u.take (u.length - u.length % 4)) ++ ·) = some s ↔
      a.encode false s = u
  | [], _, _, s => by
    cases s with
    | nil => exact ⟨fun _ => rfl, fun _ => rfl⟩
    | cons b s =>
      refine ⟨nofun, fun h => ?_⟩
      match s, h with
      | [], h => rw [encode_one] at h; cases h
      | [b'], h => rw [encode_two] at h; cases h
      | b' :: b'' :: s, h => rw [encode_group] at h; cases h
  | [c], _, hlen, s => absurd rfl hlen
  | [c₁, c₂], hu, _, s => by
    obtain ⟨hc₁, hu⟩ := forall_mem_cons.mp hu
    obtain ⟨hc₂, -⟩ := forall_mem_cons.mp hu
    have h₁ := value_lt hc₁
    have h₂ := value_lt hc₂
    show (a.tail [c₁, c₂]).map ([] ++ ·) = some s ↔ _
    rw [tail_two h₂]
    constructor
    · intro h
      split at h
      · cases h
      next hzero =>
      obtain rfl : [UInt8.ofNat (4 * a.value c₁ + a.value c₂ / 16)] = s := Option.some.inj h
      rw [encode_one, ofNat_toNat_of_lt (by omega), show (4 * a.value c₁ + a.value c₂ / 16) / 4 = a.value c₁ by omega,
        show (4 * a.value c₁ + a.value c₂ / 16) % 4 * 16 = a.value c₂ by omega, char_value hc₁, char_value hc₂]
      rfl
    · intro h
      match s, h with
      | [b], h =>
        rw [encode_one] at h
        obtain ⟨h₁', h⟩ := List.cons.inj h
        obtain ⟨h₂', -⟩ := List.cons.inj h
        have hb := b.toNat_lt
        rw [char_eq_iff (by omega) hc₁] at h₁'
        rw [char_eq_iff (by omega) hc₂] at h₂'
        rw [if_neg (by omega), ← h₁', ← h₂',
          show 4 * (b.toNat / 4) + b.toNat % 4 * 16 / 16 = b.toNat by omega, UInt8.ofNat_toNat]
        rfl
      | [b, b'], h => rw [encode_two] at h; cases h
      | b :: b' :: b'' :: s, h => rw [encode_group] at h; cases h
  | [c₁, c₂, c₃], hu, _, s => by
    obtain ⟨hc₁, hu⟩ := forall_mem_cons.mp hu
    obtain ⟨hc₂, hu⟩ := forall_mem_cons.mp hu
    obtain ⟨hc₃, -⟩ := forall_mem_cons.mp hu
    have h₁ := value_lt hc₁
    have h₂ := value_lt hc₂
    have h₃ := value_lt hc₃
    show (a.tail [c₁, c₂, c₃]).map ([] ++ ·) = some s ↔ _
    rw [tail_three h₂ h₃]
    constructor
    · intro h
      split at h
      · cases h
      next hzero =>
      cases h
      show a.encode false [_, _] = _
      rw [encode_two, ofNat_toNat_of_lt (by omega), ofNat_toNat_of_lt (by omega),
        show (4 * a.value c₁ + a.value c₂ / 16) / 4 = a.value c₁ by omega,
        show (4 * a.value c₁ + a.value c₂ / 16) % 4 * 16 + (a.value c₂ % 16 * 16 + a.value c₃ / 4) / 16 = a.value c₂ by
          omega,
        show (a.value c₂ % 16 * 16 + a.value c₃ / 4) % 16 * 4 = a.value c₃ by omega, char_value hc₁, char_value hc₂,
        char_value hc₃]
      rfl
    · intro h
      match s, h with
      | [b], h => rw [encode_one] at h; cases h
      | [b, b'], h =>
        rw [encode_two] at h
        obtain ⟨h₁', h⟩ := List.cons.inj h
        obtain ⟨h₂', h⟩ := List.cons.inj h
        obtain ⟨h₃', -⟩ := List.cons.inj h
        have hb := b.toNat_lt
        have hb' := b'.toNat_lt
        rw [char_eq_iff (by omega) hc₁] at h₁'
        rw [char_eq_iff (by omega) hc₂] at h₂'
        rw [char_eq_iff (by omega) hc₃] at h₃'
        rw [if_neg (by omega), show 4 * a.value c₁ + a.value c₂ / 16 = b.toNat by omega,
          show a.value c₂ % 16 * 16 + a.value c₃ / 4 = b'.toNat by omega, UInt8.ofNat_toNat, UInt8.ofNat_toNat]
        rfl
      | b :: b' :: b'' :: s, h => rw [encode_group] at h; cases h
  | c₁ :: c₂ :: c₃ :: c₄ :: u, hu, hlen, s => by
    obtain ⟨hc₁, hu⟩ := forall_mem_cons.mp hu
    obtain ⟨hc₂, hu⟩ := forall_mem_cons.mp hu
    obtain ⟨hc₃, hu⟩ := forall_mem_cons.mp hu
    obtain ⟨hc₄, hu⟩ := forall_mem_cons.mp hu
    have h₁ := value_lt hc₁
    have h₂ := value_lt hc₂
    have h₃ := value_lt hc₃
    have h₄ := value_lt hc₄
    have hmod : (c₁ :: c₂ :: c₃ :: c₄ :: u).length % 4 = u.length % 4 := Nat.add_mod_right u.length 4
    have hwhole : (c₁ :: c₂ :: c₃ :: c₄ :: u).length - (c₁ :: c₂ :: c₃ :: c₄ :: u).length % 4 =
        u.length - u.length % 4 + 4 := by
      rw [hmod, show (c₁ :: c₂ :: c₃ :: c₄ :: u).length = u.length + 4 from rfl]
      exact Nat.sub_add_comm (Nat.mod_le _ _)
    rw [hmod] at hlen
    have ih := groups_tail_iff hu hlen
    rw [hwhole]
    show (a.tail (u.drop (u.length - u.length % 4))).map
      (a.groups (c₁ :: c₂ :: c₃ :: c₄ :: u.take (u.length - u.length % 4)) ++ ·) = some s ↔ _
    rw [groups_group h₂ h₃ h₄]
    constructor
    · intro h
      obtain ⟨last, hlast, rfl⟩ := Option.map_eq_some_iff.mp h
      have hrest := (ih _).mp (Option.map_eq_some_iff.mpr ⟨last, hlast, rfl⟩)
      rw [cons_append, cons_append, cons_append, encode_group, hrest, ofNat_toNat_of_lt (by omega),
        ofNat_toNat_of_lt (by omega), ofNat_toNat_of_lt (by omega),
        show (4 * a.value c₁ + a.value c₂ / 16) / 4 = a.value c₁ by omega,
        show (4 * a.value c₁ + a.value c₂ / 16) % 4 * 16 + (a.value c₂ % 16 * 16 + a.value c₃ / 4) / 16 = a.value c₂ by
          omega,
        show (a.value c₂ % 16 * 16 + a.value c₃ / 4) % 16 * 4 + (a.value c₃ % 4 * 64 + a.value c₄) / 64 = a.value c₃ by
          omega,
        show (a.value c₃ % 4 * 64 + a.value c₄) % 64 = a.value c₄ by omega, char_value hc₁, char_value hc₂,
        char_value hc₃, char_value hc₄]
    · intro h
      match s, h with
      | [b], h => rw [encode_one] at h; cases h
      | [b, b'], h => rw [encode_two] at h; cases h
      | b :: b' :: b'' :: s, h =>
        rw [encode_group] at h
        obtain ⟨h₁', h⟩ := List.cons.inj h
        obtain ⟨h₂', h⟩ := List.cons.inj h
        obtain ⟨h₃', h⟩ := List.cons.inj h
        obtain ⟨h₄', hrest⟩ := List.cons.inj h
        have hb := b.toNat_lt
        have hb' := b'.toNat_lt
        have hb'' := b''.toNat_lt
        rw [char_eq_iff (by omega) hc₁] at h₁'
        rw [char_eq_iff (by omega) hc₂] at h₂'
        rw [char_eq_iff (by omega) hc₃] at h₃'
        rw [char_eq_iff (by omega) hc₄] at h₄'
        obtain ⟨last, hlast, rfl⟩ := Option.map_eq_some_iff.mp ((ih s).mpr hrest)
        rw [show 4 * a.value c₁ + a.value c₂ / 16 = b.toNat by omega,
          show a.value c₂ % 16 * 16 + a.value c₃ / 4 = b'.toNat by omega,
          show a.value c₃ % 4 * 64 + a.value c₄ = b''.toNat by omega, UInt8.ofNat_toNat, UInt8.ofNat_toNat,
          UInt8.ofNat_toNat, hlast]
        rfl

/-! ## Batches and padding -/

theorem groups_append : ∀ {u : Bytes}, u.length % 4 = 0 → ∀ v : Bytes, a.groups (u ++ v) = a.groups u ++ a.groups v
  | [], _, _ => rfl
  | [_], h, _ => absurd h (show ¬1 % 4 = 0 by decide)
  | [_, _], h, _ => absurd h (show ¬2 % 4 = 0 by decide)
  | [_, _, _], h, _ => absurd h (show ¬3 % 4 = 0 by decide)
  | c₁ :: c₂ :: c₃ :: c₄ :: u, h, v => by
    have hu : u.length % 4 = 0 := (Nat.add_mod_right u.length 4).symm.trans h
    simp only [cons_append, groups, groups_append hu v]

theorem batches_eq {n : ℕ} {s : Bytes} (h : s.length ≤ n * BATCH) : a.batches n s = a.groups s := by
  induction n generalizing s with
  | zero =>
    rw [length_eq_zero_iff.mp (by omega : s.length = 0)]
    rfl
  | succ n ih =>
    have hrest : (s.drop BATCH).length ≤ n * BATCH := by
      rw [length_drop]
      rw [Nat.succ_mul] at h
      omega
    rw [batches, ih hrest]
    by_cases hlen : s.length ≤ BATCH
    · rw [take_of_length_le hlen, drop_eq_nil_of_le hlen]
      exact append_nil _
    · have hwhole : (s.take BATCH).length % 4 = 0 := by
        rw [length_take, Nat.min_eq_left (by omega)]
        rfl
      rw [← groups_append hwhole, take_append_drop]

theorem expand_eq (s : Bytes) : a.expand s = a.groups s := by
  refine batches_eq ?_
  have hdiv := Nat.lt_div_mul_add (show 0 < BATCH by decide) (a := s.length + BATCH - 1)
  omega

/-- The padding of the text of as many bytes as `s` has. -/
def padding (s : Bytes) : Bytes := if s.length % 3 = 1 then lit "==" else if s.length % 3 = 2 then lit "=" else []

theorem encode_padded : ∀ s : Bytes, a.encode true s = a.encode false s ++ padding s
  | [] => rfl
  | [b] => by
    rw [encode_one, encode_one]
    rfl
  | [b₁, b₂] => by
    rw [encode_two, encode_two]
    rfl
  | b₁ :: b₂ :: b₃ :: s => by
    have hmod : padding (b₁ :: b₂ :: b₃ :: s) = padding s := by
      unfold padding
      rw [show (b₁ :: b₂ :: b₃ :: s).length % 3 = s.length % 3 from Nat.add_mod_right s.length 3]
    rw [encode_group, encode_group, encode_padded s, hmod]
    rfl

theorem encode_chars : ∀ (s : Bytes), ∀ c ∈ a.encode false s, c ∈ a.chars
  | [] => forall_mem_nil _
  | [b] => by
    have hb := b.toNat_lt
    rw [encode_one]
    exact forall_mem_cons.mpr ⟨char_mem (by omega), forall_mem_cons.mpr ⟨char_mem (by omega), forall_mem_nil _⟩⟩
  | [b₁, b₂] => by
    have h₁ := b₁.toNat_lt
    have h₂ := b₂.toNat_lt
    rw [encode_two]
    exact forall_mem_cons.mpr ⟨char_mem (by omega), forall_mem_cons.mpr ⟨char_mem (by omega),
      forall_mem_cons.mpr ⟨char_mem (by omega), forall_mem_nil _⟩⟩⟩
  | b₁ :: b₂ :: b₃ :: s => by
    have h₁ := b₁.toNat_lt
    have h₂ := b₂.toNat_lt
    have h₃ := b₃.toNat_lt
    rw [encode_group]
    exact forall_mem_cons.mpr ⟨char_mem (by omega), forall_mem_cons.mpr ⟨char_mem (by omega),
      forall_mem_cons.mpr ⟨char_mem (by omega), forall_mem_cons.mpr ⟨char_mem (by omega), encode_chars s⟩⟩⟩⟩

theorem encode_length : ∀ s : Bytes, (a.encode false s).length % 4 = if s.length % 3 = 0 then 0 else s.length % 3 + 1
  | [] => rfl
  | [b] => by
    rw [encode_one]
    rfl
  | [b₁, b₂] => by
    rw [encode_two]
    rfl
  | b₁ :: b₂ :: b₃ :: s => by
    rw [encode_group, show (b₁ :: b₂ :: b₃ :: s).length % 3 = s.length % 3 from Nat.add_mod_right s.length 3,
      ← encode_length s]
    exact Nat.add_mod_right _ 4

/-! ## What is accepted -/

theorem none_outside_iff {s : Bytes} {n : ℕ} :
    (s.findIdx? a.outside).filter (· < n) = none ↔ ∀ c ∈ s.take n, c ∈ a.chars := by
  simp only [← a.outside_iff]
  constructor
  · intro h c hc
    obtain ⟨i, hi, rfl⟩ := getElem_of_mem hc
    rw [length_take] at hi
    rw [getElem_take]
    cases hfound : s.findIdx? a.outside with
    | none => exact findIdx?_eq_none_iff.mp hfound _ (getElem_mem _)
    | some j =>
      rw [hfound, Option.filter_some] at h
      obtain ⟨hj, -, hbefore⟩ := findIdx?_eq_some_iff_getElem.mp hfound
      have hle : ¬j < n := by
        intro hlt
        rw [if_pos (decide_eq_true hlt)] at h
        cases h
      exact Bool.eq_false_of_not_eq_true (hbefore i (by omega))
  · intro h
    cases hfound : s.findIdx? a.outside with
    | none => rfl
    | some j =>
      obtain ⟨hj, hout, -⟩ := findIdx?_eq_some_iff_getElem.mp hfound
      rw [Option.filter_some]
      refine if_neg fun hlt => ?_
      have hmem : s[j] ∈ s.take n := by
        rw [mem_take_iff_getElem]
        exact ⟨j, by have := of_decide_eq_true hlt; omega, rfl⟩
      rw [h _ hmem] at hout
      cases hout

theorem decoded_iff {t : Bytes} {n : ℕ} (hn : n ≤ t.length) (hlen : n % 4 ≠ 1) (name s : Bytes) :
    (match (t.findIdx? a.outside).filter (· < n) with
      | some i =>
        if t.getD i 0 = 61 then refuse (name ++ lit " text has misplaced '=' padding at " ++ tostring (i + 1))
        else refuse (byte_at t i ++ lit " is outside the " ++ name ++ lit " alphabet")
      | none =>
        match a.tail ((t.take n).drop (n - n % 4)) with
        | none => refuse (name ++ lit " text ends in nonzero padding bits")
        | some last => .ok (a.expand (t.take (n - n % 4)) ++ last)) = .ok s ↔ a.encode false s = t.take n := by
  have htake : (t.take n).length = n := by
    rw [length_take, Nat.min_eq_left hn]
  have hwhole : t.take (n - n % 4) = (t.take n).take (n - n % 4) := by
    rw [take_take, Nat.min_eq_left (Nat.sub_le _ _)]
  split
  · next i hfound =>
    constructor
    · intro h
      split at h
      · cases h
      · cases h
    · intro h
      rw [none_outside_iff.mpr (h ▸ encode_chars s)] at hfound
      cases hfound
  · next hnone =>
    have hread := groups_tail_iff (none_outside_iff.mp hnone) (by rwa [htake]) s
    rw [htake] at hread
    rw [expand_eq, hwhole, ← hread]
    cases a.tail ((t.take n).drop (n - n % 4)) with
    | none => exact ⟨nofun, nofun⟩
    | some last => exact ⟨fun h => congrArg some (ok.inj h), fun h => congrArg Except.ok (Option.some.inj h)⟩

theorem decode_unpadded_iff (t name s : Bytes) : a.decode t false name = .ok s ↔ t = a.encode false s := by
  have hmod : (a.encode false s).length % 4 ≠ 1 := by
    rw [encode_length]
    split <;> omega
  unfold decode
  rw [if_neg fun h => Bool.false_ne_true h.1]
  by_cases hlen : t.length % 4 = 1
  · rw [if_pos ⟨Bool.false_ne_true, hlen⟩]
    exact ⟨nofun, fun h => absurd (h ▸ hlen) hmod⟩
  · rw [if_neg fun h => hlen h.2]
    refine (decoded_iff le_rfl hlen name s).trans ?_
    rw [take_length]
    exact eq_comm

theorem unpadded_append (hequals : a.outside 61 = true) {u p : Bytes} (hu : ∀ c ∈ u, c ∈ a.chars)
    (hp : p = lit "==" ∨ p = lit "=" ∨ p = []) : unpadded (u ++ p) = u.length := by
  have hnot : ∀ k, (61 : UInt8) ∉ u.drop k := fun k hmem => equals_not_mem hequals (hu 61 (mem_of_mem_drop hmem)) rfl
  rcases hp with rfl | rfl | rfl
  · have hdrop : (u ++ lit "==").drop ((u ++ lit "==").length - 2) = lit "==" := by
      rw [length_append]
      exact drop_left
    unfold unpadded
    rw [if_pos hdrop, length_append]
    rfl
  · have hone : (u ++ lit "=").drop ((u ++ lit "=").length - 1) = lit "=" := by
      rw [length_append]
      exact drop_left
    have htwo : (u ++ lit "=").drop ((u ++ lit "=").length - 2) ≠ lit "==" := by
      intro h
      rcases eq_nil_or_concat' u with rfl | ⟨v, c, rfl⟩
      · cases h
      · rw [append_assoc, length_append] at h
        have hc : [c] ++ lit "=" = lit "==" := drop_left.symm.trans h
        exact equals_not_mem hequals (hu c (mem_append_right _ mem_cons_self)) (List.cons.inj hc).1
    unfold unpadded
    rw [if_neg htwo, if_pos hone, length_append]
    rfl
  · unfold unpadded
    rw [append_nil, if_neg fun h => hnot (u.length - 2) (by rw [h]; decide),
      if_neg fun h => hnot (u.length - 1) (by rw [h]; decide)]

theorem unpadded_cut (t : Bytes) : unpadded t ≤ t.length ∧
    (t.drop (unpadded t) = lit "==" ∨ t.drop (unpadded t) = lit "=" ∨ t.drop (unpadded t) = []) := by
  unfold unpadded
  split
  · next h => exact ⟨Nat.sub_le _ _, .inl h⟩
  · split
    · next h => exact ⟨Nat.sub_le _ _, .inr (.inl h)⟩
    · exact ⟨le_rfl, .inr (.inr (drop_length ..))⟩

theorem decode_padded_iff (hequals : a.outside 61 = true) (t name s : Bytes) :
    a.decode t true name = .ok s ↔ t = a.encode true s := by
  have hmod := encode_length (a := a) s
  obtain ⟨hle, hcut⟩ := unpadded_cut t
  have hpadding : padding s = lit "==" ∨ padding s = lit "=" ∨ padding s = [] := by
    unfold padding
    split_ifs
    · exact .inl rfl
    · exact .inr (.inl rfl)
    · exact .inr (.inr rfl)
  unfold decode
  by_cases hlen : t.length % 4 = 0
  · rw [if_neg fun h => h.2 hlen, if_neg fun h => h.1 rfl]
    have hsplit : t.length = unpadded t + (t.drop (unpadded t)).length := by
      rw [length_drop]
      omega
    have hfour : unpadded t % 4 ≠ 1 := by
      rcases hcut with h | h | h
      · rw [h, show (lit "==").length = 2 from rfl] at hsplit
        omega
      · rw [h, show (lit "=").length = 1 from rfl] at hsplit
        omega
      · rw [h, show ([] : Bytes).length = 0 from rfl] at hsplit
        omega
    refine (decoded_iff hle hfour name s).trans ?_
    rw [encode_padded]
    constructor
    · intro h
      have hbody : (a.encode false s).length = unpadded t := by
        rw [h, length_take, Nat.min_eq_left hle]
      have hpad : t.drop (unpadded t) = padding s := by
        unfold padding
        rcases hcut with h | h | h
        · rw [h, show (lit "==").length = 2 from rfl] at hsplit
          rw [if_pos (by split at hmod <;> omega), h]
        · rw [h, show (lit "=").length = 1 from rfl] at hsplit
          rw [if_neg (by split at hmod <;> omega), if_pos (by split at hmod <;> omega), h]
        · rw [h, show ([] : Bytes).length = 0 from rfl] at hsplit
          rw [if_neg (by split at hmod <;> omega), if_neg (by split at hmod <;> omega), h]
      rw [h, ← hpad, take_append_drop]
    · rintro rfl
      rw [unpadded_append hequals (encode_chars s) hpadding, take_left]
  · rw [if_pos ⟨rfl, hlen⟩]
    refine ⟨nofun, ?_⟩
    rintro rfl
    refine absurd ?_ hlen
    rw [encode_padded, length_append]
    unfold padding
    split_ifs with h₁ h₂
    · rw [show (lit "==").length = 2 from rfl]
      split at hmod <;> omega
    · rw [show (lit "=").length = 1 from rfl]
      split at hmod <;> omega
    · rw [show ([] : Bytes).length = 0 from rfl]
      split at hmod <;> omega

end Alphabet

/-! ## Hexadecimal read back -/

theorem isHex_iff_mem {c : UInt8} : isHex c = true ↔ c ∈ DIGITS ++ UPPER := by
  have htable : (DIGITS ++ UPPER).map UInt8.toNat =
      range' 48 10 ++ range' 97 6 ++ (range' 48 10 ++ range' 65 6) := by decide
  have hmem : c ∈ DIGITS ++ UPPER ↔ c.toNat ∈ (DIGITS ++ UPPER).map UInt8.toNat := by
    rw [mem_map]
    exact ⟨fun hc => ⟨c, hc, rfl⟩, fun ⟨b, hb, hbc⟩ => UInt8.toNat_inj.mp hbc ▸ hb⟩
  rw [hmem, htable]
  simp only [mem_append, mem_range'_1, isHex, isDigit, Bool.or_eq_true, Bool.and_eq_true, decide_eq_true_eq,
    UInt8.le_iff_toNat_le, UInt8.reduceToNat]
  omega

theorem digit_of_hex {c : UInt8} (h : isHex c = true) :
    ∃ n < 16, digit_of c = some n ∧ lower [c] = [DIGITS.getD n 0] := by
  have htable : ((DIGITS ++ UPPER).all fun c =>
      (digit_of c).any fun n => decide (n < 16) && lower [c] == [DIGITS.getD n 0]) = true := by decide
  have hc := all_eq_true.mp htable c (isHex_iff_mem.mp h)
  cases hdigit : digit_of c with
  | none =>
    rw [hdigit] at hc
    cases hc
  | some n =>
    rw [hdigit, Option.any_some, Bool.and_eq_true, decide_eq_true_eq, beq_iff_eq] at hc
    exact ⟨n, hc.1, rfl, hc.2⟩

theorem digit_inj {n m : ℕ} (hn : n < 16) (hm : m < 16) (h : DIGITS.getD n 0 = DIGITS.getD m 0) : n = m := by
  have htable : ∀ n < 16, DIGITS.idxOf (DIGITS.getD n 0) = n := by decide
  rw [← htable n hn, h, htable m hm]

theorem isHex_of_lower {c : UInt8} {n : ℕ} (hn : n < 16) (h : lower [c] = [DIGITS.getD n 0]) : isHex c = true := by
  have htable : ∀ n < 16, isLowerHex (DIGITS.getD n 0) = true := by decide
  have hlow := htable n hn
  rw [← (List.cons.inj h).1] at hlow
  dsimp only at hlow
  by_cases hupper : isUpper c = true
  · rw [if_pos hupper] at hlow
    simp only [isUpper, isLowerHex, isHex, isDigit, Bool.or_eq_true, Bool.and_eq_true, decide_eq_true_eq,
      UInt8.le_iff_toNat_le, UInt8.reduceToNat, UInt8.toNat_add] at hupper hlow ⊢
    omega
  · rw [if_neg hupper] at hlow
    exact isHex_of_isLowerHex hlow

theorem hex_of_eq (b : UInt8) : hex_of b = [DIGITS.getD (b.toNat / 16) 0, DIGITS.getD (b.toNat % 16) 0] := by
  unfold hex_of
  rw [show b.toNat &&& 15 = b.toNat % 16 from Nat.and_two_pow_sub_one_eq_mod b.toNat 4, Nat.shiftRight_eq_div_pow]

theorem byte_of_hex_iff {h l : UInt8} (hh : isHex h = true) (hl : isHex l = true) :
    ∃ b, byte_of_hex h l = some b ∧ ∀ b', lower [h, l] = hex_of b' ↔ b = b' := by
  obtain ⟨n, hn, hhn, hlow⟩ := digit_of_hex hh
  obtain ⟨m, hm, hlm, hlow'⟩ := digit_of_hex hl
  have hbyte : (UInt8.ofNat (n * 16 + m)).toNat = n * 16 + m := UInt8.toNat_ofNat_of_lt' (show _ < 256 by omega)
  have hpair : lower [h, l] = [DIGITS.getD n 0, DIGITS.getD m 0] := by
    show lower [h] ++ lower [l] = _
    rw [hlow, hlow']
    rfl
  refine ⟨UInt8.ofNat (n * 16 + m), ?_, fun b' => ?_⟩
  · unfold byte_of_hex
    rw [hhn, hlm]
    rfl
  rw [hpair, hex_of_eq]
  constructor
  · intro heq
    have hb' := b'.toNat_lt
    obtain ⟨h₁, heq⟩ := List.cons.inj heq
    have h₁ := digit_inj hn (by omega) h₁
    have h₂ := digit_inj hm (by omega) (List.cons.inj heq).1
    rw [← UInt8.toNat_inj, hbyte]
    omega
  · rintro rfl
    rw [hbyte, show (n * 16 + m) / 16 = n by omega, show (n * 16 + m) % 16 = m by omega]

theorem hex_cons (b : UInt8) (s : Bytes) : hex (b :: s) = hex_of b ++ hex s := rfl

theorem spelled_pairs_iff : ∀ {t : Bytes}, t.length % 2 = 0 → (∀ c ∈ t, isHex c = true) → ∀ s : Bytes,
    spelled_pairs t = s ↔ lower t = hex s
  | [], _, _, s => by
    cases s with
    | nil => exact ⟨fun _ => rfl, fun _ => rfl⟩
    | cons b s => exact ⟨nofun, nofun⟩
  | [_], hlen, _, _ => absurd hlen (show ¬1 % 2 = 0 by decide)
  | h :: l :: t, hlen, ht, s => by
    obtain ⟨hh, ht⟩ := forall_mem_cons.mp ht
    obtain ⟨hl, ht⟩ := forall_mem_cons.mp ht
    obtain ⟨b, hbyte, hiff⟩ := byte_of_hex_iff hh hl
    have ih := spelled_pairs_iff ((Nat.add_mod_right t.length 2).symm.trans hlen) ht
    rw [spelled_pairs, hbyte]
    show b :: spelled_pairs t = s ↔ lower [h, l] ++ lower t = hex s
    cases s with
    | nil => exact ⟨nofun, nofun⟩
    | cons b' s =>
      rw [hex_cons, List.cons.injEq, ih s, ← hiff b']
      exact ⟨fun h => by rw [h.1, h.2], fun h => append_inj h rfl⟩

theorem unhex_iff (t s : Bytes) : unhex t = .ok s ↔ lower t = hex s := by
  have hlength : ∀ s : Bytes, (hex s).length = 2 * s.length := by
    intro s
    induction s with
    | nil => rfl
    | cons b s ih =>
      rw [hex_cons, length_append, ih, length_cons]
      show 2 + 2 * s.length = _
      omega
  have hdigits : ∀ s : Bytes, ∀ c ∈ hex s, ∃ n < 16, c = DIGITS.getD n 0 := by
    intro s c hc
    obtain ⟨b, -, hc⟩ := mem_flatMap.mp hc
    have hb := b.toNat_lt
    rw [hex_of_eq] at hc
    rcases mem_cons.mp hc with rfl | hc
    · exact ⟨_, by omega, rfl⟩
    · exact ⟨_, Nat.mod_lt _ (by omega), mem_singleton.mp hc⟩
  unfold unhex
  by_cases hlen : t.length % 2 = 0
  · rw [if_neg (not_not_intro hlen)]
    by_cases hhex : ∀ c ∈ t, isHex c = true
    · have hnone : (t.findIdx? fun b => !isHex b) = none :=
        findIdx?_eq_none_iff.mpr fun c hc => by rw [hhex c hc]; rfl
      rw [hnone]
      exact ⟨fun h => (spelled_pairs_iff hlen hhex s).mp (ok.inj h),
        fun h => congrArg Except.ok ((spelled_pairs_iff hlen hhex s).mpr h)⟩
    · have hsome : (t.findIdx? fun b => !isHex b) ≠ none := by
        refine fun hnone => hhex fun c hc => ?_
        have := findIdx?_eq_none_iff.mp hnone c hc
        rwa [Bool.not_eq_false'] at this
      obtain ⟨i, hi⟩ := Option.ne_none_iff_exists'.mp hsome
      rw [hi]
      refine ⟨nofun, fun h => absurd (fun c hc => ?_) hhex⟩
      have hmem : _ ∈ lower t := mem_map_of_mem hc
      rw [h] at hmem
      obtain ⟨n, hn, hlow⟩ := hdigits s _ hmem
      exact isHex_of_lower hn (congrArg (fun b => [b]) hlow)
  · rw [if_pos hlen]
    refine ⟨nofun, fun h => absurd ?_ hlen⟩
    rw [← lower_length, h, hlength]
    omega

/-! ## The encodings -/

/-- Each decoder reads back what its encoder writes, and accepts nothing else: for `unhex`, up to the case of
letters. -/
theorem encodings_inverse :
    (∀ s : Bytes, unhex (hex s) = .ok s ∧ unbase64 (base64 s) = .ok s ∧ unbase64url (base64url s) = .ok s) ∧
    (∀ t s : Bytes, (unhex t = .ok s ↔ lower t = hex s) ∧ (unbase64 t = .ok s ↔ t = base64 s) ∧
      (unbase64url t = .ok s ↔ t = base64url s)) := by
  have hlower : ∀ s : Bytes, lower (hex s) = hex s := by
    intro s
    have htable : ∀ n < 16, isUpper (DIGITS.getD n 0) = false := by decide
    refine lower_of_forall fun c hc => ?_
    obtain ⟨b, -, hc⟩ := mem_flatMap.mp hc
    have hb := b.toNat_lt
    rw [hex_of_eq] at hc
    rcases mem_cons.mp hc with rfl | hc
    · exact htable _ (by omega)
    · exact mem_singleton.mp hc ▸ htable _ (Nat.mod_lt _ (by omega))
  have hboth : ∀ t s : Bytes, (unhex t = .ok s ↔ lower t = hex s) ∧ (unbase64 t = .ok s ↔ t = base64 s) ∧
      (unbase64url t = .ok s ↔ t = base64url s) := fun t s =>
    ⟨unhex_iff t s, Alphabet.decode_padded_iff rfl t (lit "base64") s, Alphabet.decode_unpadded_iff t (lit "base64url") s⟩
  exact ⟨fun s => ⟨(hboth _ s).1.mpr (hlower s), (hboth _ s).2.1.mpr rfl, (hboth _ s).2.2.mpr rfl⟩, hboth⟩

end Cosmic.Codec
