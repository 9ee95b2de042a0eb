/-
A string that `put_string` writes reads back as the string.

Both go by characters: a character's escape, or its own bytes, reads as the bytes of the character.
-/
import Cosmic.Json.Rfc

set_option autoImplicit false

namespace Cosmic.Json

open Cosmic.Base List

/-! ## Four hexadecimal digits -/

variable {n : ℕ}

theorem hex4_length (h : n < 65536) : (hex4 n).length = 4 := by
  have hle : (hex n).length ≤ 4 := (hex_length_le (by decide)).mpr h
  rw [hex4, length_append, length_replicate]
  omega

theorem isHex_hex4 (n : ℕ) : (hex4 n).all isHex = true := by
  rw [all_eq_true]
  intro b hb
  rcases mem_append.mp hb with hb | hb
  · rw [eq_of_mem_replicate hb]
    rfl
  · exact isHex_of_isLowerHex (isLowerHex_of_mem_hex hb)

theorem digits_value_zeros (k : ℕ) (s : Bytes) : digits_value 16 (List.replicate k 48 ++ s) = digits_value 16 s := by
  induction k with
  | zero => rfl
  | succ k ih =>
    rwa [replicate_succ, cons_append]

theorem digits_value_hex4 (n : ℕ) : digits_value 16 (hex4 n) = n := by
  rw [hex4, digits_value_zeros, digits_value_hex]

theorem unit_hex4 (h : n < 65536) (s : Bytes) : Rfc.unit (hex4 n ++ s) = some (n, s) := by
  have htake : (hex4 n ++ s).take 4 = hex4 n := by rw [← hex4_length h, take_left]
  have hdrop : (hex4 n ++ s).drop 4 = s := by rw [← hex4_length h, drop_left]
  unfold Rfc.unit
  rw [htake, hdrop, isHex_hex4, digits_value_hex4, if_pos]
  rw [length_append, hex4_length h, Bool.and_true, decide_eq_true_iff]
  omega

/-! ## Escapes -/

theorem point_char (c : Char) : Rfc.point c.toNat = utf8 c := by
  rw [Rfc.point, Char.ofNat_toNat]

theorem escape_u (s : Bytes) : Rfc.escape (117 :: s) = Rfc.escaped_point s := by
  rw [Rfc.escape]

theorem escape_point (c : Char) (s : Bytes) : Rfc.escape ((point_escape c.toNat).tail ++ s) = some (utf8 c, s) := by
  have hlt := char_lt c
  have hnot := char_not_surrogate c
  unfold point_escape
  split_ifs with h
  · -- a pair: the halves, and the character they make
    have hhigh : 0xd800 + ((c.toNat - 0x10000) >>> 10) = 0xd800 + (c.toNat - 0x10000) / 1024 := by
      rw [Nat.shiftRight_eq_div_pow]
    have hlow : 0xdc00 + ((c.toNat - 0x10000) &&& 0x3ff) = 0xdc00 + (c.toNat - 0x10000) % 1024 :=
      congrArg (0xdc00 + ·) (low_bits _ 10)
    rw [hhigh, hlow, unit_escape, unit_escape, cons_append, tail_cons, cons_append,
      cons_append, escape_u, append_assoc, Rfc.escaped_point, unit_hex4 (by omega)]
    dsimp only
    rw [if_neg (by simp only [Bool.or_eq_true, decide_eq_true_iff]; omega), if_neg (by omega)]
    rw [cons_append, cons_append, Rfc.after_u, Option.bind_some, unit_hex4 (by omega)]
    dsimp only
    rw [if_neg (by simp only [Bool.or_eq_true, decide_eq_true_iff]; omega)]
    have hpoint : 0x10000 + (0xd800 + (c.toNat - 0x10000) / 1024 - 0xd800) * 1024
        + (0xdc00 + (c.toNat - 0x10000) % 1024 - 0xdc00) = c.toNat := by omega
    rw [hpoint, point_char]
  · rw [unit_escape, tail_cons, cons_append, escape_u, Rfc.escaped_point, unit_hex4 (by omega)]
    dsimp only
    rw [if_pos (by simp only [Bool.or_eq_true, decide_eq_true_iff]; omega), point_char]

/-! ## Characters -/

/-- How an ASCII byte is written. -/
def byte_text (b : UInt8) : Bytes := if b ≥ 0x20 && b ≠ 34 && b ≠ 92 then [b] else escape_of b

/-- How a character is written. -/
def char_text (ascii : Bool) (c : Char) : Bytes :=
  if c.toNat < 0x80 then byte_text (UInt8.ofNat c.toNat)
  else if ascii then point_escape c.toNat
  else utf8 c

theorem put_bytes_skip (ascii : Bool) (s : Bytes) : ∀ w : Bytes,
    put_bytes ascii w.length (w ++ s) = put_bytes ascii 0 s
  | [] => rfl
  | b :: w => by rw [length_cons, cons_append, put_bytes, put_bytes_skip ascii s w]

variable {b : UInt8}

theorem put_bytes_low (ascii : Bool) (h : b < 0x80) (s : Bytes) :
    put_bytes ascii 0 (b :: s) = byte_text b ++ put_bytes ascii 0 s := by
  have hge : ¬b ≥ 0x80 := UInt8.not_le.mpr h
  rw [put_bytes, if_neg (by simp [hge]), byte_text]
  split_ifs
  · rfl
  · rfl

theorem put_bytes_high (h : 0x80 ≤ b.toNat) (s : Bytes) : put_bytes false 0 (b :: s) = b :: put_bytes false 0 s := by
  have hlow : b ≥ 0x20 := UInt8.le_iff_toNat_le.mpr (le_trans (by decide) h)
  have hquote : b ≠ 34 := by rintro rfl; exact absurd h (by decide)
  have hslash : b ≠ 92 := by rintro rfl; exact absurd h (by decide)
  rw [put_bytes, if_neg (by simp), if_pos (by simp [hlow, hquote, hslash])]

theorem put_bytes_escape {w : Bytes} {code : ℕ} (h : 0x80 ≤ b)
    (hw : w.length = if b ≥ 0xf0 then 3 else if b ≥ 0xe0 then 2 else 1)
    (hcode : w.foldl (fun code b => code <<< 6 ||| (b.toNat &&& 0x3f)) (b.toNat &&& (0x3f >>> w.length)) = code)
    (s : Bytes) : put_bytes true 0 (b :: (w ++ s)) = point_escape code ++ put_bytes true 0 s := by
  rw [put_bytes, if_pos (by simp [h])]
  dsimp only
  rw [← hw, take_left, hcode, put_bytes_skip]

theorem ge_iff {c : UInt8} : b ≥ c ↔ c.toNat ≤ b.toNat := UInt8.le_iff_toNat_le

variable {c : Char}

theorem utf8_high (h : ¬c.toNat < 0x80) : ∀ b ∈ utf8 c, 0x80 ≤ b.toNat := by
  have hlt := char_lt c
  intro b hb
  obtain ⟨b₀, w, hw⟩ := exists_cons_of_ne_nil (utf8_ne_nil c)
  have htail := continues_tail c
  rw [hw, tail_cons] at htail
  rw [hw] at hb
  rcases mem_cons.mp hb with rfl | hb
  · rcases utf8_cases c with h₁ | ⟨h₁, h₂⟩ | ⟨h₁, h₂⟩ | h₁
    · exact absurd h₁ h
    · rw [utf8_two h₁ h₂] at hw
      rw [← (List.cons.inj hw).1, toNat_byte (by omega)]
      omega
    · rw [utf8_three h₁ h₂] at hw
      rw [← (List.cons.inj hw).1, toNat_byte (by omega)]
      omega
    · rw [utf8_four h₁] at hw
      rw [← (List.cons.inj hw).1, toNat_byte (by omega)]
      omega
  · exact (continues_iff.mp (htail b hb)).1

variable {a : ℕ}

theorem mask_two (h : a < 32) : (0xc0 + a) &&& (0x3f >>> 1) = a := by
  have hmask : 0x3f >>> 1 = 2 ^ 5 - 1 := rfl
  rw [hmask, low_bits]
  omega

theorem mask_three (h : a < 16) : (0xe0 + a) &&& (0x3f >>> 2) = a := by
  have hmask : 0x3f >>> 2 = 2 ^ 4 - 1 := rfl
  rw [hmask, low_bits]
  omega

theorem mask_four (h : a < 8) : (0xf0 + a) &&& (0x3f >>> 3) = a := by
  have hmask : 0x3f >>> 3 = 2 ^ 3 - 1 := rfl
  rw [hmask, low_bits]
  omega

theorem fold_low (code n : ℕ) :
    code <<< 6 ||| ((UInt8.ofNat (0x80 + n % 64)).toNat &&& 0x3f) = code * 64 + n % 64 := by
  have hmask : 0x3f = 2 ^ 6 - 1 := rfl
  rw [toNat_byte (by omega), hmask, low_bits, shift_or 6 (Nat.mod_lt _ (by decide))]
  omega

theorem put_bytes_two (h : 0x80 ≤ c.toNat) (h' : c.toNat < 0x800) (s : Bytes) :
    put_bytes true 0 (utf8 c ++ s) = point_escape c.toNat ++ put_bytes true 0 s := by
  rw [utf8_two h h', cons_append]
  apply put_bytes_escape
  · rw [UInt8.le_iff_toNat_le, toNat_byte (by omega)]
    exact le_trans (by decide : (0x80 : UInt8).toNat ≤ 0xc0) (Nat.le_add_right _ _)
  · rw [if_neg, if_neg]
    · rfl
    · rw [ge_iff, toNat_byte (by omega)]
      exact fun hle => absurd (show 0xe0 ≤ 0xc0 + c.toNat / 64 from hle) (by omega)
    · rw [ge_iff, toNat_byte (by omega)]
      exact fun hle => absurd (show 0xf0 ≤ 0xc0 + c.toNat / 64 from hle) (by omega)
  · rw [foldl_cons, foldl_nil, fold_low, toNat_byte (by omega)]
    rw [length_singleton, mask_two (by omega)]
    omega

theorem put_bytes_three (h : 0x800 ≤ c.toNat) (h' : c.toNat < 0x10000) (s : Bytes) :
    put_bytes true 0 (utf8 c ++ s) = point_escape c.toNat ++ put_bytes true 0 s := by
  rw [utf8_three h h', cons_append]
  apply put_bytes_escape
  · rw [UInt8.le_iff_toNat_le, toNat_byte (by omega)]
    exact le_trans (by decide : (0x80 : UInt8).toNat ≤ 0xe0) (Nat.le_add_right _ _)
  · rw [if_neg, if_pos]
    · rfl
    · rw [ge_iff, toNat_byte (by omega)]
      exact Nat.le_add_right _ _
    · rw [ge_iff, toNat_byte (by omega)]
      exact fun hle => absurd (show 0xf0 ≤ 0xe0 + c.toNat / 4096 from hle) (by omega)
  · rw [foldl_cons, foldl_cons, foldl_nil, fold_low, fold_low, toNat_byte (by omega)]
    rw [length_cons, length_singleton, mask_three (by omega)]
    omega

theorem put_bytes_four (h : 0x10000 ≤ c.toNat) (s : Bytes) :
    put_bytes true 0 (utf8 c ++ s) = point_escape c.toNat ++ put_bytes true 0 s := by
  have hlt := char_lt c
  rw [utf8_four h, cons_append]
  apply put_bytes_escape
  · rw [UInt8.le_iff_toNat_le, toNat_byte (by omega)]
    exact le_trans (by decide : (0x80 : UInt8).toNat ≤ 0xf0) (Nat.le_add_right _ _)
  · rw [if_pos]
    · rfl
    · rw [ge_iff, toNat_byte (by omega)]
      exact Nat.le_add_right _ _
  · rw [foldl_cons, foldl_cons, foldl_cons, foldl_nil, fold_low, fold_low, fold_low, toNat_byte (by omega)]
    rw [length_cons, length_cons, length_singleton, mask_four (by omega)]
    omega

theorem put_bytes_char (ascii : Bool) (c : Char) (s : Bytes) :
    put_bytes ascii 0 (utf8 c ++ s) = char_text ascii c ++ put_bytes ascii 0 s := by
  unfold char_text
  rcases utf8_cases c with h | h
  · rw [utf8_one h, if_pos h, cons_append, nil_append, put_bytes_low]
    rwa [UInt8.lt_iff_toNat_lt, toNat_byte (by omega)]
  rw [if_neg (by omega)]
  cases ascii with
  | false =>
    rw [if_neg (by decide)]
    -- none of its bytes is written otherwise
    have hhigh : ∀ w : Bytes, (∀ b ∈ w, 0x80 ≤ b.toNat) → put_bytes false 0 (w ++ s) = w ++ put_bytes false 0 s := by
      intro w
      induction w with
      | nil => intro _; rfl
      | cons b w ih =>
        intro hw
        rw [cons_append, put_bytes_high (hw b (mem_cons_self ..)),
          ih fun b hb => hw b (mem_cons_of_mem _ hb), cons_append]
    exact hhigh _ (utf8_high (by omega))
  | true =>
    rw [if_pos rfl]
    rcases h with ⟨h, h'⟩ | ⟨h, h'⟩ | h
    · exact put_bytes_two h h' s
    · exact put_bytes_three h h' s
    · exact put_bytes_four h s

theorem put_bytes_encode (ascii : Bool) (cs : List Char) :
    put_bytes ascii 0 (encode cs) = cs.flatMap (char_text ascii) := by
  induction cs with
  | nil => rfl
  | cons c cs ih => rw [encode_cons, put_bytes_char, ih, flatMap_cons]

/-! ## Reading -/

theorem chars_mono : ∀ {s : Bytes} {r : Bytes × Bytes}, Rfc.chars n s = some r → Rfc.chars (n + 1) s = some r := by
  induction n with
  | zero =>
    intro s r h
    cases h
  | succ n ih =>
    rintro (_ | ⟨b, s⟩) r h
    · cases h
    rw [Rfc.chars] at h ⊢
    by_cases hquote : b = 34
    · rwa [if_pos hquote] at h ⊢
    rw [if_neg hquote] at h ⊢
    by_cases hslash : b = 92
    · rw [if_pos hslash] at h ⊢
      obtain ⟨e, he, h⟩ := Option.bind_eq_some_iff.mp h
      obtain ⟨t, ht, rfl⟩ := Option.map_eq_some_iff.mp h
      rw [he, Option.bind_some, ih ht, Option.map_some]
    rw [if_neg hslash] at h ⊢
    by_cases hlow : b < 32
    · rw [if_pos hlow] at h
      cases h
    rw [if_neg hlow] at h ⊢
    obtain ⟨t, ht, rfl⟩ := Option.map_eq_some_iff.mp h
    rw [ih ht, Option.map_some]

variable {m : ℕ} {s : Bytes}

theorem chars_le (hle : n ≤ m) {r : Bytes × Bytes} (h : Rfc.chars n s = some r) : Rfc.chars m s = some r := by
  induction hle with
  | refl => exact h
  | step _ ih => exact chars_mono ih

variable {u rest : Bytes}

theorem chars_plain (hquote : b ≠ 34) (hslash : b ≠ 92) (hlow : ¬b < 32) (h : Rfc.chars n s = some (u, rest)) :
    Rfc.chars (n + 1) (b :: s) = some (b :: u, rest) := by
  rw [Rfc.chars, if_neg hquote, if_neg hslash, if_neg hlow, h, Option.map_some]

theorem chars_escape {w t : Bytes} (he : Rfc.escape w = some (t, s)) (h : Rfc.chars n s = some (u, rest)) :
    Rfc.chars (n + 1) (92 :: w) = some (t ++ u, rest) := by
  rw [Rfc.chars, if_neg (by decide), if_pos rfl, he, Option.bind_some, h, Option.map_some]

theorem escape_escape_of (h : b < 32 ∨ b = 34 ∨ b = 92) :
    ∃ w, escape_of b = 92 :: w ∧ ∀ s, Rfc.escape (w ++ s) = some ([b], s) := by
  by_cases hshort : b = 34 ∨ b = 92 ∨ b = 8 ∨ b = 12 ∨ b = 10 ∨ b = 13 ∨ b = 9
  · rcases hshort with rfl | rfl | rfl | rfl | rfl | rfl | rfl
    · exact ⟨[34], rfl, fun s => rfl⟩
    · exact ⟨[92], rfl, fun s => rfl⟩
    · exact ⟨[98], rfl, fun s => rfl⟩
    · exact ⟨[102], rfl, fun s => rfl⟩
    · exact ⟨[110], rfl, fun s => rfl⟩
    · exact ⟨[114], rfl, fun s => rfl⟩
    · exact ⟨[116], rfl, fun s => rfl⟩
  · have hb : b.toNat < 32 := by
      rcases h with h | h | h
      · exact UInt8.lt_iff_toNat_lt.mp h
      · exact absurd (.inl h) hshort
      · exact absurd (.inr (.inl h)) hshort
    obtain ⟨c, hc⟩ := exists_char (n := b.toNat) (.inl (by omega))
    refine ⟨117 :: hex4 b.toNat, ?_, fun s => ?_⟩
    · have hall : ∀ n < 32, ¬(UInt8.ofNat n = 34 ∨ UInt8.ofNat n = 92 ∨ UInt8.ofNat n = 8 ∨ UInt8.ofNat n = 12 ∨
          UInt8.ofNat n = 10 ∨ UInt8.ofNat n = 13 ∨ UInt8.ofNat n = 9) →
            escape_of (UInt8.ofNat n) = 92 :: 117 :: hex4 n := by decide +kernel
      have hone := hall b.toNat hb
      rw [UInt8.ofNat_toNat] at hone
      exact hone hshort
    · have hpoint := escape_point c s
      rw [point_escape, if_neg (by omega), unit_escape, tail_cons, hc] at hpoint
      rw [cons_append] at hpoint ⊢
      rw [hpoint, utf8_one (by omega), hc, UInt8.ofNat_toNat]

theorem chars_byte (h : Rfc.chars n s = some (u, rest)) (hm : n + (byte_text b).length ≤ m) :
    Rfc.chars m (byte_text b ++ s) = some (b :: u, rest) := by
  by_cases hplain : b ≥ 0x20 && b ≠ 34 && b ≠ 92
  · rw [byte_text, if_pos hplain] at hm ⊢
    simp only [Bool.and_eq_true, decide_eq_true_iff] at hplain
    exact chars_le hm (chars_plain hplain.1.2 hplain.2 (UInt8.not_lt.mpr hplain.1.1) h)
  have hspecial : b < 32 ∨ b = 34 ∨ b = 92 := by
    simp only [Bool.and_eq_true, decide_eq_true_iff] at hplain
    by_contra hnone
    rw [not_or, not_or] at hnone
    exact hplain ⟨⟨UInt8.not_lt.mp hnone.1, hnone.2.1⟩, hnone.2.2⟩
  obtain ⟨w, hw, hescape⟩ := escape_escape_of hspecial
  rw [byte_text, if_neg hplain, hw] at hm ⊢
  rw [length_cons] at hm
  exact chars_le (by omega) (chars_escape (hescape s) h)

theorem chars_char (ascii : Bool) (c : Char) (h : Rfc.chars n s = some (u, rest))
    (hm : n + (char_text ascii c).length ≤ m) :
    Rfc.chars m (char_text ascii c ++ s) = some (utf8 c ++ u, rest) := by
  unfold char_text at hm ⊢
  by_cases hlow : c.toNat < 0x80
  · rw [if_pos hlow] at hm ⊢
    rw [utf8_one hlow]
    exact chars_byte h hm
  rw [if_neg hlow] at hm ⊢
  cases ascii with
  | true =>
    rw [if_pos rfl] at hm ⊢
    have hcons : point_escape c.toNat = 92 :: (point_escape c.toNat).tail := by
      unfold point_escape unit_escape
      split_ifs
      · rfl
      · rfl
    have hpos : (point_escape c.toNat).length ≠ 0 := by
      rw [hcons]
      exact Nat.succ_ne_zero _
    rw [hcons, cons_append]
    exact chars_le (by omega) (chars_escape (escape_point c s) h)
  | false =>
    rw [if_neg (by decide)] at hm ⊢
    have hbytes : ∀ w : Bytes, (∀ b ∈ w, 0x80 ≤ b.toNat) →
        Rfc.chars (n + w.length) (w ++ s) = some (w ++ u, rest) := by
      intro w
      induction w with
      | nil => intro _; exact h
      | cons b w ih =>
        intro hw
        have hb := hw b (mem_cons_self ..)
        refine chars_plain ?_ ?_ ?_ (ih fun b hb => hw b (mem_cons_of_mem _ hb))
        · rintro rfl; exact absurd hb (by decide)
        · rintro rfl; exact absurd hb (by decide)
        · exact fun hlt => absurd (le_trans hb (le_of_lt (UInt8.lt_iff_toNat_lt.mp hlt))) (by decide)
    exact chars_le hm (hbytes _ (utf8_high hlow))

theorem chars_encode (ascii : Bool) (rest : Bytes) : ∀ (cs : List Char) (m : ℕ),
    (cs.flatMap (char_text ascii)).length + 1 ≤ m →
      Rfc.chars m (cs.flatMap (char_text ascii) ++ 34 :: rest) = some (encode cs, rest)
  | [], m, hm => chars_le hm rfl
  | c :: cs, m, hm => by
      rw [flatMap_cons, length_append] at hm
      rw [flatMap_cons, append_assoc, encode_cons]
      exact chars_char ascii c (chars_encode ascii rest cs _ le_rfl) (by omega)

/-- What `put_string` writes of a string reads as the string. -/
theorem put_string_read {ascii : Bool} {out : Bytes} (h : put_string ascii s = .ok out) :
    ∃ w, out = 34 :: w ∧ ∀ rest, Rfc.string (w ++ rest) = some (s, rest) := by
  unfold put_string at h
  by_cases hutf8 : is_utf8 s = true
  · rw [if_neg (by simp [hutf8])] at h
    obtain ⟨cs, rfl⟩ := is_utf8_iff.mp hutf8
    rw [put_bytes_encode] at h
    refine ⟨cs.flatMap (char_text ascii) ++ [34], by rw [← Except.ok.inj h, cons_append], fun rest => ?_⟩
    have hread := chars_encode ascii rest cs (cs.flatMap (char_text ascii) ++ 34 :: rest).length (by
      rw [length_append, length_cons]
      omega)
    rw [append_assoc, cons_append, nil_append, Rfc.string, hread, Option.bind_some, if_pos hutf8]
  · rw [if_pos (by simp [hutf8])] at h
    cases h

end Cosmic.Json
