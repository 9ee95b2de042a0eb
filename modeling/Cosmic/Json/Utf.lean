/-
Strings and keys as `core/json.c` looks at them: whether the bytes are UTF-8, and the order RFC 8785
sorts keys in.

A key is kept as UTF-8 and ordered by its UTF-16 units. `compare_utf16` finds the order from the
bytes: it looks for the first byte that differs, backs up to the start of the character holding it,
and compares the two characters there.
-/
import Cosmic.Base.Utf8
import Mathlib.Data.List.GetD

set_option autoImplicit false

namespace Cosmic.Json

open Cosmic.Base List

/-! ## Whether bytes are UTF-8 -/

/-- How many bytes follow a first byte, and between which bytes the next one is. -/
structure Lead where
  need : ℕ
  lo : UInt8
  hi : UInt8

/-- What a first byte past ASCII says of the rest of its character. -/
def lead (c : UInt8) : Option Lead :=
  if 0xc2 ≤ c && c ≤ 0xdf then some ⟨1, 0x80, 0xbf⟩
  else if 0xe0 ≤ c && c ≤ 0xef then
    some ⟨2, if c = 0xe0 then 0xa0 else 0x80, if c = 0xed then 0x9f else 0xbf⟩
  else if 0xf0 ≤ c && c ≤ 0xf4 then
    some ⟨3, if c = 0xf0 then 0x90 else 0x80, if c = 0xf4 then 0x8f else 0xbf⟩
  else none

/-- Whether the bytes after a first byte are the rest of its character. -/
def follows (l : Lead) (s : Bytes) : Bool :=
  l.need ≤ s.length && (l.lo ≤ s.getD 0 0 && s.getD 0 0 ≤ l.hi) && ((s.take l.need).drop 1).all continues

/-- The loop of `is_utf8`, `n` bytes at most. -/
def utf8_from : ℕ → Bytes → Bool
  | _, [] => true
  | 0, _ :: _ => false
  | n + 1, c :: s =>
    if c < 0x80 then utf8_from n s
    else
      match lead c with
      | none => false
      | some l => follows l s && utf8_from n (s.drop l.need)

/-- Whether `s` is UTF-8: no overlong form, no surrogate, nothing past U+10FFFF. -/
def is_utf8 (s : Bytes) : Bool := utf8_from s.length s

/-! ## The order of keys -/

/-- How many bytes two strings begin with alike. -/
def same_count : Bytes → Bytes → ℕ
  | x :: a, y :: b => if x = y then same_count a b + 1 else 0
  | _, _ => 0

/-- Where the character holding byte `i` starts. -/
def back (a : Bytes) : ℕ → ℕ
  | 0 => 0
  | i + 1 => if a.getD (i + 1) 0 &&& 0xc0 = 0x80 then back a i else i + 1

/-- The order of two characters by their UTF-16 units: -1, 0 or 1. -/
def compare_points (x y : ℕ) : ℤ :=
  if decide (x > 0xffff) ≠ decide (y > 0xffff) then
    let bmp := if x > 0xffff then y else x
    let pair_first := if bmp ≥ 0xe000 then -1 else 1
    if x > 0xffff then pair_first else -pair_first
  else (if x > y then 1 else 0) - (if x < y then 1 else 0)

/-- The order RFC 8785 sorts keys in: negative, 0 or positive. Both keys are well-formed UTF-8. -/
def compare_utf16 (a b : Bytes) : ℤ :=
  let n := min a.length b.length
  let i := same_count a b
  if i = n then (if a.length > b.length then 1 else 0) - (if a.length < b.length then 1 else 0)
  else
    let i := back a i
    compare_points (code_point (a.drop i)) (code_point (b.drop i))

/-! ## What `is_utf8` accepts -/

variable {c : UInt8}

theorem lead_two (h : 0xc2 ≤ c.toNat) (h' : c.toNat ≤ 0xdf) : lead c = some ⟨1, 0x80, 0xbf⟩ := by
  rw [lead, if_pos]
  simp only [Bool.and_eq_true, decide_eq_true_iff, UInt8.le_iff_toNat_le]
  exact ⟨h, h'⟩

theorem lead_three (h : 0xe0 ≤ c.toNat) (h' : c.toNat ≤ 0xef) :
    lead c = some ⟨2, if c = 0xe0 then 0xa0 else 0x80, if c = 0xed then 0x9f else 0xbf⟩ := by
  rw [lead, if_neg, if_pos]
  · simp only [Bool.and_eq_true, decide_eq_true_iff, UInt8.le_iff_toNat_le]
    exact ⟨h, h'⟩
  · simp only [Bool.and_eq_true, decide_eq_true_iff, UInt8.le_iff_toNat_le]
    rintro ⟨-, hle⟩
    exact absurd (le_trans h hle) (by decide)

theorem lead_four (h : 0xf0 ≤ c.toNat) (h' : c.toNat ≤ 0xf4) :
    lead c = some ⟨3, if c = 0xf0 then 0x90 else 0x80, if c = 0xf4 then 0x8f else 0xbf⟩ := by
  rw [lead, if_neg, if_neg, if_pos]
  · simp only [Bool.and_eq_true, decide_eq_true_iff, UInt8.le_iff_toNat_le]
    exact ⟨h, h'⟩
  · simp only [Bool.and_eq_true, decide_eq_true_iff, UInt8.le_iff_toNat_le]
    rintro ⟨-, hle⟩
    exact absurd (le_trans h hle) (by decide)
  · simp only [Bool.and_eq_true, decide_eq_true_iff, UInt8.le_iff_toNat_le]
    rintro ⟨-, hle⟩
    exact absurd (le_trans h hle) (by decide)

theorem byte_eq_iff {b : UInt8} : b = c ↔ b.toNat = c.toNat := UInt8.toNat_inj.symm

variable {n : ℕ} {s : Bytes}

theorem utf8_from_one (h : c.toNat < 0x80) : utf8_from (n + 1) (c :: s) = utf8_from n s := by
  rw [utf8_from, if_pos]
  exact UInt8.lt_iff_toNat_lt.mpr h

theorem utf8_from_lead {l : Lead} (h : 0x80 ≤ c.toNat) (hl : lead c = some l) :
    utf8_from (n + 1) (c :: s) = (follows l s && utf8_from n (s.drop l.need)) := by
  have hnot : ¬c < 0x80 := fun hlt => absurd (UInt8.lt_iff_toNat_lt.mp hlt) (Nat.not_lt.mpr h)
  rw [utf8_from, if_neg hnot, hl]

theorem utf8_from_two (h : 0xc2 ≤ c.toNat) (h' : c.toNat ≤ 0xdf) : utf8_from (n + 1) (c :: s) = true ↔
      ∃ b t, s = b :: t ∧ continues b = true ∧ utf8_from n t = true := by
  rw [utf8_from_lead (by omega) (lead_two h h'), follows]
  rcases s with _ | ⟨b, t⟩
  · simp
  · simp [continues]

/-- The bounds of a second byte, which two lead bytes make narrower than those of the rest. -/
theorem second_iff {c b low m high M : UInt8} (hm : 0x80 ≤ m) (hM : M ≤ 0xbf) :
    (if c = low then m else 0x80) ≤ b ∧ b ≤ (if c = high then M else 0xbf) ↔
      continues b = true ∧ (c.toNat = low.toNat → m.toNat ≤ b.toNat) ∧ (c.toNat = high.toNat → b.toNat ≤ M.toNat) := by
  rw [continues_iff]
  split_ifs with he hd <;> simp only [byte_eq_iff, UInt8.le_iff_toNat_le] at * <;>
    simp only [UInt8.toNat_ofNat, Nat.reducePow, Nat.reduceMod] at * <;> omega

theorem utf8_from_three (h : 0xe0 ≤ c.toNat) (h' : c.toNat ≤ 0xef) : utf8_from (n + 1) (c :: s) = true ↔
      ∃ b₁ b₂ t, s = b₁ :: b₂ :: t ∧ (continues b₁ = true ∧ (c.toNat = 0xe0 → 0xa0 ≤ b₁.toNat) ∧
        (c.toNat = 0xed → b₁.toNat ≤ 0x9f)) ∧ continues b₂ = true ∧ utf8_from n t = true := by
  rw [utf8_from_lead (by omega) (lead_three h h'), follows]
  rcases s with _ | ⟨b₁, _ | ⟨b₂, t⟩⟩
  · simp
  · simp
  have hfirst := @second_iff c b₁ 0xe0 0xa0 0xed 0x9f (by decide) (by decide)
  simp only [length_cons, getD_cons_zero, take_succ_cons, take_zero, drop_succ_cons,
    drop_zero, all_cons, all_nil, Bool.and_true, Bool.and_eq_true, decide_eq_true_iff, hfirst,
    List.cons.injEq, ↓existsAndEq, true_and]
  constructor
  · rintro ⟨⟨⟨-, hb₁⟩, hb₂⟩, ht⟩
    exact ⟨hb₁, hb₂, ht⟩
  · rintro ⟨hb₁, hb₂, ht⟩
    exact ⟨⟨⟨by omega, hb₁⟩, hb₂⟩, ht⟩

theorem utf8_from_four (h : 0xf0 ≤ c.toNat) (h' : c.toNat ≤ 0xf4) : utf8_from (n + 1) (c :: s) = true ↔
      ∃ b₁ b₂ b₃ t, s = b₁ :: b₂ :: b₃ :: t ∧ (continues b₁ = true ∧ (c.toNat = 0xf0 → 0x90 ≤ b₁.toNat) ∧
        (c.toNat = 0xf4 → b₁.toNat ≤ 0x8f)) ∧ continues b₂ = true ∧ continues b₃ = true ∧ utf8_from n t = true := by
  rw [utf8_from_lead (by omega) (lead_four h h'), follows]
  rcases s with _ | ⟨b₁, _ | ⟨b₂, _ | ⟨b₃, t⟩⟩⟩
  · simp
  · simp
  · simp
  have hfirst := @second_iff c b₁ 0xf0 0x90 0xf4 0x8f (by decide) (by decide)
  simp only [length_cons, getD_cons_zero, take_succ_cons, take_zero, drop_succ_cons,
    drop_zero, all_cons, all_nil, Bool.and_true, Bool.and_eq_true, decide_eq_true_iff, hfirst,
    List.cons.injEq, ↓existsAndEq, true_and]
  constructor
  · rintro ⟨⟨⟨-, hb₁⟩, hb₂, hb₃⟩, ht⟩
    exact ⟨hb₁, hb₂, hb₃, ht⟩
  · rintro ⟨hb₁, hb₂, hb₃, ht⟩
    exact ⟨⟨⟨by omega, hb₁⟩, hb₂, hb₃⟩, ht⟩

theorem utf8_from_utf8 (c : Char) (h : utf8_from n s = true) : utf8_from (n + 1) (utf8 c ++ s) = true := by
  have hlt := char_lt c
  have hnot := char_not_surrogate c
  have hlow (k : ℕ) : continues (UInt8.ofNat (0x80 + k % 64)) = true := continues_byte (Nat.mod_lt k (by decide))
  rcases utf8_cases c with h₁ | ⟨h₁, h₂⟩ | ⟨h₁, h₂⟩ | h₁
  · rw [utf8_one h₁, cons_append, nil_append, utf8_from_one]
    · exact h
    · rwa [toNat_byte (by omega)]
  · rw [utf8_two h₁ h₂, cons_append, cons_append, nil_append, utf8_from_two]
    · exact ⟨_, _, rfl, hlow _, h⟩
    · rw [toNat_byte (by omega)]
      omega
    · rw [toNat_byte (by omega)]
      omega
  · rw [utf8_three h₁ h₂, cons_append, cons_append, cons_append, nil_append, utf8_from_three]
    · refine ⟨_, _, _, rfl, ⟨hlow _, ?_, ?_⟩, hlow _, h⟩ <;> rw [toNat_byte (by omega), toNat_byte (by omega)] <;>
        omega
    · rw [toNat_byte (by omega)]
      omega
    · rw [toNat_byte (by omega)]
      omega
  · rw [utf8_four h₁, cons_append, cons_append, cons_append, cons_append, nil_append, utf8_from_four]
    · refine ⟨_, _, _, _, rfl, ⟨hlow _, ?_, ?_⟩, hlow _, hlow _, h⟩ <;>
        rw [toNat_byte (by omega), toNat_byte (by omega)] <;> omega
    · rw [toNat_byte (by omega)]
      omega
    · rw [toNat_byte (by omega)]
      omega

theorem utf8_from_encode (cs : List Char) : ∀ n, (encode cs).length ≤ n → utf8_from n (encode cs) = true := by
  induction cs with
  | nil =>
    rintro (_ | n) -
    · rfl
    · rfl
  | cons c cs ih =>
    intro n hn
    have hpos : 0 < (utf8 c).length := length_pos_iff.mpr (utf8_ne_nil c)
    rw [encode_cons, length_append] at hn
    obtain ⟨n, rfl⟩ := Nat.exists_eq_add_one_of_ne_zero (show n ≠ 0 by omega)
    exact utf8_from_utf8 c (ih n (by omega))

theorem lead_cases {l : Lead} (h : lead c = some l) :
    (0xc2 ≤ c.toNat ∧ c.toNat ≤ 0xdf) ∨ (0xe0 ≤ c.toNat ∧ c.toNat ≤ 0xef) ∨ (0xf0 ≤ c.toNat ∧ c.toNat ≤ 0xf4) := by
  unfold lead at h
  simp only [Bool.and_eq_true, decide_eq_true_iff, UInt8.le_iff_toNat_le, UInt8.toNat_ofNat, Nat.reducePow,
    Nat.reduceMod] at h
  by_contra hnone
  rw [if_neg (fun hle => hnone (.inl hle)), if_neg (fun hle => hnone (.inr (.inl hle))),
    if_neg (fun hle => hnone (.inr (.inr hle)))] at h
  cases h

theorem utf8_from_cons (h : utf8_from (n + 1) (c :: s) = true) :
    ∃ d t, c :: s = utf8 d ++ t ∧ utf8_from n t = true := by
  have hbyte {b : UInt8} {k : ℕ} (hk : b.toNat = k) : b = UInt8.ofNat k := by
    rw [← hk, UInt8.ofNat_toNat]
  rcases lt_or_ge c.toNat 0x80 with hc | hc
  · rw [utf8_from_one hc] at h
    obtain ⟨d, hd⟩ := exists_char (n := c.toNat) (.inl (by omega))
    refine ⟨d, s, ?_, h⟩
    rw [utf8_one (by omega), hd, UInt8.ofNat_toNat, cons_append, nil_append]
  rcases hl : lead c with _ | l
  · have hnot : ¬c < 0x80 := fun hlt => absurd (UInt8.lt_iff_toNat_lt.mp hlt) (Nat.not_lt.mpr hc)
    rw [utf8_from, if_neg hnot, hl] at h
    cases h
  rcases lead_cases hl with ⟨h₁, h₂⟩ | ⟨h₁, h₂⟩ | ⟨h₁, h₂⟩
  · obtain ⟨b, t, rfl, hb, ht⟩ := (utf8_from_two h₁ h₂).mp h
    rw [continues_iff] at hb
    obtain ⟨d, hd⟩ := exists_char (n := (c.toNat - 0xc0) * 64 + (b.toNat - 0x80)) (.inl (by omega))
    refine ⟨d, t, ?_, ht⟩
    rw [utf8_two (by omega) (by omega), hbyte (b := c) (k := 0xc0 + d.toNat / 64) (by omega),
      hbyte (b := b) (k := 0x80 + d.toNat % 64) (by omega)]
    rfl
  · obtain ⟨b₁, b₂, t, rfl, ⟨hb₁, hlo, hhi⟩, hb₂, ht⟩ := (utf8_from_three h₁ h₂).mp h
    rw [continues_iff] at hb₁ hb₂
    obtain ⟨d, hd⟩ := exists_char
      (n := (c.toNat - 0xe0) * 4096 + (b₁.toNat - 0x80) * 64 + (b₂.toNat - 0x80)) (by omega)
    refine ⟨d, t, ?_, ht⟩
    rw [utf8_three (by omega) (by omega), hbyte (b := c) (k := 0xe0 + d.toNat / 4096) (by omega),
      hbyte (b := b₁) (k := 0x80 + d.toNat / 64 % 64) (by omega),
      hbyte (b := b₂) (k := 0x80 + d.toNat % 64) (by omega)]
    rfl
  · obtain ⟨b₁, b₂, b₃, t, rfl, ⟨hb₁, hlo, hhi⟩, hb₂, hb₃, ht⟩ := (utf8_from_four h₁ h₂).mp h
    rw [continues_iff] at hb₁ hb₂ hb₃
    obtain ⟨d, hd⟩ := exists_char
      (n := (c.toNat - 0xf0) * 262144 + (b₁.toNat - 0x80) * 4096 + (b₂.toNat - 0x80) * 64 + (b₃.toNat - 0x80))
      (by omega)
    refine ⟨d, t, ?_, ht⟩
    rw [utf8_four (by omega), hbyte (b := c) (k := 0xf0 + d.toNat / 262144) (by omega),
      hbyte (b := b₁) (k := 0x80 + d.toNat / 4096 % 64) (by omega),
      hbyte (b := b₂) (k := 0x80 + d.toNat / 64 % 64) (by omega),
      hbyte (b := b₃) (k := 0x80 + d.toNat % 64) (by omega)]
    rfl

theorem utf8_from_sound : ∀ {n : ℕ} {s : Bytes}, utf8_from n s = true → ∃ cs, s = encode cs
  | _, [], _ => ⟨[], rfl⟩
  | 0, _ :: _, h => absurd h (by simp [utf8_from])
  | n + 1, c :: s, h => by
      obtain ⟨d, t, hdt, ht⟩ := utf8_from_cons h
      obtain ⟨cs, rfl⟩ := utf8_from_sound ht
      exact ⟨d :: cs, hdt⟩

/-- `is_utf8` accepts the bytes of characters, and nothing else. -/
theorem is_utf8_iff : is_utf8 s = true ↔ ∃ cs, s = encode cs := by
  constructor
  · exact utf8_from_sound
  · rintro ⟨cs, rfl⟩
    exact utf8_from_encode cs _ le_rfl

/-! ## What `compare_utf16` answers -/

theorem same_count_append (p a b : Bytes) : same_count (p ++ a) (p ++ b) = p.length + same_count a b := by
  induction p with
  | nil => simp
  | cons x p ih => rw [cons_append, cons_append, same_count, if_pos rfl, ih, length_cons]; omega

theorem take_same_count : ∀ a b : Bytes, a.take (same_count a b) = b.take (same_count a b)
  | [], _ => by simp [same_count]
  | _ :: _, [] => by simp [same_count]
  | x :: a, y :: b => by
      rw [same_count]
      split_ifs with h
      · rw [take_succ_cons, take_succ_cons, h, take_same_count a b]
      · rfl

theorem same_count_comm : ∀ a b : Bytes, same_count a b = same_count b a
  | [], [] => rfl
  | [], _ :: _ => rfl
  | _ :: _, [] => rfl
  | x :: a, y :: b => by
      rw [same_count, same_count, same_count_comm a b]
      exact if_congr eq_comm rfl rfl

variable {d : Char}

theorem same_count_lt {c : Char} (h : c ≠ d) (s t : Bytes) :
    same_count (utf8 c ++ s) (utf8 d ++ t) < (utf8 c).length := by
  by_contra hge
  have hle : (utf8 c).length ≤ same_count (utf8 c ++ s) (utf8 d ++ t) := Nat.le_of_not_lt hge
  have htake := congrArg (List.take (utf8 c).length) (take_same_count (utf8 c ++ s) (utf8 d ++ t))
  rw [take_take, take_take, min_eq_left hle, take_left] at htake
  have hsplit : utf8 c ++ (utf8 d ++ t).drop (utf8 c).length = utf8 d ++ t :=
    (congrArg (· ++ (utf8 d ++ t).drop (utf8 c).length) htake).trans (take_append_drop _ _)
  exact h (utf8_cancel hsplit).1

theorem back_succ (a : Bytes) (i : ℕ) :
    back a (i + 1) = if continues (a.getD (i + 1) 0) = true then back a i else i + 1 := by
  have hmask : ∀ n < 256, UInt8.ofNat n &&& 0xc0 = 0x80 ↔ continues (UInt8.ofNat n) = true := by decide +kernel
  have hbyte (b : UInt8) : b &&& 0xc0 = 0x80 ↔ continues b = true := by
    have hb := hmask b.toNat b.toNat_lt
    rwa [UInt8.ofNat_toNat] at hb
  rw [back]
  exact if_congr (hbyte _) rfl rfl

theorem back_char (p : Bytes) (c : Char) (s : Bytes) : ∀ k, k < (utf8 c).length →
    back (p ++ utf8 c ++ s) (p.length + k) = p.length := by
  obtain ⟨b, w, hw⟩ := exists_cons_of_ne_nil (utf8_ne_nil c)
  have htail := continues_tail c
  have hhead := continues_head hw
  rw [hw, tail_cons] at htail
  rw [hw]
  intro k
  induction k with
  | zero =>
    intro _
    rcases hp : p.length with _ | n
    · rfl
    · rw [Nat.add_zero, back_succ, if_neg]
      rw [← hp, append_assoc, getD_append_right _ _ _ _ le_rfl, Nat.sub_self, cons_append, getD_cons_zero, hhead]
      exact Bool.false_ne_true
  | succ k ih =>
    intro hk
    rw [length_cons] at hk ih
    rw [← Nat.add_assoc, back_succ, if_pos, ih (by omega)]
    rw [Nat.add_assoc, append_assoc, getD_append_right _ _ _ _ (Nat.le_add_right _ _),
      Nat.add_sub_cancel_left, cons_append, getD_cons_succ, getD_append _ _ _ _ (by omega)]
    apply htail
    rw [getD_eq_getElem _ _ (by omega)]
    exact getElem_mem _

theorem parted (s t : List Char) : s = t ∨ (∃ d ds, t = s ++ d :: ds) ∨ (∃ c cs, s = t ++ c :: cs) ∨
    ∃ p c d cs ds, c ≠ d ∧ s = p ++ c :: cs ∧ t = p ++ d :: ds := by
  induction s generalizing t with
  | nil =>
    rcases t with _ | ⟨d, ds⟩
    · exact .inl rfl
    · exact .inr (.inl ⟨d, ds, rfl⟩)
  | cons c cs ih =>
    rcases t with _ | ⟨d, ds⟩
    · exact .inr (.inr (.inl ⟨c, cs, rfl⟩))
    by_cases hcd : c = d
    · subst hcd
      rcases ih ds with rfl | ⟨e, es, rfl⟩ | ⟨e, es, rfl⟩ | ⟨p, e, f, es, fs, hne, rfl, rfl⟩
      · exact .inl rfl
      · exact .inr (.inl ⟨e, es, rfl⟩)
      · exact .inr (.inr (.inl ⟨e, es, rfl⟩))
      · exact .inr (.inr (.inr ⟨c :: p, e, f, es, fs, hne, rfl, rfl⟩))
    · exact .inr (.inr (.inr ⟨[], c, d, cs, ds, hcd, rfl, rfl⟩))

theorem compare_utf16_parted (p : List Char) {c : Char} (h : c ≠ d) (cs ds : List Char) :
    compare_utf16 (encode (p ++ c :: cs)) (encode (p ++ d :: ds)) = compare_points c.toNat d.toNat := by
  have hc := same_count_lt h (encode cs) (encode ds)
  have hd := same_count_lt h.symm (encode ds) (encode cs)
  rw [same_count_comm] at hd
  unfold compare_utf16
  rw [encode_append, encode_append, encode_cons, encode_cons, same_count_append]
  dsimp only
  rw [if_neg, ← append_assoc, ← append_assoc, back_char _ c _ _ hc, append_assoc,
    append_assoc, drop_left, drop_left, code_point_utf8, code_point_utf8]
  rw [length_append, length_append, length_append, length_append]
  omega

theorem compare_points_lt {c : Char} (h : Before c d) : compare_points c.toNat d.toNat = -1 := by
  unfold Before at h
  unfold compare_points
  simp only [gt_iff_lt, ge_iff_le, ne_eq, decide_eq_decide]
  split_ifs at h ⊢ <;> omega

theorem compare_points_gt {c : Char} (h : Before d c) : compare_points c.toNat d.toNat = 1 := by
  unfold Before at h
  unfold compare_points
  simp only [gt_iff_lt, ge_iff_le, ne_eq, decide_eq_decide]
  split_ifs at h ⊢ <;> omega

theorem same_count_nil (a : Bytes) : same_count [] a = 0 := by
  rw [same_count]
  exact nofun

theorem compare_utf16_append (a b : Bytes) : compare_utf16 a (a ++ b) = -(if 0 < b.length then 1 else 0) ∧
      compare_utf16 (a ++ b) a = (if 0 < b.length then 1 else 0) := by
  have hcount : same_count a (a ++ b) = a.length := by
    have happend := same_count_append a [] b
    rwa [append_nil, same_count_nil, Nat.add_zero] at happend
  have hlt : a.length < a.length + b.length ↔ 0 < b.length := by omega
  have hle : ¬a.length + b.length < a.length := by omega
  unfold compare_utf16
  rw [same_count_comm (a ++ b) a, hcount, length_append]
  constructor
  · rw [if_pos (min_eq_left (Nat.le_add_right _ _)).symm, if_neg hle, zero_sub]
    exact congrArg Neg.neg (if_congr hlt rfl rfl)
  · rw [if_pos (min_eq_right (Nat.le_add_right _ _)).symm, if_neg hle, sub_zero]
    exact if_congr hlt rfl rfl

/-- `compare_utf16` orders keys by their UTF-16 units, and finds equal only equal keys. -/
theorem compare_utf16_spec (s t : List Char) : (units s < units t ∧ compare_utf16 (encode s) (encode t) < 0) ∨
      (s = t ∧ compare_utf16 (encode s) (encode t) = 0) ∨
        (units t < units s ∧ 0 < compare_utf16 (encode s) (encode t)) := by
  have hlonger (c : Char) (cs : List Char) : 0 < (encode (c :: cs)).length := by
    rw [encode_cons, length_append]
    exact Nat.add_pos_left (length_pos_iff.mpr (utf8_ne_nil c)) _
  have hunits (c : Char) (cs : List Char) : units (c :: cs) ≠ [] :=
    fun h => utf16_ne_nil c (append_eq_nil_iff.mp h).1
  rcases parted s t with rfl | ⟨d, ds, rfl⟩ | ⟨c, cs, rfl⟩ | ⟨p, c, d, cs, ds, hne, rfl, rfl⟩
  · right; left
    have hself := (compare_utf16_append (encode s) []).1
    rw [append_nil] at hself
    exact ⟨rfl, hself⟩
  · left
    rw [units_append, encode_append, (compare_utf16_append _ _).1, if_pos (hlonger d ds)]
    exact ⟨lt_append (hunits d ds), by decide⟩
  · right; right
    rw [units_append, encode_append, (compare_utf16_append _ _).2, if_pos (hlonger c cs)]
    exact ⟨lt_append (hunits c cs), by decide⟩
  · rw [compare_utf16_parted p hne, units_append, units_append, units_cons, units_cons]
    rcases before_or hne with hbefore | hbefore
    · left
      rw [compare_points_lt hbefore]
      exact ⟨append_lt_append (units_lt hbefore _ _), by decide⟩
    · right; right
      rw [compare_points_gt hbefore]
      exact ⟨append_lt_append (units_lt hbefore _ _), by decide⟩

end Cosmic.Json
