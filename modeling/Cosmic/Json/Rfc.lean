/-
RFC 8259's grammar, as a reader of it: what a text of JSON says.

`text` reads a whole text, the numbers kept as they are written. Every text the grammar derives it
reads, and it reads no other, a string being UTF-8 and an escape naming a character. It is what is
relied on of yyjson on the texts that `core/json.c` writes.
-/
import Cosmic.Json.Text
import Mathlib.Data.List.TakeWhile

set_option autoImplicit false

namespace Cosmic.Json.Rfc

open Cosmic.Base Option

def space (b : UInt8) : Bool := b = 32 || b = 9 || b = 10 || b = 13

def skip (s : Bytes) : Bytes := s.dropWhile space

/-- The value of the four hexadecimal digits that `s` begins with, and what follows them. -/
def unit (s : Bytes) : Option (ℕ × Bytes) :=
  if s.length ≥ 4 && (s.take 4).all isHex then some (digits_value 16 (s.take 4), s.drop 4) else none

def point (n : ℕ) : Bytes := utf8 (Char.ofNat n)

/-- What follows the `\u` that begins a pair's second half. -/
def after_u : Bytes → Option Bytes
  | 92 :: 117 :: s => some s
  | _ => none

/-- The character of `\uXXXX`, or of a surrogate pair, the first `\u` being passed. -/
def escaped_point (s : Bytes) : Option (Bytes × Bytes) :=
  match unit s with
  | none => none
  | some (high, s) =>
    if high < 0xd800 || 0xdfff < high then some (point high, s)
    else if 0xdbff < high then none
    else
      match (after_u s).bind unit with
      | none => none
      | some (low, s) =>
        if low < 0xdc00 || 0xdfff < low then none
        else some (point (0x10000 + (high - 0xd800) * 1024 + (low - 0xdc00)), s)

/-- The characters of an escape, the backslash being passed. -/
def escape : Bytes → Option (Bytes × Bytes)
  | 34 :: s => some ([34], s)
  | 92 :: s => some ([92], s)
  | 47 :: s => some ([47], s)
  | 98 :: s => some ([8], s)
  | 102 :: s => some ([12], s)
  | 110 :: s => some ([10], s)
  | 114 :: s => some ([13], s)
  | 116 :: s => some ([9], s)
  | 117 :: s => escaped_point s
  | _ => none

/-- The bytes of a string, its opening quote being passed, and what follows its closing one. -/
def chars : ℕ → Bytes → Option (Bytes × Bytes)
  | 0, _ => none
  | _, [] => none
  | n + 1, b :: s =>
    if b = 34 then some ([], s)
    else if b = 92 then (escape s).bind fun e => (chars n e.2).map fun r => (e.1 ++ r.1, r.2)
    else if b < 32 then none
    else (chars n s).map fun r => (b :: r.1, r.2)

/-- A string, its opening quote being passed. -/
def string (s : Bytes) : Option (Bytes × Bytes) :=
  (chars s.length s).bind fun r => if is_utf8 r.1 then some r else none

def number_byte (b : UInt8) : Bool := isDigit b || b = 45 || b = 43 || b = 46 || b = 101 || b = 69

def number (s : Bytes) : Option (Val × Bytes) :=
  if is_json_number (s.takeWhile number_byte) then
    some (.raw (s.takeWhile number_byte), s.dropWhile number_byte)
  else none

/-- A scalar: anything but an array or an object. -/
def scalar (s : Bytes) : Option (Val × Bytes) :=
  if (lit "null").isPrefixOf s then some (.null, s.drop 4)
  else if (lit "true").isPrefixOf s then some (.bool true, s.drop 4)
  else if (lit "false").isPrefixOf s then some (.bool false, s.drop 5)
  else
    match s with
    | 34 :: s => (string s).map fun r => (.str r.1, r.2)
    | s => number s

/-- A member's key and the colon after it. -/
def key : Bytes → Option (Key × Bytes)
  | 34 :: s =>
    (string s).bind fun r =>
      match skip r.2 with
      | 58 :: s => some (⟨0, r.1⟩, s)
      | _ => none
  | _ => none

variable {s t u : Bytes}

theorem key_string {text : Bytes} (h : string s = some (text, t)) (hskip : skip t = 58 :: u) :
    key (34 :: s) = some (⟨0, text⟩, u) := by
  rw [key, h, bind_some, hskip]
  rfl

mutual

/-- A value, white space before it being passed, and what follows it. -/
def value : ℕ → Bytes → Option (Val × Bytes)
  | 0, _ => none
  | n + 1, 91 :: s =>
    match skip s with
    | 93 :: s => some (.arr [], s)
    | s => (items n s).map fun r => (.arr r.1, r.2)
  | n + 1, 123 :: s =>
    match skip s with
    | 125 :: s => some (.obj [], s)
    | s => (members n s).map fun r => (.obj r.1, r.2)
  | _ + 1, s => scalar s

/-- The elements of an array from one on, and what follows its closing bracket. -/
def items : ℕ → Bytes → Option (List Val × Bytes)
  | 0, _ => none
  | n + 1, s =>
    (value n s).bind fun r =>
      match skip r.2 with
      | 44 :: s => (items n (skip s)).map fun t => (r.1 :: t.1, t.2)
      | 93 :: s => some ([r.1], s)
      | _ => none

/-- The members of an object from one on, and what follows its closing brace. -/
def members : ℕ → Bytes → Option (List (Key × Val) × Bytes)
  | 0, _ => none
  | n + 1, s =>
    (key s).bind fun k =>
      (value n (skip k.2)).bind fun r =>
        match skip r.2 with
        | 44 :: s => (members n (skip s)).map fun t => ((k.1, r.1) :: t.1, t.2)
        | 125 :: s => some ([(k.1, r.1)], s)
        | _ => none

end

variable {n : ℕ}

theorem value_array {b : UInt8} (h : skip s = b :: t) (hb : b ≠ 93) :
    value (n + 1) (91 :: s) = (items n (b :: t)).map fun r => (.arr r.1, r.2) := by
  rw [value, h]
  split
  · rename_i heq
    exact absurd (List.cons.inj heq).1 hb
  · rfl

theorem value_object {b : UInt8} (h : skip s = b :: t) (hb : b ≠ 125) :
    value (n + 1) (123 :: s) = (members n (b :: t)).map fun r => (.obj r.1, r.2) := by
  rw [value, h]
  split
  · rename_i heq
    exact absurd (List.cons.inj heq).1 hb
  · rfl

variable {v : Val}

theorem items_more (h : value n s = some (v, t)) (hskip : skip t = 44 :: u) :
    items (n + 1) s = (items n (skip u)).map fun r => (v :: r.1, r.2) := by
  show (value n s).bind _ = _
  rw [h, bind_some, hskip]
  rfl

theorem items_last (h : value n s = some (v, t)) (hskip : skip t = 93 :: u) : items (n + 1) s = some ([v], u) := by
  show (value n s).bind _ = _
  rw [h, bind_some, hskip]
  rfl

theorem members_more {s' : Bytes} {k : Key} (hkey : key s = some (k, s')) (h : value n (skip s') = some (v, t))
    (hskip : skip t = 44 :: u) :
    members (n + 1) s = (members n (skip u)).map fun r => ((k, v) :: r.1, r.2) := by
  show (key s).bind _ = _
  rw [hkey, bind_some, h, bind_some, hskip]
  rfl

theorem members_last {s' : Bytes} {k : Key} (hkey : key s = some (k, s')) (h : value n (skip s') = some (v, t))
    (hskip : skip t = 125 :: u) :
    members (n + 1) s = some ([(k, v)], u) := by
  show (key s).bind _ = _
  rw [hkey, bind_some, h, bind_some, hskip]
  rfl

/-- What a text says, its numbers as they are written. -/
def text (s : Bytes) : Option Val :=
  (value (2 * s.length + 1) (skip s)).bind fun r => if (skip r.2).isEmpty then some r.1 else none

example : (text (lit " [1.5e3, null] ")).isSome = true := by decide +kernel

end Cosmic.Json.Rfc

/-!
The texts of RFC 8259's numbers: what they hold, and what a reader of values makes of one.
-/

namespace Cosmic.Json

open Cosmic.Base

/-- What may follow a number: nothing, or a byte that no number holds. -/
def Ends (s : Bytes) : Prop := s.head?.all fun b => !Rfc.number_byte b

variable {b : UInt8}

theorem ends_cons (s : Bytes) (h : Rfc.number_byte b = false) : Ends (b :: s) := by
  rw [Ends, List.head?_cons, Option.all_some, h]
  rfl

/-- `s'` is what follows bytes of a number in `s`. -/
def Passes (s s' : Bytes) : Prop := ∃ w, s = w ++ s' ∧ ∀ b ∈ w, Rfc.number_byte b = true

theorem Passes.refl (s : Bytes) : Passes s s := ⟨[], rfl, by simp⟩

variable {s t : Bytes}

theorem Passes.trans {u : Bytes} (h : Passes s t) (h' : Passes t u) : Passes s u := by
  obtain ⟨w, rfl, hw⟩ := h
  obtain ⟨v, rfl, hv⟩ := h'
  refine ⟨w ++ v, (List.append_assoc _ _ _).symm, fun b hb => ?_⟩
  rcases List.mem_append.mp hb with hb | hb
  · exact hw b hb
  · exact hv b hb

theorem Passes.cons (hb : Rfc.number_byte b = true) (h : Passes s t) : Passes (b :: s) t :=
  Passes.trans ⟨[b], rfl, by simpa using hb⟩ h

theorem number_byte_digit (h : isDigit b = true) : Rfc.number_byte b = true := by
  simp [Rfc.number_byte, h]

theorem digit_of_nonzero (h : (49 ≤ b && b ≤ 57) = true) : isDigit b = true := by
  simp only [Bool.and_eq_true, decide_eq_true_iff] at h
  simp only [isDigit, Bool.and_eq_true, decide_eq_true_iff]
  exact ⟨UInt8.le_trans (by decide : (48 : UInt8) ≤ 49) h.1, h.2⟩

theorem passes_digits (s : Bytes) : Passes s (s.dropWhile isDigit) :=
  ⟨s.takeWhile isDigit, List.takeWhile_append_dropWhile.symm, fun _ hb => number_byte_digit (List.mem_takeWhile_imp hb)⟩

theorem passes_minus (s : Bytes) : Passes s (after_minus s) := by
  unfold after_minus
  split
  · exact .cons rfl (.refl _)
  · exact .refl _

theorem after_digits_passes (h : after_digits s = some t) : Passes s t := by
  unfold after_digits at h
  split_ifs at h
  cases h
  exact passes_digits s

theorem after_integral_passes (h : after_integral s = some t) : Passes s t := by
  rcases s with _ | ⟨c, s⟩
  · cases h
  rw [after_integral] at h
  split_ifs at h with hzero hdigit
  · cases h
    exact .cons (by rw [hzero]; rfl) (.refl _)
  · cases h
    exact .cons (number_byte_digit (digit_of_nonzero hdigit)) (passes_digits s)

theorem after_fraction_passes (h : after_fraction s = some t) : Passes s t := by
  unfold after_fraction at h
  split at h
  · exact .cons rfl (after_digits_passes h)
  · cases h
    exact .refl _

theorem after_exponent_passes (h : after_exponent s = some t) : Passes s t := by
  unfold after_exponent at h
  split at h
  · cases h
    exact .refl _
  rename_i c s
  by_cases hc : is_e c = true
  · rw [if_pos hc] at h
    have hbyte : Rfc.number_byte c = true := by
      rcases Bool.or_eq_true_iff.mp hc with hc | hc
      · rw [of_decide_eq_true hc]; rfl
      · rw [of_decide_eq_true hc]; rfl
    split at h
    · exact .cons hbyte (.cons rfl (after_digits_passes h))
    · exact .cons hbyte (.cons rfl (after_digits_passes h))
    · exact .cons hbyte (after_digits_passes h)
  · rw [if_neg hc] at h
    cases h
    exact .refl _

theorem number_bytes (h : is_json_number s = true) : ∀ b ∈ s, Rfc.number_byte b = true := by
  rw [is_json_number, decide_eq_true_iff] at h
  obtain ⟨t, h, hexponent⟩ := Option.bind_eq_some_iff.mp h
  obtain ⟨u, hintegral, hfraction⟩ := Option.bind_eq_some_iff.mp h
  have hpasses := (passes_minus s).trans ((after_integral_passes hintegral).trans
    ((after_fraction_passes hfraction).trans (after_exponent_passes hexponent)))
  obtain ⟨w, hw, hall⟩ := hpasses
  rw [List.append_nil] at hw
  rwa [hw]

/-- A number begins with a digit or a minus sign. -/
theorem number_head (h : is_json_number s = true) : ∃ b t, s = b :: t ∧ (isDigit b = true ∨ b = 45) := by
  rw [is_json_number, decide_eq_true_iff] at h
  obtain ⟨t, h, -⟩ := Option.bind_eq_some_iff.mp h
  obtain ⟨u, hintegral, -⟩ := Option.bind_eq_some_iff.mp h
  rcases s with _ | ⟨b, s⟩
  · cases hintegral
  refine ⟨b, s, rfl, ?_⟩
  by_cases hb : b = 45
  · exact .inr hb
  left
  have hsame : after_minus (b :: s) = b :: s := by
    unfold after_minus
    split
    · rename_i heq
      exact absurd (List.cons.inj heq).1 hb
    · rfl
  rw [hsame, after_integral] at hintegral
  split_ifs at hintegral with hzero hdigit
  · rw [hzero]
    rfl
  · exact digit_of_nonzero hdigit

/-- A number reads as its text. -/
theorem number_read {rest : Bytes} (h : is_json_number s = true) (hrest : Ends rest) :
    Rfc.number (s ++ rest) = some (.raw s, rest) := by
  have htake : (s ++ rest).takeWhile Rfc.number_byte = s := by
    rw [List.takeWhile_append_of_pos (number_bytes h)]
    rcases rest with _ | ⟨b, rest⟩
    · simp
    · rw [Ends, List.head?_cons, Option.all_some, Bool.not_eq_true'] at hrest
      rw [List.takeWhile_cons_of_neg (by simp [hrest]), List.append_nil]
  have hdrop : (s ++ rest).dropWhile Rfc.number_byte = rest := by
    rw [List.dropWhile_append_of_pos (number_bytes h)]
    rcases rest with _ | ⟨b, rest⟩
    · rfl
    · rw [Ends, List.head?_cons, Option.all_some, Bool.not_eq_true'] at hrest
      rw [List.dropWhile_cons_of_neg (by simp [hrest])]
  rw [Rfc.number, htake, hdrop, if_pos h]

end Cosmic.Json
