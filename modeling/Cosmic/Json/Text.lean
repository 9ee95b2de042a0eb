/-
Strings and numbers as `core/json.c` writes them.

What the C code appends to its buffer is what a function here answers. A failure says why, and, once
a walk has returned through the levels above it, where.
-/
import Cosmic.Json.Value
import Cosmic.Json.Utf

set_option autoImplicit false

namespace Cosmic.Json

open Cosmic.Base

/-- Why a value cannot be written, and where. -/
structure Failure where
  why : Bytes
  path : Path := {}
  out_of_memory : Bool := false
deriving DecidableEq

/-- A newline and `depth` levels of indentation, when laying out. -/
def put_break (pretty : Bool) (depth : ℕ) : Bytes :=
  if pretty then 10 :: List.replicate (2 * depth) 32 else []

/-! ## Strings -/

/-- The escape of an ASCII character that a string does not hold as it is. -/
def escape_of (c : UInt8) : Bytes :=
  if c = 34 then [92, 34]
  else if c = 92 then [92, 92]
  else if c = 8 then [92, 98]
  else if c = 12 then [92, 102]
  else if c = 10 then [92, 110]
  else if c = 13 then [92, 114]
  else if c = 9 then [92, 116]
  else lit "\\u00" ++ hex (c.toNat / 16) ++ hex (c.toNat % 16)

/-- `\uXXXX` -/
def unit_escape (n : ℕ) : Bytes := 92 :: 117 :: hex4 n

def point_escape (code : ℕ) : Bytes :=
  if code ≥ 0x10000 then
    unit_escape (0xd800 + ((code - 0x10000) >>> 10)) ++ unit_escape (0xdc00 + ((code - 0x10000) &&& 0x3ff))
  else unit_escape code

/-- The bytes of a string between its quotes, the first `skip` of `s` being told already. -/
def put_bytes (ascii : Bool) : ℕ → Bytes → Bytes
  | _, [] => []
  | skip + 1, _ :: s => put_bytes ascii skip s
  | 0, c :: s =>
    if ascii && c ≥ 0x80 then
      let extra := if c ≥ 0xf0 then 3 else if c ≥ 0xe0 then 2 else 1
      let code := (s.take extra).foldl (fun code b => code <<< 6 ||| (b.toNat &&& 0x3f))
        (c.toNat &&& (0x3f >>> extra))
      point_escape code ++ put_bytes ascii extra s
    else if c ≥ 0x20 && c ≠ 34 && c ≠ 92 then c :: put_bytes ascii 0 s
    else escape_of c ++ put_bytes ascii 0 s

def put_string (ascii : Bool) (s : Bytes) : Except Failure Bytes :=
  if !is_utf8 s then .error { why := lit "cannot encode a string that is not UTF-8" }
  else .ok (34 :: put_bytes ascii 0 s ++ [34])

/-! ## Numbers -/

/-- What follows the integral part of a number, its sign being passed. -/
def after_integral : Bytes → Option Bytes
  | [] => none
  | c :: s =>
    if c = 48 then some s
    else if 49 ≤ c && c ≤ 57 then some (s.dropWhile isDigit)
    else none

/-- What follows a run of digits, which may not be empty. -/
def after_digits (s : Bytes) : Option Bytes :=
  if (s.takeWhile isDigit).isEmpty then none else some (s.dropWhile isDigit)

def after_fraction : Bytes → Option Bytes
  | 46 :: s => after_digits s
  | s => some s

/-- Whether a byte starts an exponent. -/
def is_e (c : UInt8) : Bool := c = 101 || c = 69

def after_exponent : Bytes → Option Bytes
  | [] => some []
  | c :: s =>
    if is_e c then
      match s with
      | 43 :: s => after_digits s
      | 45 :: s => after_digits s
      | s => after_digits s
    else some (c :: s)

/-- What follows a minus sign, if there is one. -/
def after_minus : Bytes → Bytes
  | 45 :: s => s
  | s => s

/-- Whether `s` is a number as RFC 8259 writes one. -/
def is_json_number (s : Bytes) : Bool :=
  ((after_integral (after_minus s)).bind after_fraction).bind after_exponent = some []

/-- A number's sign as RFC 8259 writes it, and the text after it. -/
def raw_sign : Bytes → Bytes × Bytes
  | 43 :: s => ([], s)
  | 45 :: s => ([45], s)
  | s => ([], s)

/-- A decimal number of JSON5 with the digits that RFC 8259 wants about its point. -/
def raw_digits (s : Bytes) : Bytes :=
  let zero := if s.head? = some 46 then [48] else []
  let whole := s.takeWhile (· ≠ 46)
  match s.dropWhile (· ≠ 46) with
  | 46 :: after =>
    if after = [] || after.head? = some 101 || after.head? = some 69 then
      zero ++ whole ++ lit ".0" ++ after
    else zero ++ s
  | _ => zero ++ s

/-- How a number that JSON has no text for is refused. -/
def refuse_number (f : Double) : Bytes :=
  if f.isnan then lit "cannot format NaN" else lit "cannot format an infinite number"

/-- A number read as its text: as written when RFC 8259 writes it so. -/
def put_raw_number (y : Yyjson) (s : Bytes) : Except Failure Bytes :=
  if is_json_number s then .ok s
  else
    let out := (raw_sign s).1 ++ raw_digits (raw_sign s).2
    if is_json_number out then .ok out
    else
      match y.read { json5 := true, hash_comments := false } s with
      | .error err =>
        if err.code = .memory_allocation then .error { why := lit "out of memory", out_of_memory := true }
        else .error { why := lit "cannot format a number" }
      | .ok (.num n) =>
        if (y.get_num n).isfinite then
          match y.write_number n with
          | some text => .ok text
          | none => .error { why := lit "cannot format an infinite number" }
        else .error { why := refuse_number (y.get_num n) }
      | .ok _ => .error { why := lit "cannot format an infinite number" }

/-! ## Canonical numbers -/

/-- What the loop over another writer's text has found: the digits from the first that is not zero, and
where the point stands before them. -/
structure Recovered where
  digits : Bytes := []
  point : ℤ := 0
  seen_point : Bool := false

/-- How many digits are kept. -/
def DIGITS_SIZE : ℕ := 24

/-- One character of the text. -/
def recover_step (r : Recovered) (c : UInt8) : Recovered :=
  if c = 46 then { r with seen_point := true }
  else if r.digits = [] && c = 48 then { r with point := if r.seen_point then r.point - 1 else r.point }
  else
    { r with
      digits := if r.digits.length < DIGITS_SIZE then r.digits ++ [c] else r.digits
      point := if r.seen_point then r.point else r.point + 1 }

/-- `atoi` -/
def atoi : Bytes → ℤ
  | 45 :: s => -(digits_value 10 (s.takeWhile isDigit) : ℤ)
  | 43 :: s => digits_value 10 (s.takeWhile isDigit)
  | s => digits_value 10 (s.takeWhile isDigit)

/-- The digits of a text, whatever its layout, and the point: the number is 0.<digits> times ten to it. -/
def recover (text : Bytes) : Bytes × ℤ :=
  let text := after_minus text
  let r := (text.takeWhile fun c => !is_e c).foldl recover_step {}
  let point := match text.dropWhile fun c => !is_e c with
    | _ :: s => r.point + atoi s
    | [] => r.point
  (r.digits, point)

/-- Digits without the zeros they end in, but for the first. -/
def trim_zeros (digits : Bytes) : Bytes := digits.take 1 ++ ((digits.drop 1).reverse.dropWhile (· = 48)).reverse

/-- A number's digits and point as ECMAScript lays them out, after its sign. -/
def lay_out (digits : Bytes) (point : ℤ) : Bytes :=
  let count := digits.length
  if point ≥ count && point ≤ 21 then digits ++ List.replicate (point.toNat - count) 48
  else if point > 0 && point ≤ 21 then
    digits.take point.toNat ++ [46] ++ digits.drop point.toNat
  else if point > -6 && point ≤ 0 then lit "0." ++ List.replicate (-point).toNat 48 ++ digits
  else
    digits.take 1 ++ (if count > 1 then 46 :: digits.drop 1 else [])
      ++ [101, if point - 1 < 0 then 45 else 43] ++ tostring (point - 1).natAbs

/-- `f` as ECMAScript's Number.prototype.toString writes it. `f` is finite. -/
def put_canonical_number (y : Yyjson) (f : Double) : Except Failure Bytes :=
  if f.is_zero then .ok [48]
  else
    match y.write_number (.real f) with
    | none => .error { why := lit "cannot format a number" }
    | some shortest =>
      let (digits, point) := recover shortest
      if digits = [] then .error { why := lit "cannot format a number" }
      else .ok ((if f.negative then [45] else []) ++ lay_out (trim_zeros digits) point)

end Cosmic.Json
