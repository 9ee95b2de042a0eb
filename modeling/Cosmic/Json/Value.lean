/-
What `core/json.c` reads: a document, as the values it holds, and the reader that makes one.

yyjson, which reads texts and writes numbers, is not modelled: `Yyjson` holds what it answers, and
what follows depends on nothing else of it. A double is its bits. A key knows where in the text it
stands, for a failure to say so.
-/
import Cosmic.Base.Parts

set_option autoImplicit false

namespace Cosmic.Json

open Cosmic.Base

structure Double where
  bits : UInt64
deriving DecidableEq

def Double.exponent (f : Double) : ℕ := f.bits.toNat / 2 ^ 52 % 2 ^ 11

/-- `isfinite` -/
def Double.isfinite (f : Double) : Bool := f.exponent ≠ 2 ^ 11 - 1

/-- `isnan` -/
def Double.isnan (f : Double) : Bool := f.exponent = 2 ^ 11 - 1 ∧ f.bits.toNat % 2 ^ 52 ≠ 0

/-- `f == 0`, of either sign. -/
def Double.is_zero (f : Double) : Bool := f.bits.toNat % 2 ^ 63 = 0

/-- `f < 0` of a number that is not zero. -/
def Double.negative (f : Double) : Bool := 2 ^ 63 ≤ f.bits.toNat

/-- `0` -/
def Double.zero : Double := ⟨0⟩

/-- A number as yyjson holds it, by its subtype. -/
inductive Number where
  | uint (n : ℕ)
  | sint (n : ℤ)
  | real (f : Double)
deriving DecidableEq

/-- A member's key: its bytes, and where in the text they start. -/
structure Key where
  start : ℕ
  text : Bytes
deriving DecidableEq

/-- A value of a document, by its type. -/
inductive Val where
  | null
  | bool (b : Bool)
  | raw (text : Bytes)
  | num (n : Number)
  | str (s : Bytes)
  | arr (items : List Val)
  | obj (members : List (Key × Val))

/-- What a read is told: the flags that `core/json.c` sets. -/
structure Flags where
  json5 : Bool
  hash_comments : Bool
  number_as_raw : Bool := false
  bignum_as_raw : Bool := false

/-- Why a read failed: `yyjson_read_err`, its codes those that `core/json.c` tells apart. -/
inductive ErrCode where
  | memory_allocation
  | empty_content
  | other
deriving DecidableEq

structure ReadErr where
  code : ErrCode
  pos : ℕ
  msg : Bytes
deriving DecidableEq

/-- What yyjson, and C's conversion of an integer to a double, answer. -/
structure Yyjson where
  /-- `yyjson_read_opts` -/
  read : Flags → Bytes → Except ReadErr Val
  /-- `yyjson_write_number`: nothing for a number JSON has no text for. -/
  write_number : Number → Option Bytes
  /-- `(double)n` -/
  of_integer : ℤ → Double

/-- `yyjson_get_num` -/
def Yyjson.get_num (y : Yyjson) : Number → Double
  | .uint n => y.of_integer n
  | .sint n => y.of_integer n
  | .real f => f

mutual

/-- A value without where its keys stand. -/
def Val.plain : Val → Val
  | .arr items => .arr (plain_items items)
  | .obj members => .obj (plain_members members)
  | v => v

def plain_items : List Val → List Val
  | [] => []
  | v :: vs => v.plain :: plain_items vs

def plain_members : List (Key × Val) → List (Key × Val)
  | [] => []
  | (k, v) :: ms => (⟨0, k.text⟩, v.plain) :: plain_members ms

end

/-- Neither an array nor an object. -/
def Val.is_scalar : Val → Bool
  | .arr _ => false
  | .obj _ => false
  | _ => true

mutual

/-- The scalars of a value, and each key as the string it is. -/
def Val.scalars : Val → List Val
  | .null => [.null]
  | .bool b => [.bool b]
  | .raw text => [.raw text]
  | .num n => [.num n]
  | .str s => [.str s]
  | .arr items => scalars_items items
  | .obj members => scalars_members members

def scalars_items : List Val → List Val
  | [] => []
  | v :: vs => v.scalars ++ scalars_items vs

def scalars_members : List (Key × Val) → List Val
  | [] => []
  | (key, v) :: ms => .str key.text :: (v.scalars ++ scalars_members ms)

end

/-!
Where in a value a failure is, as a JSON Pointer.

A walk that fails puts its own segment in front at each level it returns through, so the pointer is
whole once the walk is out. It is kept in 200 bytes: what does not fit is cut from the front, and of
an innermost key that does not fit alone its start is kept.
-/

/-- How many bytes a path has. -/
def PATH_SIZE : ℕ := 200

/-- The most bytes of a key that a path keeps when the key alone does not fit. -/
def KEPT_KEY : ℕ := 40

structure Path where
  text : Bytes := []
  cut : Bool := false
deriving DecidableEq

/-- Puts a segment in front, if there is room for it. -/
def prepend (p : Path) (segment : Bytes) : Path :=
  if p.cut || segment.length ≥ PATH_SIZE - p.text.length then { p with cut := true }
  else { p with text := segment ++ p.text }

/-- `/i`: an array's index, counted from 0. -/
def prepend_index (p : Path) (i : ℕ) : Path := prepend p (47 :: tostring i)

def pointer_byte (c : UInt8) : Bytes := if c = 126 then [126, 48] else if c = 47 then [126, 49] else [c]

/-- The start of a key that does not fit, `used` bytes being there: whole escapes and characters. -/
def kept_key : ℕ → ℕ → Bytes → Bytes
  | 0, _, _ => []
  | _, _, [] => []
  | n + 1, used, c :: s =>
    if used ≥ 1 + KEPT_KEY then []
    else if c = 126 || c = 47 then
      if used + 2 > 1 + KEPT_KEY then [] else pointer_byte c ++ kept_key n (used + 2) s
    else if c ≥ 0x80 && c &&& 0xc0 = 0xc0 then
      let width := if c ≥ 0xf0 then 4 else if c ≥ 0xe0 then 3 else 2
      if width > (c :: s).length || used + width > 1 + KEPT_KEY then []
      else (c :: s).take width ++ kept_key n (used + width) ((c :: s).drop width)
    else c :: kept_key n (used + 1) s

/-- `/key`, with `~` written `~0` and `/` written `~1`. -/
def prepend_key (p : Path) (s : Bytes) : Path :=
  let segment := 47 :: s.flatMap pointer_byte
  if p.text = [] && !p.cut && segment.length ≥ PATH_SIZE then
    { text := 47 :: kept_key s.length 1 s ++ lit "...", cut := true }
  else prepend p segment

/-- Four hexadecimal digits. -/
def hex4 (n : ℕ) : Bytes := List.replicate (4 - (hex n).length) 48 ++ hex n

def message_byte (c : UInt8) : Bytes :=
  if c = 34 || c = 92 then [92, c]
  else if c < 0x20 || c = 0x7f then 92 :: 117 :: hex4 c.toNat
  else [c]

def push_path (p : Path) : Bytes :=
  (if p.cut then lit "pointer ending \"" else lit "pointer \"") ++ p.text.flatMap message_byte ++ [34]

end Cosmic.Json
