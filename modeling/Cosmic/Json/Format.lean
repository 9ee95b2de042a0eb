/-
Reading a text as `core/json.c` does: the options, the messages, and `decode` and `check`.

A text is read whole by yyjson, and then walked. A message says where the text failed by line and
column; a problem of the walk's is placed there by looking at the text again.
-/
import Cosmic.Json.Text
import Cosmic.Json.Walk
import Mathlib.Data.List.Sort

set_option autoImplicit false

namespace Cosmic.Json

open Cosmic.Base

/-! ## Where a failure is -/

/-- How a text is laid out in lines, for a failure to say where it is. -/
structure Layout where
  json5 : Bool
  /-- 0 when the text is a whole, else the line of a larger one that it is. -/
  record : ℕ := 0
  line : ℕ := 1
  column : ℕ := 1

/-- The line and column after the bytes given, the first `skip` of them being told already. -/
def position_from (json5 : Bool) : ℕ → ℕ × ℕ → Bytes → ℕ × ℕ
  | _, place, [] => place
  | skip + 1, place, _ :: s => position_from json5 skip place s
  | 0, (line, column), c :: s =>
    if c = 13 && s.head? = some 10 then position_from json5 1 (line + 1, 1) s
    else if c = 0xe2 && json5 && (s.take 2 = [0x80, 0xa8] || s.take 2 = [0x80, 0xa9]) then
      position_from json5 2 (line + 1, 1) s
    else if c = 10 || c = 13 then position_from json5 0 (line + 1, 1) s
    else position_from json5 0 (line, column + 1) s

/-- The line and column of byte `pos` of `text`, both counted from 1. -/
def position (text : Bytes) (pos : ℕ) (layout : Layout) : ℕ × ℕ :=
  if layout.record > 0 then (layout.record, pos + 1)
  else position_from layout.json5 0 (layout.line, layout.column) (text.take pos)

/-- What follows a string's closing quote `c`; `skip` says that the next byte is escaped. -/
def after_string (c : UInt8) : Bool → Bytes → Bytes
  | _, [] => []
  | true, _ :: s => after_string c false s
  | false, b :: s => if b = c then s else after_string c (b = 92) s

/-- What a line comment leaves: the line end, and what follows it. -/
def after_line (json5 : Bool) : Bytes → Bytes
  | [] => []
  | b :: s =>
    if b = 10 || b = 13
        || (json5 && b = 0xe2 && (s.take 2 = [0x80, 0xa8] || s.take 2 = [0x80, 0xa9])) then b :: s
    else after_line json5 s

/-- What follows a block comment, its opening being passed. -/
def after_block : Bytes → Bytes
  | [] => []
  | a :: s => if a = 42 && s.head? = some 47 then s.drop 1 else after_block s

/-- How many bytes of the text are left at the bracket that opens with `max_depth` others open. -/
def deep_left (max_depth : ℕ) (json5 : Bool) : ℕ → ℤ → Bytes → ℕ
  | 0, _, _ => 0
  | _, _, [] => 0
  | n + 1, opened, c :: s =>
    if c = 34 || c = 39 then deep_left max_depth json5 n opened (after_string c false s)
    else if c = 35 || (c = 47 && s.head? = some 47) then
      deep_left max_depth json5 n opened ((after_line json5 (c :: s)).drop 1)
    else if c = 47 && s.head? = some 42 then
      deep_left max_depth json5 n opened (after_block (s.drop 1))
    else if c = 91 || c = 123 then
      if opened ≥ max_depth then (c :: s).length else deep_left max_depth json5 n (opened + 1) s
    else if c = 93 || c = 125 then deep_left max_depth json5 n (opened - 1) s
    else deep_left max_depth json5 n opened s

/-- The offset of the first array or object in `text` that opens with `max_depth` others open. -/
def deep_offset (text : Bytes) (max_depth : ℕ) (json5 : Bool) : ℕ :=
  text.length - deep_left max_depth json5 text.length 0 text

/-! ## Messages -/

/-- `at line L, column C` -/
def at_position (place : ℕ × ℕ) : Bytes := lit "at line " ++ tostring place.1 ++ lit ", column " ++ tostring place.2

/-- Where `text` stopped being JSON. -/
def read_failure (text : Bytes) (layout : Layout) (err : ReadErr) : Bytes :=
  if err.code = .memory_allocation then
    if layout.record > 0 then lit "line " ++ tostring layout.record ++ lit ": out of memory"
    else lit "out of memory"
  else if text = [] || err.code = .empty_content then
    if layout.record > 0 then
      lit "invalid JSON at line " ++ tostring layout.record ++ lit ": the line holds no value"
    else lit "invalid JSON: the text is empty"
  else
    lit "invalid JSON " ++ at_position (position text (min err.pos text.length) layout) ++ lit ": " ++ err.msg

/-- That `key` repeats a key of its object at `path`. -/
def repeat_failure (text : Bytes) (layout : Layout) (key : Key) (path : Path) : Bytes :=
  let pos := key.start
  let before := text[pos - 1]?
  let pos := if pos > 0 && pos ≤ text.length && (before = some 34 || before = some 39) then pos - 1 else pos
  lit "duplicate key " ++ at_position (position text (min pos text.length) layout)
    ++ lit " (" ++ push_path path ++ lit ")"

/-- That the array or object at `path` nests deeper than `max_depth`. -/
def deep_failure (text : Bytes) (layout : Layout) (max_depth opened : ℕ) (path : Path) : Bytes :=
  lit "JSON nests deeper than " ++ tostring max_depth ++ lit " level"
    ++ (if max_depth = 1 then [] else lit "s") ++ [32]
    ++ at_position (position text (deep_offset text (max_depth - opened) layout.json5) layout)
    ++ lit " (" ++ push_path path ++ lit ")"

/-! ## Lone surrogates -/

/-- The value of the four hex digits that `s` begins with. -/
def hex4_of (s : Bytes) : Option ℕ :=
  if s.length ≥ 4 && (s.take 4).all isHex then some (digits_value 16 (s.take 4)) else none

/-- Whether a surrogate pair's second escape begins `s`. -/
def low_follows (s : Bytes) : Bool :=
  s.length ≥ 6 && s.take 2 = [92, 117] && (hex4_of (s.drop 2)).any fun low => 0xdc00 ≤ low && low ≤ 0xdfff

/-- Writes each lone surrogate escape over with `\ufffd`; and how many it wrote. -/
def repair_surrogates : ℕ → Bytes → Bytes × ℕ
  | 0, s => (s, 0)
  | _, [] => ([], 0)
  | n + 1, c :: s =>
    -- the bytes passed as they are
    let keep (k : ℕ) : Bytes × ℕ :=
      let (t, count) := repair_surrogates n ((c :: s).drop k)
      ((c :: s).take k ++ t, count)
    if c ≠ 92 || s = [] then keep 1
    else if s.head? ≠ some 117 || (c :: s).length < 6 then keep 2
    else
      match hex4_of (s.drop 1) with
      | none => keep 2
      | some unit =>
        if unit < 0xd800 || unit > 0xdfff then keep 2
        else if unit ≤ 0xdbff && low_follows ((c :: s).drop 6) then keep 12
        else
          let (t, count) := repair_surrogates n ((c :: s).drop 6)
          (lit "\\ufffd" ++ t, count + 1)

/-! ## Reading -/

/-- How many arrays and objects may nest: what `checked_depth` lets through. -/
structure Depth where
  n : ℕ := 64
  low : 1 ≤ n := by decide
  high : n ≤ 1000 := by decide

/-- What a read of a text is told. -/
structure Reading where
  layout : Layout
  flags : Flags
  lone_surrogates : Bool
  duplicate_keys : Bool
  max_depth : Depth

/-- A document, and the text it was read from, which was repaired if it held lone surrogates. -/
structure Doc where
  text : Bytes
  root : Val

/-- Reads `text` into a document, or says why it is none. -/
def read_doc (y : Yyjson) (r : Reading) (text : Bytes) : Except Bytes Doc :=
  match y.read r.flags text with
  | .ok root => .ok ⟨text, root⟩
  | .error err =>
    if r.lone_surrogates && (index_of (lit "surrogate") err.msg).isSome then
      let (copy, count) := repair_surrogates text.length text
      if count > 0 then
        match y.read r.flags copy with
        | .ok root => .ok ⟨copy, root⟩
        | .error err => .error (read_failure copy r.layout err)
      else .error (read_failure text r.layout err)
    else .error (read_failure text r.layout err)

def problem_failure (r : Reading) (doc : Doc) (found : Found) : Bytes :=
  match found.problem, found.repeated with
  | .repeated_key, some key => repeat_failure doc.text r.layout key found.path
  | _, _ => deep_failure doc.text r.layout r.max_depth.n 0 found.path

/-- Reads `text` into a document in which the walk finds nothing. -/
def read_text (y : Yyjson) (r : Reading) (text : Bytes) : Except Bytes Doc :=
  match read_doc y r text with
  | .error message => .error message
  | .ok doc =>
    match first_problem r.max_depth.n r.duplicate_keys 0 doc.root with
    | some found => .error (problem_failure r doc found)
    | none => .ok doc

/-- What every read may be told. -/
structure Options where
  max_depth : Depth := {}
  json5 : Bool := false
  lone_surrogates : Bool := false
  hash_comments : Bool := false
  duplicate_keys : Bool := false

def Options.reading (o : Options) : Reading where
  layout := { json5 := o.json5 }
  flags := { json5 := o.json5, hash_comments := o.hash_comments }
  lone_surrogates := o.lone_surrogates
  duplicate_keys := o.duplicate_keys
  max_depth := o.max_depth

def Reading.big (r : Reading) (big_as_string : Bool) : Reading :=
  { r with flags := { r.flags with bignum_as_raw := big_as_string } }

/-- `decode(text, null?, max_depth?, json5?, big_as_string?, lone_surrogates?, ...)` -/
def json_decode (y : Yyjson) (o : Options) (null : Option Lua) (big_as_string : Bool) (text : Bytes) :
    Except Bytes Lua :=
  let r := o.reading.big big_as_string
  match read_doc y r text with
  | .error message => .error message
  | .ok doc =>
    match push_value y ⟨null, o.max_depth.n, big_as_string, o.duplicate_keys⟩ 0 doc.root with
    | .error found => .error (problem_failure r doc found)
    | .ok v => .ok v

/-- `check(text, max_depth?, json5?, ..., big_as_string?)`: why `decode` would fail, if it would. -/
def json_check (y : Yyjson) (o : Options) (big_as_string : Bool) (text : Bytes) : Except Bytes Unit :=
  (read_text y (o.reading.big big_as_string) text).map fun _ => ()

/-!
Writing a document again: `put_text_value`, and the two forms a text is given, `format`'s and RFC
8785's.

In `format`'s form members keep the text's order and numbers their text; in the canonical form
members are sorted by their keys' UTF-16 units and numbers are written as ECMAScript writes them.
-/

def Failure.at_index (e : Failure) (idx : ℕ) : Failure := { e with path := prepend_index e.path idx }

def Failure.at_key (e : Failure) (key : Key) : Failure := { e with path := prepend_key e.path key.text }

/-- How a document is written. -/
structure Form where
  pretty : Bool
  canonical : Bool

/-- A member of an object as it is written: its key, and what writing its value answered. -/
abbrev Written : Type := Key × Except Failure Bytes

def compare_members (x y : Written) : ℤ := compare_utf16 x.1.text y.1.text

/-- The elements of an array from `idx` on, between its brackets. -/
def put_elements (pretty : Bool) (depth : ℕ) : ℕ → List (Except Failure Bytes) → Except Failure Bytes
  | _, [] => .ok []
  | idx, item :: items =>
    match item with
    | .error e => .error (e.at_index idx)
    | .ok text =>
      (put_elements pretty depth (idx + 1) items).map fun rest =>
        (if idx > 0 then [44] else []) ++ put_break pretty (depth + 1) ++ text ++ rest

def put_text_member (pretty : Bool) (depth : ℕ) (first : Bool) (member : Written) : Except Failure Bytes :=
  match put_string false member.1.text with
  | .error e => .error e
  | .ok key =>
    match member.2 with
    | .error e => .error (e.at_key member.1)
    | .ok text =>
      .ok ((if first then [] else [44]) ++ put_break pretty (depth + 1) ++ key ++ [58]
        ++ (if pretty then [32] else []) ++ text)

/-- The members of an object, between its braces. -/
def put_members (pretty : Bool) (depth : ℕ) : Bool → List Written → Except Failure Bytes
  | _, [] => .ok []
  | first, member :: members =>
    match put_text_member pretty depth first member with
    | .error e => .error e
    | .ok text => (put_members pretty depth false members).map fun rest => text ++ rest

def put_number (y : Yyjson) (n : Number) : Except Failure Bytes :=
  let f := y.get_num n
  if !f.isfinite then .error { why := refuse_number f } else put_canonical_number y f

mutual

/-- `val` written again, at a depth. -/
def put_text_value (y : Yyjson) (form : Form) (depth : ℕ) : Val → Except Failure Bytes
  | .null => .ok (lit "null")
  | .bool b => .ok (if b then lit "true" else lit "false")
  | .raw text => put_raw_number y text
  | .num n => put_number y n
  | .str s => put_string false s
  | .arr items =>
    if items.isEmpty then .ok (lit "[]")
    else
      (put_elements form.pretty depth 0 (put_text_items y form depth items)).map fun text =>
        91 :: text ++ put_break form.pretty depth ++ [93]
  | .obj members =>
    if members.isEmpty then .ok (lit "\x7b\x7d")
    else
      -- each value is written before the members are put in order, which looks at the keys alone
      let written := put_text_members y form depth members
      let written := if form.canonical then written.insertionSort (fun x y => compare_members x y ≤ 0) else written
      (put_members form.pretty depth true written).map fun text =>
        123 :: text ++ put_break form.pretty depth ++ [125]

/-- The elements of an array, each written by itself. -/
def put_text_items (y : Yyjson) (form : Form) (depth : ℕ) : List Val → List (Except Failure Bytes)
  | [] => []
  | item :: items => put_text_value y form (depth + 1) item :: put_text_items y form depth items

def put_text_members (y : Yyjson) (form : Form) (depth : ℕ) : List (Key × Val) → List Written
  | [] => []
  | (key, item) :: members =>
    (key, put_text_value y form (depth + 1) item) :: put_text_members y form depth members

end

def format_failure (e : Failure) : Bytes :=
  if e.path.text = [] || e.out_of_memory then e.why else e.why ++ lit " at " ++ push_path e.path

/-- The document that `format` writes: read as decode reads it, then again keeping each number's text. -/
def format_doc (y : Yyjson) (o : Options) (canonical : Bool) (text : Bytes) : Except Bytes Doc :=
  match read_text y o.reading text with
  | .error message => .error message
  | .ok doc =>
    if canonical then .ok doc
    else read_doc y { o.reading with flags := { o.reading.flags with number_as_raw := true } } doc.text

/-- `format(text, max_depth?, json5?, ..., pretty?, canonical?)` -/
def json_format (y : Yyjson) (o : Options) (pretty canonical : Bool) (text : Bytes) : Except Bytes Bytes :=
  match format_doc y o canonical text with
  | .error message => .error message
  | .ok doc =>
    match put_text_value y ⟨!canonical && pretty, canonical⟩ 0 doc.root with
    | .error e => .error (format_failure e)
    | .ok out => .ok out

/-- `Json.canonical`: a key twice is always refused. -/
def canonical (y : Yyjson) (o : Options) (text : Bytes) : Except Bytes Bytes :=
  json_format y { o with duplicate_keys := false } false true text

end Cosmic.Json
