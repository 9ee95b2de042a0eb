/-
CSV text, read into records and written from them.

A reader's place in a text is what is left of it and where that begins; every other value is what
the source computes.
-/
import Cosmic.Base.Search

set_option autoImplicit false

namespace Cosmic.Csv

open Cosmic.Base

/-! ## Options -/

/-- What `encode` ends a record with. -/
inductive LineEnd where
  | lf
  | crlf
deriving DecidableEq, Repr

def LineEnd.text : LineEnd → Bytes
  | .lf => [10]
  | .crlf => [13, 10]

structure Options where
  delimiter : Option Bytes := none
  line_end : Option LineEnd := none
deriving DecidableEq, Repr

/-- What `encode_field` may be told. -/
structure FieldOptions where
  delimiter : Option Bytes := none
  quote_empty : Bool := false
deriving DecidableEq, Repr

/-- The byte order mark of UTF-8. -/
def BOM : Bytes := [0xEF, 0xBB, 0xBF]

def refuse (why : Bytes) : Bytes := lit "csv: " ++ why

def delimiter_of : Option Bytes → Except Bytes UInt8
  | none => .ok 44
  | some [b] =>
    if b = 34 ∨ b = 13 ∨ b = 10 then .error (lit "csv: the delimiter cannot be a quote or a line break")
    else .ok b
  | some named =>
    .error (lit "csv: the delimiter is one byte, not a string of length " ++ tostring named.length)

def at_place (line column : ℕ) : Bytes := lit "line " ++ tostring line ++ lit ", column " ++ tostring column

/-! ## The reader -/

/-- What `read` found: the records, and the line each began on. -/
structure Scan where
  records : List (List Bytes)
  lines : List ℕ
deriving DecidableEq, Repr

/-- Where a reader is: what is left of the text, the position that begins at, its line, and the
position that line began at. -/
structure Place where
  rest : Bytes
  pos : ℕ
  line : ℕ
  line_start : ℕ
deriving DecidableEq, Repr

/-- What follows a field: another one, the end of the text, or the end of the line. -/
inductive After where
  | more
  | ended
  | broke
deriving DecidableEq, Repr

/-- The value of a quoted field from after its opening quote, and how many bytes it is written in,
the closing quote with them. `none` where no quote closes it. -/
def closed : Bytes → Option (Bytes × ℕ)
  | [] => none
  | b :: s =>
    if b = 34 then
      match s with
      | c :: s' => if c = 34 then (closed s').map (fun (value, n) => (34 :: value, n + 2)) else some ([], 1)
      | [] => some ([], 1)
    else (closed s).map (fun (value, n) => (b :: value, n + 1))

/-- The place past `skipped`, the text of a quoted field: each line break in it begins a line. -/
def past (p : Place) (skipped : Bytes) : Place :=
  { rest := p.rest.drop skipped.length
    pos := p.pos + skipped.length
    line := p.line + skipped.count 10
    line_start :=
      if skipped.contains 10 then p.pos + (skipped.length - (skipped.reverse.takeWhile (· != 10)).length) else p.line_start }

/-- The place `n` bytes on, in the same line. -/
def Place.skip (p : Place) (n : ℕ) : Place := { p with rest := p.rest.drop n, pos := p.pos + n }

def quoted_field (delimiter : UInt8) (p : Place) : Except Bytes (Bytes × After × Place) :=
  match closed (p.rest.drop 1) with
  | none => .error (refuse (lit "unclosed quote opened at " ++ at_place p.line (p.pos - p.line_start + 1)))
  | some (value, n) =>
    let p := past p (p.rest.take (n + 1))
    match p.rest with
    | [] => .ok (value, .ended, p)
    | b :: s =>
      if b = delimiter then .ok (value, .more, p.skip 1)
      else if b = 10 then .ok (value, .broke, p.skip 1)
      else if b = 13 ∧ s.head? = some 10 then .ok (value, .broke, p.skip 2)
      else .error (refuse (lit "after a closing quote, expected the delimiter or the end of the line at " ++
        at_place p.line (p.pos - p.line_start + 1)))

/-- The bytes that end an unquoted field. -/
def stops (delimiter b : UInt8) : Bool := b == delimiter || b == 10 || b == 34

def plain_field (delimiter : UInt8) (p : Place) : Except Bytes (Bytes × After × Place) :=
  let value := p.rest.takeWhile (fun b => !stops delimiter b)
  match p.rest.drop value.length with
  | [] => .ok (value, .ended, p.skip value.length)
  | found :: _ =>
    if found = 34 then
      .error (refuse (lit "a quote inside an unquoted field at " ++ at_place p.line (p.pos + value.length - p.line_start + 1)))
    else if found = 10 then
      .ok (if value.getLast? = some 13 then value.dropLast else value, .broke, p.skip (value.length + 1))
    else .ok (value, .more, p.skip (value.length + 1))

def field (delimiter : UInt8) (p : Place) : Except Bytes (Bytes × After × Place) :=
  if p.rest.head? = some 34 then quoted_field delimiter p else plain_field delimiter p

/-- The fields of a record, whether a line break ended it, and the place after. -/
def fields (delimiter : UInt8) : ℕ → Place → Except Bytes (List Bytes × Bool × Place)
  | 0, p => .ok ([], false, p)
  | fuel + 1, p =>
    match field delimiter p with
    | .error why => .error why
    | .ok (value, .more, p') =>
      match fields delimiter fuel p' with
      | .error why => .error why
      | .ok (values, broke, p'') => .ok (value :: values, broke, p'')
    | .ok (value, .ended, p') => .ok ([value], false, p')
    | .ok (value, .broke, p') => .ok ([value], true, p')

def Place.next_line (p : Place) : Place := { p with line := p.line + 1, line_start := p.pos }

/-- How many bytes the blank line at the start of `s` is, if there is one. -/
def blank : Bytes → Option ℕ
  | [] => none
  | b :: s => if b = 10 then some 1 else if b = 13 ∧ s.head? = some 10 then some 2 else none

def records_from (delimiter : UInt8) : ℕ → Place → Except Bytes Scan
  | 0, _ => .ok { records := [], lines := [] }
  | fuel + 1, p =>
    if p.rest = [] then .ok { records := [], lines := [] }
    else
      match blank p.rest with
      | some n =>
        match records_from delimiter fuel (p.skip n).next_line with
        | .error why => .error why
        | .ok scan => .ok { records := [] :: scan.records, lines := p.line :: scan.lines }
      | none =>
        match fields delimiter (p.rest.length + 1) p with
        | .error why => .error why
        | .ok (values, broke, p') =>
          match records_from delimiter fuel (if broke then p'.next_line else p') with
          | .error why => .error why
          | .ok scan => .ok { records := values :: scan.records, lines := p.line :: scan.lines }

/-- The records of `text` and the line each began on, or why not. -/
def read (text : Bytes) (delimiter : UInt8) : Except Bytes Scan :=
  let pos := if text.take 3 = BOM then 4 else 1
  records_from delimiter (text.length + 1) { rest := text.drop (pos - 1), pos, line := 1, line_start := pos }

/-- A record `records` read: its fields and the line it began on. -/
structure Record where
  fields : List Bytes
  line : ℕ
deriving DecidableEq, Repr

/-- The records of `text` with the line each began on, blank lines left out. -/
def located (text : Bytes) (delimiter : UInt8) : Except Bytes (List Record) :=
  match read text delimiter with
  | .error why => .error why
  | .ok scan =>
    .ok (((scan.records.zip scan.lines).filter (fun (record, _) => record.length > 0)).map
      fun (record, line) => { fields := record, line })

/-- The records of `text`, each a list of its fields. -/
def parse (text : Bytes) (opts : Options) : Except Bytes (List (List Bytes)) :=
  match delimiter_of opts.delimiter with
  | .error why => .error why
  | .ok delimiter =>
    match located text delimiter with
    | .error why => .error why
    | .ok found => .ok (found.map (·.fields))

/-! ## The writer -/

def doubled (s : Bytes) : Bytes := s.flatMap fun b => if b = 34 then [34, 34] else [b]

/-- `field` in quotes, each quote doubled, when it needs them, else as it is. -/
def quoted (field : Bytes) (delimiter : UInt8) (quote_empty : Bool) : Bytes :=
  if field.contains delimiter ∨ (field.any fun b => b == 34 || b == 13 || b == 10) ∨ field.take 3 = BOM ∨
      (quote_empty ∧ field = []) then
    34 :: doubled field ++ [34]
  else field

/-- `field` as `encode` writes it. -/
def encode_field (field : Bytes) (opts : FieldOptions) : Except Bytes Bytes :=
  match delimiter_of opts.delimiter with
  | .error why => .error why
  | .ok delimiter => .ok (quoted field delimiter opts.quote_empty)

/-- Texts with `delimiter` between them. -/
def joined (delimiter : UInt8) : List Bytes → Bytes
  | [] => []
  | [w] => w
  | w :: ws => w ++ delimiter :: joined delimiter ws

/-- The lines of the records from `number` on. -/
def encode_lines (delimiter : UInt8) (line_end : Bytes) : ℕ → List (List Bytes) → Except Bytes (List Bytes)
  | _, [] => .ok []
  | number, record :: records =>
    if record.length = 0 then
      .error (lit "csv: record " ++ tostring number ++ lit " has no fields, which CSV cannot hold")
    else
      match encode_lines delimiter line_end (number + 1) records with
      | .error why => .error why
      | .ok lines =>
        .ok ((joined delimiter (record.map fun field => quoted field delimiter (record.length == 1)) ++ line_end)
          :: lines)

/-- `records` as CSV text. -/
def encode (records : List (List Bytes)) (opts : Options) : Except Bytes Bytes :=
  match delimiter_of opts.delimiter with
  | .error why => .error why
  | .ok delimiter =>
    match encode_lines delimiter (opts.line_end.getD .lf).text 1 records with
    | .error why => .error why
    | .ok lines => .ok lines.flatten

end Cosmic.Csv
