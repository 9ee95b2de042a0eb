/-
`lang/lexer.tl`: the tokens, comments and errors of a source.

Positions are byte offsets from 1. Each branch of `Lexer.lex` reads one token, one comment, one
run of blanks or one line break at `pos` and says where it ends; the foot of the loop makes the
token. A branch is a function of its own here, `none` where the source would raise (a failed
`assert`, `string.char` past 255), and the loops are bounded by the length of the text.
-/
import Cosmic.Base.Loop
import Cosmic.Base.Numeral
import Cosmic.Base.Table

set_option autoImplicit false

namespace Cosmic.Lexer

open Cosmic.Base

/-! ## Tokens, comments and errors -/

inductive Kind where
  | identifier
  | keyword
  | op
  | string
  | integer
  | number
  | lparen
  | rparen
  | lbrace
  | rbrace
  | lbracket
  | rbracket
  | comma
  | colon
  | dot
  | question
  | ellipsis
  | err
  | eof
  deriving DecidableEq, Repr

inductive Code where
  | label_or_goto
  | semicolon
  | long_comment
  | unterminated_long_comment
  | digit_separator
  | hex_float
  | malformed_number
  | unterminated_string
  | unterminated_long_string
  | bad_escape
  | stray_byte
  deriving DecidableEq, Repr

structure Comment where
  text : Bytes
  offset : ℕ
  length : ℕ
  y : ℕ
  x : ℕ

/-- The tokens of a source: parallel arrays, and what few tokens have by token number (from 1). -/
structure Tokens (F : Type) where
  kind : List Kind := []
  text : List Bytes := []
  offset : List ℕ := []
  y : List ℕ := []
  /-- The offset of the first byte of each line. -/
  line : List ℕ := []
  yend : Table ℕ ℕ := ∅
  xend : Table ℕ ℕ := ∅
  value : Table ℕ Bytes := ∅
  number : Table ℕ (Number F) := ∅
  comments : Table ℕ (List Comment) := ∅

structure Error where
  filename : Bytes
  code : Code
  msg : Bytes
  fix : Bytes
  y : ℕ
  x : ℕ
  offset : ℕ
  length : ℕ

structure Lexed (F : Type) where
  tokens : Tokens F
  errors : List Error

/-! ## What a byte begins -/

/-- What a byte begins; a byte of no class is looked at singly. -/
inductive Class where
  | name
  | blank
  | line_break
  | one
  | digit
  | quote
  | operator
  | dash
  | dot
  | colon
  | bracket
  deriving DecidableEq

def one_kind (b : UInt8) : Option Kind :=
  if b == 40 then some .lparen
  else if b == 41 then some .rparen
  else if b == 123 then some .lbrace
  else if b == 125 then some .rbrace
  else if b == 93 then some .rbracket
  else if b == 44 then some .comma
  else if b == 63 then some .question
  -- `#`, `+`, `*`, `%`, `^`, `&` and `|`
  else if b == 35 || b == 43 || b == 42 || b == 37 || b == 94 || b == 38 || b == 124 then some .op
  else none

/-- The bytes that begin an operator of one byte or two: `=`, `~`, `<`, `>` and `/`. -/
def begins_operator (b : UInt8) : Bool := b == 61 || b == 126 || b == 60 || b == 62 || b == 47

/-- Whether `next` makes the operator that begins with `b` one of two bytes. -/
def second (b next : UInt8) : Bool :=
  (b == 61 && next == 61) || (b == 126 && next == 61) || (b == 60 && (next == 61 || next == 60)) ||
    (b == 62 && (next == 61 || next == 62)) || (b == 47 && next == 47)

def class_of (b : UInt8) : Option Class :=
  if isAlpha b || b == 95 then some .name
  else if isBlank b then some .blank
  else if isBreak b then some .line_break
  else if (one_kind b).isSome then some .one
  else if isDigit b then some .digit
  else if b == 34 || b == 39 then some .quote
  else if begins_operator b then some .operator
  else if b == 45 then some .dash
  else if b == 46 then some .dot
  else if b == 58 then some .colon
  else if b == 91 then some .bracket
  else none

/-- Every reserved word: Lua's, and those the grammar adds. -/
def words : List Bytes :=
  [lit "and", lit "break", lit "do", lit "else", lit "elseif", lit "end", lit "false", lit "for",
    lit "function", lit "global", lit "goto", lit "if", lit "in", lit "local", lit "nil",
    lit "not", lit "or", lit "repeat", lit "return", lit "then", lit "true", lit "until",
    lit "while", lit "match", lit "continue", lit "mut", lit "is", lit "asserts", lit "userdata",
    lit "as"]

/-- What a backslash and one byte stand for. -/
def simple_escape (b : UInt8) : Option UInt8 :=
  if b == 97 then some 7
  else if b == 98 then some 8
  else if b == 102 then some 12
  else if b == 110 then some 10
  else if b == 114 then some 13
  else if b == 116 then some 9
  else if b == 118 then some 11
  else if b == 92 || b == 34 || b == 39 then some b
  else none

/-! ## Messages -/

def hex_digit (n : ℕ) : UInt8 := UInt8.ofNat (if n < 10 then 48 + n else 55 + n)

/-- A byte or character as the messages show it: itself when it is printable ASCII or a whole UTF-8
character, else each of its bytes as `\xNN`. -/
def shown (text : Bytes) : Bytes :=
  match text with
  | [b] =>
    if 32 ≤ b && b < 127 then text
    else lit "\\x" ++ [hex_digit (b.toNat / 16), hex_digit (b.toNat % 16)]
  | _ =>
    if text.length > 1 && utf8_valid text.length text && !text.any isControl then text
    else text.flatMap (fun b => lit "\\x" ++ [hex_digit (b.toNat / 16), hex_digit (b.toNat % 16)])

/-- The fix for the escape `\` and `bad`, a character of the source. -/
def escape_fix (bad : Bytes) : Bytes :=
  let shown_bad := shown bad
  lit "write `\\\\" ++ shown_bad ++ lit "` for a backslash followed by `" ++ shown_bad ++
    lit "`, or `" ++ shown_bad ++
    lit "` alone. The escapes are `\\a \\b \\f \\n \\r \\t \\v \\\\ \\\" \\' \\z`," ++
    lit " `\\xNN`, `\\ddd` up to 255, `\\u\x7bNNN\x7d` and a backslash before a line break"

def hex_float_fix {F : Type} (fl : Floats F) (value : Number F) : Bytes :=
  let x := match value with
    | .integer n => fl.of_integer n
    | .float x => x
  if !fl.finite x then
    lit "the value is out of range for a float: write a value a float holds, in decimal"
  else
    let text := fl.text x
    let text := if text.any (fun b => b == 46 || b == 101 || b == 69) then text
      else text ++ lit ".0"
    lit "write the value in decimal: `" ++ text ++ lit "`"

def malformed_fix : Bytes :=
  lit "write decimal digits with an optional fraction and exponent (`12`, `1.5`, `2e10`) " ++
    lit "or `0x` and hexadecimal digits (`0xFF`), and put a space between a number and the name or" ++
    lit " operator after it"

/-! ## Line breaks -/

/-- The length of the line break that begins at `i` of `text`, 0 where none does. As in Lua, `\n`,
`\r`, `\r\n` and `\n\r` are each one. -/
def break_at (text : Bytes) (i : ℕ) : ℕ :=
  match byte text i with
  | none => 0
  | some c =>
    if !isBreak c then 0
    else
      match byte text (i + 1) with
      | some d => if isBreak d && d != c then 2 else 1
      | none => 1

/-- Where `advance_lines` is in its text, and what it has found. -/
structure Lines where
  p : ℕ
  line : ℕ
  line_start : ℕ
  previous : ℕ
  /-- `tokens.line` -/
  lines : List ℕ

def advance_round (text : Bytes) (base : ℕ) (l : Lines) : Option (Round Lines Lines) :=
  match find isBreak text l.p with
  | none => some (.done l)
  | some q =>
    let p := q + break_at text q
    let line_start := base + p - 1
    some (.next ⟨p, l.line + 1, line_start, l.line_start, l.lines ++ [line_start]⟩)

/-- The line and the offset of its first byte after the line breaks in `text`, which holds the
source from offset `base`, and the offset of the line before it, with the offset of each line that
begins in `text` entered in `lines`. -/
def advance_lines (text : Bytes) (base line line_start : ℕ) (lines : List ℕ) : Option Lines :=
  loop (advance_round text base) (text.length + 1) ⟨1, line, line_start, line_start, lines⟩

/-- What a token of several lines leaves the lexer at: the line and the offset of the line that
follows it, and the place of its last byte. -/
structure Span where
  line : ℕ
  line_start : ℕ
  yend : ℕ
  xend : ℕ
  lines : List ℕ

def span_end (text : Bytes) (base line line_start : ℕ) (lines : List ℕ) : Option Span := do
  let l ← advance_lines text base line line_start lines
  let last := base + text.length - 1
  -- A last byte that ends a line break is on the line the break ends.
  if l.line_start = last + 1 then
    return ⟨l.line, l.line_start, l.line - 1, last - l.previous + 1, l.lines⟩
  return ⟨l.line, l.line_start, l.line, last - l.line_start + 1, l.lines⟩

def normalised_round (text : Bytes) (s : ℕ × Bytes) : Option (Round (ℕ × Bytes) Bytes) :=
  match find isBreak text s.1 with
  | none => some (.done (s.2 ++ sub text s.1 text.length))
  | some q => some (.next (q + break_at text q, s.2 ++ sub text s.1 (q - 1) ++ [10]))

/-- `text` with each line break written `\n`. -/
def normalised (text : Bytes) : Option Bytes := loop (normalised_round text) (text.length + 1) (1, [])

/-! ## Short strings -/

/-- `^{(%x+)}`: the last position and the digits of a code point in braces. -/
def braced (source : Bytes) (i : ℕ) : Option (ℕ × Bytes) :=
  let e := run_end isHex source.length source (i + 1)
  if byte source i = some 123 ∧ i + 1 ≤ e ∧ byte source (e + 1) = some 125 then
    some (e + 1, sub source (i + 1) e)
  else none

/-- Where the escape that begins at the backslash `s` of `source` ends, and what is wrong with it:
nothing for a good escape, else the fix for it. -/
def check_escape (source : Bytes) (s : ℕ) : Option (ℕ × Bytes) :=
  match byte source (s + 1) with
  | none => some (s, [])
  | some c =>
    if (simple_escape c).isSome then some (s + 1, [])
    else if isBreak c then some (s + break_at source (s + 1), [])
    -- `\z`
    else if c == 122 then some (run_end isSpace source.length source (s + 2), [])
    -- `\x`
    else if c == 120 then
      if run_end isHex 2 source (s + 2) = s + 3 then some (s + 3, [])
      else some (run_end isHex 1 source (s + 2),
        lit "`\\x` takes exactly two hexadecimal digits: write `\\x41` for `A`")
    else if isDigit c then do
      let e := run_end isDigit 3 source (s + 1)
      let n ← decimal (sub source (s + 1) e)
      if n > 255 then
        return (e, lit "a decimal escape is at most `\\255`: write a character past 255 as" ++
          lit " `\\u\x7b...\x7d`, as `\\u\x7b100\x7d`")
      return (e, [])
    -- `\u`
    else if c == 117 then
      match braced source (s + 2) with
      | some (e, digits) =>
        let significant := digits.dropWhile (· == 48)
        let large := lit "a code point in `\\u\x7b...\x7d` is at most `7FFFFFFF`:" ++
          lit " write `\\u\x7b20AC\x7d` for the euro sign"
        if significant.length ≤ 8 then
          if significant = [] then some (e, [])
          else do
            let n ← hexadecimal significant
            if n ≤ 0x7FFFFFFF then return (e, [])
            return (e, large)
        else some (e, large)
      | none => some (s + 1, lit "`\\u` takes hexadecimal digits in braces:" ++
          lit " write `\\u\x7b20AC\x7d` for the euro sign")
    else
      -- The whole character, so that a message never shows half of one.
      let e := if 192 ≤ c then run_end (fun b => 128 ≤ b && b ≤ 191) source.length source (s + 2)
        else s + 1
      some (e, escape_fix (sub source (s + 1) e))

/-- What `read_string` answers: where the closing quote is (0 when the line ends first), the last
byte the token holds, and the place of the first bad escape (0 when every one is good), its length
and what to do about it. -/
structure Quoted where
  close : ℕ
  stop : ℕ
  bad_at : ℕ
  bad_length : ℕ
  bad_fix : Bytes

/-- Where `read_string` is, and the first bad escape it has met. -/
structure Reading where
  i : ℕ
  bad_at : ℕ
  bad_length : ℕ
  bad_fix : Bytes

/-- What ends a plain run of bytes of a short string: its quote, a backslash or a line break. -/
def ends_run (quote b : UInt8) : Bool := b == quote || b == 92 || isBreak b

def string_round (source : Bytes) (quote : UInt8) (r : Reading) : Option (Round Reading Quoted) :=
  match find (ends_run quote) source r.i with
  | none => some (.done ⟨0, source.length, r.bad_at, r.bad_length, r.bad_fix⟩)
  | some s =>
    if byte source s = some quote then
      some (.done ⟨s, s, r.bad_at, r.bad_length, r.bad_fix⟩)
    else if byte source s = some 10 ∨ byte source s = some 13 then
      some (.done ⟨0, s - 1, r.bad_at, r.bad_length, r.bad_fix⟩)
    else if byte source (s + 1) = none then
      some (.done ⟨0, s, r.bad_at, r.bad_length, r.bad_fix⟩)
    else do
      let (e, fix) ← check_escape source s
      if fix ≠ [] ∧ r.bad_at = 0 then return .next ⟨e + 1, s, e - s + 1, fix⟩
      return .next ⟨e + 1, r.bad_at, r.bad_length, r.bad_fix⟩

/-- Reads a short string that is not a plain run of bytes between its quotes. -/
def read_string (source : Bytes) (pos : ℕ) (quote : UInt8) : Option Quoted :=
  loop (string_round source quote) (source.length + 1) ⟨pos + 1, 0, 0, []⟩

/-- The last byte and the value of the escape at the backslash `s` of `inner`. -/
def decode_escape (inner : Bytes) (s : ℕ) : Option (ℕ × Bytes) :=
  match byte inner (s + 1) with
  | none => none
  | some c =>
    match simple_escape c with
    | some plain => some (s + 1, [plain])
    | none =>
      if isBreak c then some (s + break_at inner (s + 1), [10])
      else if c == 122 then some (run_end isSpace inner.length inner (s + 2), [])
      else if c == 120 then do
        let n ← hexadecimal (sub inner (s + 2) (s + 3))
        let text ← char n
        return (s + 3, text)
      else if c == 117 then do
        let (e, digits) ← braced inner (s + 2)
        let n ← hexadecimal digits
        let text ← utf8_char n
        return (e, text)
      else do
        let e := run_end isDigit 3 inner (s + 1)
        let n ← decimal (sub inner (s + 1) e)
        let text ← char n
        return (e, text)

def decode_round (inner : Bytes) (r : ℕ × Bytes) : Option (Round (ℕ × Bytes) Bytes) :=
  match find (· == 92) inner r.1 with
  | none => some (.done (r.2 ++ sub inner r.1 inner.length))
  | some s => do
      let (e, text) ← decode_escape inner s
      return .next (e + 1, r.2 ++ sub inner r.1 (s - 1) ++ text)

/-- The contents of a short string's source (`inner`, without its quotes) with every escape
decoded. `inner` holds only good escapes. -/
def decode (inner : Bytes) : Option Bytes := loop (decode_round inner) (inner.length + 1) (1, [])

/-! ## Numerals -/

def numeral_round (source : Bytes) (hex : Bool) (i : ℕ) : Option (Round ℕ ℕ) :=
  match byte source i with
  | none => some (.done i)
  | some c =>
    if (hex && (c == 80 || c == 112)) || (!hex && (c == 69 || c == 101)) then
      -- an exponent, with its sign
      if byte source (i + 1) = some 43 ∨ byte source (i + 1) = some 45 then some (.next (i + 2))
      else some (.next (i + 1))
    else if isHex c || c == 46 || c == 95 then some (.next (i + 1))
    else some (.done i)

/-- The last byte of the numeral that begins at `pos`, read as Lua reads one. -/
def numeral_end (source : Bytes) (pos : ℕ) : Option ℕ := do
  let hex := byte source pos == some 48 && (byte source (pos + 1) == some 120 || byte source (pos + 1) == some 88)
  let i ← loop (numeral_round source hex) (source.length + 1) (if hex then pos + 2 else pos)
  return run_end isWord source.length source i

/-! ## Reading a source -/

/-- What `Lexer.lex` has read up to `pos`. -/
structure State (F : Type) where
  tokens : Tokens F := { line := [1] }
  errors : List Error := []
  n : ℕ := 0
  pos : ℕ := 1
  line : ℕ := 1
  line_start : ℕ := 1
  /-- The comments that wait for the token after them. -/
  pending : Option (List Comment) := none

/-- What a branch read: a token where it has a `kind`, with its text and the offset of its last
byte. -/
structure Read where
  kind : Option Kind := none
  text : Bytes := []
  e : ℕ := 0

section

variable {F : Type} (fl : Floats F) (source name : Bytes)

namespace State

/-- The column of the byte at `pos`. -/
def x (st : State F) : ℕ := st.pos - st.line_start + 1

def add_error (st : State F) (code : Code) (msg fix : Bytes) (offset length y x : ℕ) : State F :=
  { st with errors := st.errors ++ [⟨name, code, msg, fix, y, x, offset, length⟩] }

def add_comment (st : State F) (comment : Comment) : State F :=
  { st with pending := some (st.pending.getD [] ++ [comment]) }

/-- Goes to the line `line`, which begins at `line_start`, with the lines entered up to it. -/
def at_line (st : State F) (line line_start : ℕ) (lines : List ℕ) : State F :=
  { st with line, line_start, tokens := { st.tokens with line := lines } }

/-- Records where the last byte of token `n` is, when that is not where its line and length put
it. -/
def mark_end (st : State F) (n y x length end_y end_x : ℕ) : State F :=
  { st with tokens := { st.tokens with
      yend := if end_y ≠ y then st.tokens.yend.insert n end_y else st.tokens.yend
      xend := if end_x ≠ x + length - 1 then st.tokens.xend.insert n end_x else st.tokens.xend } }

def set_value (st : State F) (n : ℕ) (value : Bytes) : State F :=
  { st with tokens := { st.tokens with value := st.tokens.value.insert n value } }

def set_number (st : State F) (n : ℕ) (value : Number F) : State F :=
  { st with tokens := { st.tokens with number := st.tokens.number.insert n value } }

end State

def read_name (st : State F) : Option (Read × State F) :=
  let word := sub source st.pos (run_end isWord source.length source st.pos)
  some (⟨some (if words.contains word then .keyword else .identifier), word, st.pos + word.length - 1⟩, st)

def read_blank (st : State F) : Option (Read × State F) :=
  let pos := st.pos + 1
  let pos := if (byte source pos).any isBlank then
      (find (fun b => !isBlank b) source (pos + 1)).getD (source.length + 1)
    else pos
  some ({}, { st with pos })

/-- A bracket or an operator of one byte. -/
def read_one (b : UInt8) (st : State F) : Option (Read × State F) := some (⟨one_kind b, [b], st.pos⟩, st)

def read_break (st : State F) : Option (Read × State F) :=
  let pos := st.pos + break_at source st.pos
  some ({}, { st with
    pos, line := st.line + 1, line_start := pos,
    tokens := { st.tokens with line := st.tokens.line ++ [pos] } })

def read_operator (b : UInt8) (st : State F) : Option (Read × State F) :=
  if (byte source (st.pos + 1)).any (second b) then
    some (⟨Kind.op, sub source st.pos (st.pos + 1), st.pos + 1⟩, st)
  else some (⟨Kind.op, [b], st.pos⟩, st)

/-- `^%[(=*)%[`: the last position and the level of the long bracket that opens at `i`. -/
def long_open (i : ℕ) : Option (ℕ × Bytes) :=
  let e := run_end (· == 61) source.length source (i + 1)
  if byte source i = some 91 ∧ byte source (e + 1) = some 91 then
    some (e + 1, sub source (i + 1) e)
  else none

/-- The closing bracket of `level`. -/
def closing (level : Bytes) : Bytes := lit "]" ++ level ++ lit "]"

/-- `--`: a line comment, or a long one the grammar cuts. -/
def read_comment (st : State F) : Option (Read × State F) :=
  let pos := st.pos
  let len := source.length
  match long_open source (pos + 2) with
  | some (open_end, level) =>
    match find_text (closing level) source (open_end + 1) with
    | none => do
        let text := sub source pos len
        let sp ← span_end text pos st.line st.line_start st.tokens.line
        let st' := st.mark_end (st.n + 1) st.line st.x (len - pos + 1) sp.yend sp.xend
        let st' := st'.add_error name .unterminated_long_comment (lit "unfinished long comment")
          (lit "write line comments, which begin each line with `--`; a long comment is not in" ++
            lit " the grammar and this one has no closing `" ++ closing level ++ lit "`")
          pos (len - pos + 1) st.line st.x
        return (⟨Kind.err, text, len⟩, st'.at_line sp.line sp.line_start sp.lines)
    | some (_, ce) => do
        let text := sub source pos ce
        let st' := st.add_comment ⟨text, pos, ce - pos + 1, st.line, st.x⟩
        let st' := st'.add_error name .long_comment (lit "long comments are not in the grammar")
          (lit "write line comments: begin each line of the comment with `--`")
          pos (ce - pos + 1) st.line st.x
        let l ← advance_lines text pos st.line st.line_start st.tokens.line
        return ({}, { st'.at_line l.line l.line_start l.lines with pos := ce + 1 })
  | none =>
    let ce := (find isBreak source (pos + 2)).getD (len + 1) - 1
    let st' := st.add_comment ⟨sub source pos ce, pos, ce - pos + 1, st.line, st.x⟩
    some ({}, { st' with pos := ce + 1 })

/-- `-`, or a comment. -/
def read_dash (st : State F) : Option (Read × State F) :=
  if byte source (st.pos + 1) ≠ some 45 then some (⟨Kind.op, lit "-", st.pos⟩, st)
  else read_comment source name st

def bad_line_round (lines : List ℕ) (bad_at : ℕ) (l : ℕ × ℕ) : Option (Round (ℕ × ℕ) (ℕ × ℕ)) :=
  -- `line_offsets[bad_line + 1]`, entered for every line the token has
  match lines[l.1]? with
  | none => some (.done l)
  | some following =>
    if following > bad_at then some (.done l) else some (.next (l.1 + 1, following))

/-- The line and its first offset of the bad escape at `bad_at`, from the line its string begins
on. -/
def bad_line (lines : List ℕ) (bad_at line line_start : ℕ) : Option (ℕ × ℕ) :=
  loop (bad_line_round lines bad_at) (lines.length + 1) (line, line_start)

/-- The value of a short string, where it closes and no escape of it is bad. -/
def quoted_value (source : Bytes) (pos : ℕ) (q : Quoted) : Option (Option Bytes) :=
  if q.close > 0 ∧ q.bad_at = 0 then (decode (sub source (pos + 1) (q.close - 1))).map some
  else some none

/-- A short string with an escape or a line break in it, or none that ends. -/
def read_escaped (b : UInt8) (st : State F) : Option (Read × State F) := do
  let pos := st.pos
  let q ← read_string source pos b
  let text := sub source pos q.stop
  let value ← quoted_value source pos q
  let sp ← span_end text pos st.line st.line_start st.tokens.line
  let st' := match value with
    | some value => st.set_value (st.n + 1) value
    | none => st
  let st' := st'.mark_end (st.n + 1) st.line st.x (q.stop - pos + 1) sp.yend sp.xend
  let kind := if q.close > 0 ∧ q.bad_at = 0 then Kind.string else Kind.err
  if q.close = 0 then
    let st' := st'.add_error name .unterminated_string (lit "unterminated string")
      (lit "close the string with a matching `" ++ [b] ++ lit "` before the end of its line; to" ++
        lit " carry it onto the next line end this line with `\\`, or write a long string" ++
        lit " `[[ ... ]]`")
      pos (q.stop - pos + 1) st.line st.x
    return (⟨kind, text, q.stop⟩, st'.at_line sp.line sp.line_start sp.lines)
  if q.bad_at > 0 then
    let (y, start) ← bad_line sp.lines q.bad_at st.line st.line_start
    let st' := st'.add_error name .bad_escape (lit "invalid escape `\\" ++
        shown (sub source (q.bad_at + 1) (q.bad_at + q.bad_length - 1)) ++ lit "`")
      q.bad_fix q.bad_at q.bad_length y (q.bad_at - start + 1)
    return (⟨kind, text, q.stop⟩, st'.at_line sp.line sp.line_start sp.lines)
  return (⟨kind, text, q.stop⟩, st'.at_line sp.line sp.line_start sp.lines)

/-- A short string. -/
def read_quote (b : UInt8) (st : State F) : Option (Read × State F) :=
  let pos := st.pos
  match find (ends_run b) source (pos + 1) with
  | some s =>
    -- No escape and no line break: the common string, on one line.
    if byte source s = some b then
      some (⟨Kind.string, sub source pos s, s⟩, st.set_value (st.n + 1) (sub source (pos + 1) (s - 1)))
    else read_escaped source name b st
  | none => read_escaped source name b st

def number_kind : Number F → Kind
  | .integer _ => .integer
  | .float _ => .number

def read_number (st : State F) : Option (Read × State F) := do
  let pos := st.pos
  let e ← numeral_end source pos
  let text := sub source pos e
  match tonumber fl text with
  | none =>
    let stripped := text.filter (· != 95)
    match tonumber fl stripped with
    | some plain =>
      if text.contains 95 then
        let st' := st.add_error name .digit_separator (lit "`_` in a number is not in the grammar")
          (lit "write the number without `_`: `" ++ stripped ++ lit "`")
          pos (e - pos + 1) st.line st.x
        return (⟨number_kind plain, text, e⟩, st'.set_number (st.n + 1) plain)
      return malformed pos e text
    | none => return malformed pos e text
  | some value =>
    let hex_float := (after_0x text).isSome && text.any (fun b => b == 46 || b == 112 || b == 80)
    let st' := if hex_float then
        st.add_error name .hex_float (lit "a hexadecimal float is not in the grammar")
          (hex_float_fix fl value) pos (e - pos + 1) st.line st.x
      else st
    return (⟨number_kind value, text, e⟩, st'.set_number (st.n + 1) value)
where
  malformed (pos e : ℕ) (text : Bytes) : Read × State F :=
    (⟨Kind.err, text, e⟩, st.add_error name .malformed_number
      (lit "malformed number `" ++ text ++ lit "`") malformed_fix pos (e - pos + 1) st.line st.x)

/-- `.`, `..` or `...`, where no digit follows. -/
def read_dots (st : State F) : Option (Read × State F) :=
  let pos := st.pos
  if byte source (pos + 1) = some 46 then
    if byte source (pos + 2) = some 46 then
      some (⟨Kind.ellipsis, sub source pos (pos + 2), pos + 2⟩, st)
    else some (⟨Kind.op, sub source pos (pos + 1), pos + 1⟩, st)
  else some (⟨Kind.dot, lit ".", pos⟩, st)

def read_dot (st : State F) : Option (Read × State F) :=
  if (byte source (st.pos + 1)).any isDigit then read_number fl source name st
  else read_dots source st

/-- `[ \t]` -/
def is_gap (b : UInt8) : Bool := b == 32 || b == 9

/-- `^::[ \t]*([%a_][%w_]*)[ \t]*::`: the last position and the name of the label at `i`. -/
def label_at (i : ℕ) : Option (ℕ × Bytes) :=
  let len := source.length
  let first := run_end is_gap len source (i + 2) + 1
  let last := run_end isWord len source first
  let foot := run_end is_gap len source (last + 1) + 1
  if byte source i = some 58 ∧ byte source (i + 1) = some 58 ∧
      (byte source first).any (fun b => isAlpha b || b == 95) ∧
      byte source foot = some 58 ∧ byte source (foot + 1) = some 58 then
    some (foot + 1, sub source first last)
  else none

/-- `:`, or a `::` the grammar cuts. -/
def read_colon (st : State F) : Option (Read × State F) :=
  let pos := st.pos
  if byte source (pos + 1) ≠ some 58 then some (⟨Kind.colon, lit ":", pos⟩, st)
  else
    let found := label_at source pos
    let e := match found with
      | some (le, _) => le
      | none => pos + 1
    let text := sub source pos e
    let msg := match found with
      | some _ => lit "the label `" ++ text ++ lit "` is not in the grammar"
      | none => lit "`::` is not in the grammar"
    let after_goto := match found with
      | some (_, label) => lit " " ++ label
      | none => []
    some (⟨Kind.err, text, e⟩, st.add_error name .label_or_goto msg
      (lit "delete the label, and write `continue` where a `goto" ++ after_goto ++
        lit "` skipped the rest of a pass of a loop; restructure any other jump with an `if`" ++
        lit " around the code to skip, or move the code into a function and `return` from it")
      pos (e - pos + 1) st.line st.x)

def long_value (contents : Bytes) : Option Bytes :=
  if contents.contains 13 then normalised contents else some contents

/-- `[`, or a long string. -/
def read_bracket (st : State F) : Option (Read × State F) :=
  let pos := st.pos
  match long_open source pos with
  | none => some (⟨Kind.lbracket, lit "[", pos⟩, st)
  | some (open_end, level) =>
    match find_text (closing level) source (open_end + 1) with
    | some (cs, last) => do
        let text := sub source pos last
        let sp ← span_end text pos st.line st.line_start st.tokens.line
        let value ← long_value (sub source (open_end + 1 + break_at source (open_end + 1)) (cs - 1))
        let st' := (st.set_value (st.n + 1) value).mark_end (st.n + 1) st.line st.x (last - pos + 1) sp.yend sp.xend
        return (⟨Kind.string, text, last⟩, st'.at_line sp.line sp.line_start sp.lines)
    | none => do
        let last := source.length
        let text := sub source pos last
        let sp ← span_end text pos st.line st.line_start st.tokens.line
        let st' := st.add_error name .unterminated_long_string (lit "unterminated long string")
          (lit "close the string with `" ++ closing level ++ lit "`")
          pos (last - pos + 1) st.line st.x
        let st' := st'.mark_end (st.n + 1) st.line st.x (last - pos + 1) sp.yend sp.xend
        return (⟨Kind.err, text, last⟩, st'.at_line sp.line sp.line_start sp.lines)

def mark : Bytes := [239, 187, 191]

/-- What to do about a byte that begins no token. -/
def stray_fix (b : UInt8) (text : Bytes) (pos : ℕ) : Bytes :=
  if b == 33 then
    if byte source (pos + 1) = some 61 then lit "write `~=` for \"not equal\""
    else lit "write `not` for negation"
  else if 128 ≤ b then
    if text = mark then
      if pos = 1 then lit "delete the byte order mark at the start of the file"
      else lit "delete the byte order mark; one marks the start of a file and is no part of a" ++ lit " program"
    else lit "names are ASCII letters, digits and `_`; a character like this can stand only" ++
      lit " inside a string or a comment"
  else lit "delete it; a character outside Lua's syntax can stand only inside a string or a comment"

/-- A cut `;`, or a byte that begins no token. -/
def read_stray (b : UInt8) (st : State F) : Option (Read × State F) :=
  let pos := st.pos
  let e := if 128 ≤ b then run_end (fun b => 128 ≤ b) source.length source pos else pos
  let text := sub source pos e
  if b == 59 then
    some (⟨Kind.err, text, e⟩, st.add_error name .semicolon (lit "`;` is not in the grammar")
      (lit "delete the `;`: a statement needs no terminator and the fields of a table are" ++
        lit " separated by `,`") pos 1 st.line st.x)
  else
    let what := if text = lit "`" then lit "backtick"
      else if text = mark then lit "byte order mark"
      else lit "`" ++ shown text ++ lit "`"
    some (⟨Kind.err, text, e⟩, st.add_error name .stray_byte (lit "stray " ++ what)
      (stray_fix source b text pos) pos (e - pos + 1) st.line st.x)

/-- Reads what begins at `pos`. -/
def read (st : State F) : Option (Read × State F) :=
  match byte source st.pos with
  | none => none
  | some b =>
    match class_of b with
    | some .name => read_name source st
    | some .blank => read_blank source st
    | some .one => read_one b st
    | some .line_break => read_break source st
    | some .operator => read_operator source b st
    | some .dash => read_dash source name st
    | some .quote => read_quote source name b st
    | some .digit => read_number fl source name st
    | some .dot => read_dot fl source name st
    | some .colon => read_colon source name st
    | some .bracket => read_bracket source name st
    | none => read_stray source name b st

/-- The position after the `#!` line whose `#!` is at `pos`, where its line break is. -/
def after_shebang (pos : ℕ) : ℕ := (find isBreak source (pos + 2)).getD (source.length + 1)

/-- The offset the mark's token ends before, where a `#!` line follows a byte order mark at the
start; 0 elsewhere. -/
def shebang_after : ℕ := if sub source 1 5 = mark ++ lit "#!" then 4 else 0

def push_token (st : State F) (kind : Kind) (text : Bytes) (offset y : ℕ) : State F :=
  { st with
    n := st.n + 1
    pending := none
    tokens := { st.tokens with
      kind := st.tokens.kind ++ [kind]
      text := st.tokens.text ++ [text]
      offset := st.tokens.offset ++ [offset]
      y := st.tokens.y ++ [y]
      comments := match st.pending with
        | some comments => st.tokens.comments.insert (st.n + 1) comments
        | none => st.tokens.comments } }

/-- One pass of the loop. -/
def lex_step (st : State F) : Option (State F) := do
  let (r, st') ← read fl source name st
  match r.kind with
  | none => return st'
  | some kind =>
    let st' := push_token st' kind r.text st.pos st.line
    let pos := r.e + 1
    return { st' with pos := if pos = shebang_after source then after_shebang source pos else pos }

def lex_round (st : State F) : Option (Round (State F) (State F)) :=
  if st.pos ≤ source.length then (lex_step fl source name st).map .next else some (.done st)

/-- Where lexing begins: after a `#!` first line. -/
def start : State F := { pos := if sub source 1 2 = lit "#!" then after_shebang source 1 else 1 }

/-- Lexes `source`, which is named `name` in each error. -/
def lex : Option (Lexed F) := do
  let st ← loop (lex_round fl source name) (source.length + 1) (start source)
  let st := push_token st .eof [] st.pos st.line
  return ⟨st.tokens, st.errors⟩

end

end Cosmic.Lexer
