/-
A request's head: `wire.read_head` of `cosmic/http/wire.tl`.

Where the source answers nil and why, a function here answers `Except`. The values of the headers are
kept by name, a name in the place it is first met. A loop is given one round for each byte that is
pending and one more, as each line takes a byte at least.
-/
import Cosmic.Http.Input
import Cosmic.Http.Url

set_option autoImplicit false

namespace Cosmic.Http

open Cosmic.Base
open Cosmic.Wire (isToken isSpecial isLineBlank)

/-- `math.maxinteger` -/
def maxinteger : ℕ := 2 ^ 63 - 1

/-- Whether all of a name, or a method, are characters of `TOKEN`. -/
def is_token (name : Bytes) : Bool := name ≠ [] && name.all isToken

/-- `text` without a CR at its end, or nil where it holds one anywhere else. -/
def without_cr (text : Bytes) : Option Bytes :=
  let text := if text.getLast? = some 13 then text.dropLast else text
  if 13 ∈ text then none else some text

/-- `text` without the spaces and tabs at either end. -/
def trimmed (text : Bytes) : Bytes := ((text.dropWhile isLineBlank).reverse.dropWhile isLineBlank).reverse

/-- A header line read: its name, in lower case, and its value. -/
structure Field where
  name : Bytes
  value : Bytes

/-- One header line; a byte of `VALUE_CONTROL` is one of the relay's `SPECIAL`. -/
def field (text : Bytes) : Except Bytes Field :=
  if text.head?.any isLineBlank then .error (lit "a header line is folded (obs-fold)")
  else
    match index_of (lit ":") text with
    | none => .error (lit "a header line holds no ':'")
    | some colon =>
      let name := text.take colon
      if ¬is_token name then .error (lit "a header's name is no token (space before ':'?)")
      else
        let value := trimmed (text.drop (colon + 1))
        if value.any isSpecial then .error (lit "header " ++ name ++ lit " holds a control byte")
        else .ok ⟨lower name, value⟩

/-- The comma-separated members of a header's value, trimmed, the empty ones dropped. -/
def members (value : Bytes) : List Bytes := ((value.splitOn 44).map trimmed).filter (· ≠ [])

/-- The size a Content-Length's digits name, `math.maxinteger` for one past what an integer holds. -/
def decimal (digits : Bytes) : Option ℕ :=
  if digits ≠ [] ∧ digits.all isDigit then
    let digits := digits.dropWhile (· == 48)
    if digits.length > 18 then some maxinteger else some (digits_value 10 digits)
  else none

/-- A request target's path and query, and the host of an absolute one. -/
structure Target where
  path : Bytes
  query : Bytes
  authority : Option Bytes
  deriving DecidableEq, Repr

/-- The path and query of a URL, and its host. -/
def absolute_target (target : Bytes) : Except Bytes Target :=
  match Url.parse target with
  | .error why => .error (lit "the target is neither a path nor an absolute URL: " ++ why)
  | .ok parts =>
    if parts.scheme ≠ lit "http" ∧ parts.scheme ≠ lit "https" then
      .error (lit "an absolute target's scheme is not http or https")
    else if parts.userinfo.isSome then .error (lit "an absolute target holds userinfo")
    else
      let host := if 58 ∈ parts.host then lit "[" ++ parts.host ++ lit "]" else parts.host
      .ok { path := if parts.path ≠ [] then parts.path else lit "/"
            query := parts.query.getD []
            authority := some (match parts.port with
              | some port => host ++ lit ":" ++ tostring port
              | none => host) }

/-- The request line's target. -/
def target_parts (method target : Bytes) : Except Bytes Target :=
  if target = lit "*" then
    if method ≠ lit "OPTIONS" then .error (lit "the target * is for OPTIONS alone")
    else .ok ⟨lit "*", [], none⟩
  else if target = [] ∨ target.any (fun b => !((33 ≤ b && b ≤ 34) || (36 ≤ b && b ≤ 126))) then
    .error (lit "the target holds a byte no URL holds, or a '#'")
  else if target.head? ≠ some 47 then absolute_target target
  else
    match index_of (lit "?") target with
    | none => .ok ⟨target, [], none⟩
    | some mark => .ok ⟨target.take mark, target.drop (mark + 1), none⟩

/-- A request's head, read whole. -/
structure Head where
  method : Bytes
  target : Bytes
  path : Bytes
  query : Bytes
  version : Bytes
  headers : List (Bytes × Bytes)
  length : Option ℕ
  chunked : Bool
  close : Bool
  continue_ : Bool
  spent : ℕ
  deriving DecidableEq, Repr

/-- Why there is no head: the status a refused request is answered with, 0 where none was refused. -/
structure Refused where
  status : ℕ
  why : Bytes
  deriving DecidableEq, Repr

/-! ## The lines of a head -/

/-- The next line of a head that starts where `start` bytes were taken, without its CR. -/
def next_line (limits : Limits) (start : ℕ) (input : Input) : Option (Except Refused Bytes × Input) :=
  match input.line (limits.head_bytes - (input.taken - start)) with
  | none => none
  | some (.error why, input) =>
    if input.long then some (.error ⟨431, lit "the head is longer than limits.head_bytes"⟩, input)
    else if why ≠ [] then some (.error ⟨0, why⟩, input)
    else if input.taken = start then some (.error ⟨0, []⟩, input)
    else some (.error ⟨0, lit "the connection ended within a head"⟩, input)
  | some (.ok text, input) =>
    match without_cr text with
    | none => some (.error ⟨400, lit "a line holds a bare CR"⟩, input)
    | some bare => some (.ok bare, input)

/-- One line before the request line is passed over, when it is blank. -/
def request_round (limits : Limits) (start : ℕ) (input : Input) :
    Option (Round Input (Except Refused Bytes × Input)) :=
  match next_line limits start input with
  | none => none
  | some (.error refused, input) => some (.done (.error refused, input))
  | some (.ok text, input) => if text ≠ [] then some (.done (.ok text, input)) else some (.next input)

def request_line (limits : Limits) (start : ℕ) (input : Input) : Option (Except Refused Bytes × Input) :=
  loop (request_round limits start) (input.pending.length + 1) input

structure Request where
  method : Bytes
  target : Bytes
  version : Bytes
  parts : Target

/-- A request line taken apart. -/
def request_parts (text : Bytes) : Except Refused Request :=
  match text.splitOn 32 with
  | [method, target, version] =>
    if method = [] ∨ target = [] ∨ version = [] then
      .error ⟨400, lit "the request line is not method, target and version"⟩
    else if ¬is_token method then .error ⟨400, lit "the method is no token"⟩
    else if ¬(version.take 5 = lit "HTTP/" ∧ version.length = 8 ∧ isDigit (version.getD 5 0) ∧
        version.getD 6 0 = 46 ∧ isDigit (version.getD 7 0)) then
      .error ⟨400, lit "the version is not HTTP/d.d"⟩
    else if version ≠ lit "HTTP/1.1" ∧ version ≠ lit "HTTP/1.0" then
      .error ⟨505, lit "this server speaks HTTP/1.1 and HTTP/1.0"⟩
    else
      match target_parts method target with
      | .error why => .error ⟨400, why⟩
      | .ok parts => .ok ⟨method, target, version, parts⟩
  | _ => .error ⟨400, lit "the request line is not method, target and version"⟩

abbrev Values : Type := List (Bytes × List Bytes)

def add_value (values : Values) (got : Field) : Values :=
  if values.any (fun entry => entry.1 = got.name) then
    values.map fun entry => if entry.1 = got.name then (entry.1, entry.2 ++ [got.value]) else entry
  else values ++ [(got.name, [got.value])]

/-- One header line, or the blank line after them. -/
def header_round (limits : Limits) (start : ℕ) (st : Values × Input) :
    Option (Round (Values × Input) (Except Refused Values × Input)) :=
  match next_line limits start st.2 with
  | none => none
  | some (.error refused, input) => some (.done (.error refused, input))
  | some (.ok text, input) =>
    if text = [] then some (.done (.ok st.1, input))
    else
      match field text with
      | .error why => some (.done (.error ⟨400, why⟩, input))
      | .ok got => some (.next (add_value st.1 got, input))

def header_lines (limits : Limits) (start : ℕ) (input : Input) : Option (Except Refused Values × Input) :=
  loop (header_round limits start) (input.pending.length + 1) ([], input)

/-! ## What the headers say -/

def joined (values : Values) : List (Bytes × Bytes) :=
  values.map fun entry =>
    (entry.1, concat (if entry.1 = lit "cookie" then lit "; " else lit ", ") entry.2)

def content_length (limits : Limits) (cl : Bytes) : Except Refused ℕ :=
  match members cl with
  | [] => .error ⟨400, lit "Content-Length is empty"⟩
  | first :: more =>
    match decimal first with
    | none => .error ⟨400, lit "Content-Length is not digits"⟩
    | some length =>
      let rec agree : List Bytes → Except Refused ℕ
        | [] =>
          if (length : ℤ) > limits.body_bytes then
            .error ⟨413, lit "the body is longer than limits.body_bytes"⟩
          else .ok length
        | value :: more =>
          match decimal value with
          | none => .error ⟨400, lit "Content-Length is not digits"⟩
          | some n => if n ≠ length then .error ⟨400, lit "Content-Length's values differ"⟩ else agree more
      agree more

/-- Whether a body is chunked, and its length when it is not. -/
def framing (limits : Limits) (version : Bytes) (te cl : Option Bytes) : Except Refused (Bool × Option ℕ) :=
  match te with
  | some te =>
    if cl.isSome then
      .error ⟨400, lit "a request holds both Content-Length and Transfer-Encoding"⟩
    else if version = lit "HTTP/1.0" then
      .error ⟨400, lit "an HTTP/1.0 request holds Transfer-Encoding"⟩
    else
      let codings := members (lower te)
      if codings.getLast? ≠ some (lit "chunked") then
        .error ⟨400, lit "a request's last transfer coding is not chunked"⟩
      else if codings.dropLast.contains (lit "chunked") then .error ⟨400, lit "a request is chunked twice"⟩
      else if codings.length > 1 then
        .error ⟨501, lit "this server decodes no transfer coding but chunked"⟩
      else .ok (true, none)
  | none =>
    match cl with
    | none => .ok (false, some 0)
    | some cl => (content_length limits cl).map fun length => (false, some length)

/-- Whether the client waits for `100 Continue`. -/
def expects_continue (version : Bytes) (expect : Option Bytes) : Except Refused Bool :=
  match expect with
  | none => .ok false
  | some expect =>
    if version ≠ lit "HTTP/1.1" then .ok false
    else
      let expectations := members (lower expect)
      if expectations.any (· ≠ lit "100-continue") then
        .error ⟨417, lit "this server meets no expectation but 100-continue"⟩
      else .ok (expectations ≠ [])

def with_host (headers : List (Bytes × Bytes)) (authority : Option Bytes) : List (Bytes × Bytes) :=
  match authority with
  | none => headers
  | some authority =>
    if headers.any (fun entry => entry.1 = lit "host") then
      headers.map fun entry => if entry.1 = lit "host" then (entry.1, authority) else entry
    else headers ++ [(lit "host", authority)]

/-- The head that a request line and header lines of `spent` bytes make. -/
def head_of (limits : Limits) (request : Request) (values : Values) (spent : ℕ) : Except Refused Head :=
  let headers := joined values
  let hosts := ((values.lookup (lit "host")).getD []).length
  if hosts > 1 ∨ (request.version = lit "HTTP/1.1" ∧ hosts = 0) then
    .error ⟨400, lit "an HTTP/1.1 request names exactly one Host"⟩
  else
    match framing limits request.version (headers.lookup (lit "transfer-encoding"))
        (headers.lookup (lit "content-length")) with
    | .error refused => .error refused
    | .ok (chunked, length) =>
      let options := members (lower ((headers.lookup (lit "connection")).getD []))
      match expects_continue request.version (headers.lookup (lit "expect")) with
      | .error refused => .error refused
      | .ok continue_ =>
        .ok { method := request.method, target := request.target, path := request.parts.path
              query := request.parts.query, version := request.version
              headers := with_host headers request.parts.authority, length, chunked
              close := request.version = lit "HTTP/1.0" ∨ options.contains (lit "close"), continue_, spent }

/-- Reads one request's head from `input`, leaving its body and anything after where they are. -/
def read_head (input : Input) (limits : Limits) : Option (Except Refused Head × Input) :=
  let start := input.taken
  match request_line limits start input with
  | none => none
  | some (.error refused, input) => some (.error refused, input)
  | some (.ok text, input) =>
    match request_parts text with
    | .error refused => some (.error refused, input)
    | .ok request =>
      match header_lines limits start input with
      | none => none
      | some (.error refused, input) => some (.error refused, input)
      | some (.ok values, input) => some (head_of limits request values (input.taken - start), input)

end Cosmic.Http

/-!
What the bytes of a request are: the lines of its head, and the framing of its body.

Each is read off a stream in one way only, whatever follows it, so that where one request ends and the
next begins is a matter of the bytes alone.
-/

namespace Cosmic.Http

open Cosmic.Base
open Cosmic.Wire (isLineBlank)

/-! ## Heads -/

/-- A line that is empty but for its CR. -/
def Blank (l : Bytes) : Prop := l = [] ∨ l = [13]

/-- Header lines and the blank line after them. -/
inductive FieldLines : Bytes → Prop
  | blank {l : Bytes} (hl : 10 ∉ l) (hblank : Blank l) : FieldLines (l ++ [10])
  | line {l h : Bytes} (hl : 10 ∉ l) (hline : ¬Blank l) (hrest : FieldLines h) : FieldLines (l ++ 10 :: h)

inductive HeadLines : Bytes → Prop
  | skip {l h : Bytes} (hl : 10 ∉ l) (hblank : Blank l) (hrest : HeadLines h) : HeadLines (l ++ 10 :: h)
  | first {l h : Bytes} (hl : 10 ∉ l) (hline : ¬Blank l) (hrest : FieldLines h) : HeadLines (l ++ 10 :: h)

/-! ## Bodies -/

/-- What may follow a chunk's size in its line. -/
def Extension (rest : Bytes) : Prop :=
  rest = [] ∨ ∃ blanks more, rest = blanks ++ 59 :: more ∧ ∀ b ∈ blanks, isLineBlank b

def ChunkLine (l : Bytes) (n : ℕ) : Prop :=
  13 ∉ l ∧ ∃ hex rest, l = hex ++ rest ∧ hex ≠ [] ∧ (∀ b ∈ hex, isHex b) ∧ Extension rest ∧ digits_value 16 hex = n

/-- Trailers and the blank line after them. -/
inductive Trailers : Bytes → Prop
  | blank : Trailers [13, 10]
  | line {l t : Bytes} (hl : 13 ∉ l) (hline : l ≠ []) (hrest : Trailers t) : Trailers (l ++ 13 :: 10 :: t)

inductive Chunks : Bytes → Bytes → Prop
  | last {l t : Bytes} (hl : ChunkLine l 0) (ht : Trailers t) : Chunks (l ++ 13 :: 10 :: t) []
  | chunk {l data b body : Bytes} (hl : ChunkLine l data.length) (hdata : data ≠ []) (hrest : Chunks b body) :
      Chunks (l ++ 13 :: 10 :: (data ++ 13 :: 10 :: b)) (data ++ body)

/-- The bytes that frame a body after `head`, and the body. -/
inductive Framing (head : Head) : Bytes → Bytes → Prop
  | length {b : Bytes} (hplain : head.chunked = false) (hlength : b.length = head.length.getD 0) :
      Framing head b b
  | chunks {b body : Bytes} (hchunked : head.chunked = true) (hb : Chunks b body) : Framing head b body

/-! ## One reading only -/

theorem before_unique {c : UInt8} {l l' s s' : Bytes} (hl : c ∉ l) (hl' : c ∉ l')
    (h : l ++ c :: s = l' ++ c :: s') : l = l' ∧ s = s' := by
  induction l generalizing l' with
  | nil =>
    cases l' with
    | nil => exact ⟨rfl, (List.cons.inj h).2⟩
    | cons a l' => exact absurd ((List.cons.inj h).1 ▸ List.mem_cons_self) hl'
  | cons a l ih =>
    cases l' with
    | nil => exact absurd ((List.cons.inj h).1 ▸ List.mem_cons_self) hl
    | cons b l' =>
      obtain ⟨rfl, hrest⟩ := List.cons.inj h
      obtain ⟨rfl, hs⟩ := ih (fun hmem => hl (List.mem_cons_of_mem _ hmem))
        (fun hmem => hl' (List.mem_cons_of_mem _ hmem)) hrest
      exact ⟨rfl, hs⟩

theorem FieldLines.unique {h h' t t' : Bytes} (hh : FieldLines h) (hh' : FieldLines h')
    (heq : h ++ t = h' ++ t') : h = h' ∧ t = t' := by
  induction hh generalizing h' with
  | blank hl hblank =>
    cases hh' with
    | blank hl' hblank' =>
      rw [List.append_assoc, List.append_assoc] at heq
      obtain ⟨rfl, rfl⟩ := before_unique hl hl' heq
      exact ⟨rfl, rfl⟩
    | line hl' hline' hrest' =>
      rw [List.append_assoc, List.append_assoc] at heq
      obtain ⟨rfl, -⟩ := before_unique hl hl' heq
      exact absurd hblank hline'
  | line hl hline hrest ih =>
    cases hh' with
    | blank hl' hblank' =>
      rw [List.append_assoc, List.append_assoc] at heq
      obtain ⟨rfl, -⟩ := before_unique hl hl' heq
      exact absurd hblank' hline
    | line hl' hline' hrest' =>
      rw [List.append_assoc, List.append_assoc] at heq
      obtain ⟨rfl, hmore⟩ := before_unique hl hl' heq
      obtain ⟨rfl, rfl⟩ := ih hrest' hmore
      exact ⟨rfl, rfl⟩

theorem HeadLines.unique {h h' t t' : Bytes} (hh : HeadLines h) (hh' : HeadLines h')
    (heq : h ++ t = h' ++ t') : h = h' ∧ t = t' := by
  induction hh generalizing h' with
  | skip hl hblank hrest ih =>
    cases hh' with
    | skip hl' hblank' hrest' =>
      rw [List.append_assoc, List.append_assoc] at heq
      obtain ⟨rfl, hmore⟩ := before_unique hl hl' heq
      obtain ⟨rfl, rfl⟩ := ih hrest' hmore
      exact ⟨rfl, rfl⟩
    | first hl' hline' hrest' =>
      rw [List.append_assoc, List.append_assoc] at heq
      obtain ⟨rfl, -⟩ := before_unique hl hl' heq
      exact absurd hblank hline'
  | first hl hline hrest =>
    cases hh' with
    | skip hl' hblank' hrest' =>
      rw [List.append_assoc, List.append_assoc] at heq
      obtain ⟨rfl, -⟩ := before_unique hl hl' heq
      exact absurd hblank' hline
    | first hl' hline' hrest' =>
      rw [List.append_assoc, List.append_assoc] at heq
      obtain ⟨rfl, hmore⟩ := before_unique hl hl' heq
      obtain ⟨rfl, rfl⟩ := hrest.unique hrest' hmore
      exact ⟨rfl, rfl⟩

theorem Extension.head {rest : Bytes} (h : Extension rest) : rest.takeWhile isHex = [] := by
  obtain rfl | ⟨blanks, more, rfl, hblanks⟩ := h
  · rfl
  cases blanks with
  | nil => rfl
  | cons b blanks =>
    have hb := hblanks b List.mem_cons_self
    have hnot : isHex b = false := by
      rcases Bool.or_eq_true _ _ ▸ hb with hb | hb <;> rw [beq_iff_eq.mp hb] <;> rfl
    rw [List.cons_append, List.takeWhile_cons_of_neg (by rw [hnot]; decide)]

theorem takeWhile_hex {hex rest : Bytes} (hhex : ∀ b ∈ hex, isHex b) (hrest : Extension rest) :
    (hex ++ rest).takeWhile isHex = hex := by
  rw [List.takeWhile_append_of_pos hhex, hrest.head, List.append_nil]

theorem ChunkLine.unique {l : Bytes} {n n' : ℕ} (h : ChunkLine l n) (h' : ChunkLine l n') : n = n' := by
  obtain ⟨-, hex, rest, rfl, -, hhex, hrest, rfl⟩ := h
  obtain ⟨-, hex', rest', heq, -, hhex', hrest', rfl⟩ := h'
  have htake := congrArg (List.takeWhile isHex) heq
  rw [takeWhile_hex hhex hrest, takeWhile_hex hhex' hrest'] at htake
  rw [htake]

theorem crlf_unique {l l' s s' : Bytes} (hl : 13 ∉ l) (hl' : 13 ∉ l')
    (h : l ++ 13 :: 10 :: s = l' ++ 13 :: 10 :: s') : l = l' ∧ s = s' := by
  obtain ⟨rfl, hs⟩ := before_unique hl hl' h
  exact ⟨rfl, (List.cons.inj hs).2⟩

theorem Trailers.unique {h h' t t' : Bytes} (hh : Trailers h) (hh' : Trailers h')
    (heq : h ++ t = h' ++ t') : h = h' ∧ t = t' := by
  have hno : (13 : UInt8) ∉ ([] : Bytes) := List.not_mem_nil
  induction hh generalizing h' with
  | blank =>
    cases hh' with
    | blank => exact ⟨rfl, List.append_cancel_left heq⟩
    | line hl' hline' hrest' =>
      rw [List.append_assoc] at heq
      obtain ⟨hnil, -⟩ := crlf_unique hno hl' heq
      exact absurd hnil.symm hline'
  | line hl hline hrest ih =>
    cases hh' with
    | blank =>
      rw [List.append_assoc] at heq
      obtain ⟨hnil, -⟩ := crlf_unique hl hno heq
      exact absurd hnil hline
    | line hl' hline' hrest' =>
      rw [List.append_assoc, List.append_assoc] at heq
      obtain ⟨rfl, hmore⟩ := crlf_unique hl hl' heq
      obtain ⟨rfl, rfl⟩ := ih hrest' hmore
      exact ⟨rfl, rfl⟩

theorem Chunks.unique {b b' body body' t t' : Bytes} (h : Chunks b body) (h' : Chunks b' body')
    (heq : b ++ t = b' ++ t') : b = b' ∧ body = body' ∧ t = t' := by
  induction h generalizing b' body' with
  | last hl ht =>
    cases h' with
    | last hl' ht' =>
      rw [List.append_assoc, List.append_assoc] at heq
      obtain ⟨rfl, hmore⟩ := crlf_unique hl.1 hl'.1 heq
      obtain ⟨rfl, rfl⟩ := ht.unique ht' hmore
      exact ⟨rfl, rfl, rfl⟩
    | chunk hl' hdata' hrest' =>
      rw [List.append_assoc, List.append_assoc] at heq
      obtain ⟨rfl, -⟩ := crlf_unique hl.1 hl'.1 heq
      exact absurd (List.length_eq_zero_iff.mp (hl.unique hl').symm) hdata'
  | chunk hl hdata hrest ih =>
    cases h' with
    | last hl' ht' =>
      rw [List.append_assoc, List.append_assoc] at heq
      obtain ⟨rfl, -⟩ := crlf_unique hl.1 hl'.1 heq
      exact absurd (List.length_eq_zero_iff.mp (hl.unique hl')) hdata
    | chunk hl' hdata' hrest' =>
      rw [List.append_assoc, List.append_assoc] at heq
      obtain ⟨rfl, hmore⟩ := crlf_unique hl.1 hl'.1 heq
      -- the size line says how much of what follows is data
      have hsize := hl.unique hl'
      simp only [List.append_eq, List.append_assoc] at hmore
      obtain ⟨rfl, hnext⟩ := List.append_inj hmore hsize
      obtain ⟨rfl, rfl, rfl⟩ := ih hrest' (List.cons.inj (List.cons.inj hnext).2).2
      exact ⟨rfl, rfl, rfl⟩

theorem Framing.unique {head : Head} {b b' body body' t t' : Bytes} (h : Framing head b body)
    (h' : Framing head b' body') (heq : b ++ t = b' ++ t') : b = b' ∧ body = body' ∧ t = t' := by
  cases h with
  | length hplain hlength =>
    cases h' with
    | length hplain' hlength' =>
      obtain ⟨rfl, rfl⟩ := List.append_inj heq (hlength.trans hlength'.symm)
      exact ⟨rfl, rfl, rfl⟩
    | chunks hchunked' hb' => exact absurd (hplain.symm.trans hchunked') (by decide)
  | chunks hchunked hb =>
    cases h' with
    | length hplain' hlength' => exact absurd (hplain'.symm.trans hchunked) (by decide)
    | chunks hchunked' hb' => exact hb.unique hb' heq

end Cosmic.Http
