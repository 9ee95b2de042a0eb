/-
A reply, checked and written: `wire.check` and `wire.send` of `cosmic/http/wire.tl`.

The headers are a table, here the list of its entries in the order they are met, no name twice. A Reader
is the list of what its reads answer, `.error []` its end, where the list ends too; a Writer is what its
writes came to and will come to. What closing a Reader does is left out.
-/
import Cosmic.Http.HeadRead
import Mathlib.Data.List.Sort

set_option autoImplicit false

namespace Cosmic.Http

open Cosmic.Base

/-- A header of a reply: one value, or a list of them. -/
inductive Given where
  | one (value : Bytes)
  | list (values : List Bytes)

def Given.values : Given → List Bytes
  | .one value => [value]
  | .list values => values

inductive ReplyBody where
  | none
  | string (bytes : Bytes)
  | reader (answers : List (Except Bytes Bytes))

structure Reply where
  status : ℤ
  headers : List (Bytes × Given)
  body : ReplyBody
  length : Option ℤ
  close : Bool
  method : Option Bytes
  version : Option Bytes
  date : Bytes
  nodup : (headers.map Prod.fst).Nodup

/-- How a reply went. -/
structure Sent where
  close : Bool
  write_failure : Bytes
  body_failure : Bytes

/-- How a write fails: after how many bytes, and why, which a Writer says. -/
structure Failing where
  size : ℕ
  why : Bytes
  said : why ≠ []

structure Writer where
  written : Bytes
  fails : List (Option Failing)

/-- Writes `s`: why not, where it fails. -/
def Writer.write (w : Writer) (s : Bytes) : Except Bytes Unit × Writer :=
  match w.fails with
  | some failing :: fails => (.error failing.why, ⟨w.written ++ s.take failing.size, fails⟩)
  | fails => (.ok (), ⟨w.written ++ s, fails.tail⟩)

/-! ## Texts -/

/-- `("%d"):format(n)` -/
def integer (n : ℤ) : Bytes := if n < 0 then 45 :: tostring n.natAbs else tostring n.natAbs

/-- One byte of `("%q"):format(s)`, and whether a digit follows it. -/
def quoted_byte (b : UInt8) (digit : Bool) : Bytes :=
  if b = 34 ∨ b = 92 ∨ b = 10 then [92, b]
  else if b < 32 ∨ b = 127 then
    let digits := tostring b.toNat
    92 :: if digit then List.replicate (3 - digits.length) 48 ++ digits else digits
  else [b]

/-- `("%q"):format(s)` -/
def quoted (s : Bytes) : Bytes :=
  let rec go : Bytes → Bytes
    | [] => []
    | b :: rest => quoted_byte b (rest.head?.any isDigit) ++ go rest
  34 :: go s ++ [34]

/-- `String.counted` -/
def counted (n : ℤ) (singular : Bytes) : Bytes :=
  integer n ++ lit " " ++ if n = 1 then singular else singular ++ lit "s"

/-- The reason phrase of each status this server names. -/
def REASONS : List (ℤ × Bytes) :=
  [(100, lit "Continue"), (101, lit "Switching Protocols"), (200, lit "OK"), (201, lit "Created"),
    (202, lit "Accepted"), (203, lit "Non-Authoritative Information"), (204, lit "No Content"),
    (205, lit "Reset Content"), (206, lit "Partial Content"), (300, lit "Multiple Choices"),
    (301, lit "Moved Permanently"), (302, lit "Found"), (303, lit "See Other"), (304, lit "Not Modified"),
    (307, lit "Temporary Redirect"), (308, lit "Permanent Redirect"), (400, lit "Bad Request"),
    (401, lit "Unauthorized"), (403, lit "Forbidden"), (404, lit "Not Found"),
    (405, lit "Method Not Allowed"), (406, lit "Not Acceptable"), (408, lit "Request Timeout"),
    (409, lit "Conflict"), (410, lit "Gone"), (411, lit "Length Required"),
    (412, lit "Precondition Failed"), (413, lit "Content Too Large"), (414, lit "URI Too Long"),
    (415, lit "Unsupported Media Type"), (416, lit "Range Not Satisfiable"),
    (417, lit "Expectation Failed"), (421, lit "Misdirected Request"), (422, lit "Unprocessable Content"),
    (426, lit "Upgrade Required"), (428, lit "Precondition Required"), (429, lit "Too Many Requests"),
    (431, lit "Request Header Fields Too Large"), (500, lit "Internal Server Error"),
    (501, lit "Not Implemented"), (502, lit "Bad Gateway"), (503, lit "Service Unavailable"),
    (504, lit "Gateway Timeout"), (505, lit "HTTP Version Not Supported")]

/-- `status`'s reason phrase, "" for one this server does not name. -/
def reason (status : ℤ) : Bytes := (REASONS.lookup status).getD []

/-! ## A reply checked -/

/-- The headers the server writes itself. -/
def OWNED : List Bytes := [lit "date", lit "transfer-encoding", lit "connection"]

/-- Whether a value holds CR, LF or NUL. -/
def breaks (value : Bytes) : Bool := value.any fun b => b = 13 ∨ b = 10 ∨ b = 0

/-- Why a header cannot be sent, or "". -/
def header_trouble (name : Bytes) (given : Given) : Bytes :=
  if ¬is_token name then lit "header " ++ quoted name ++ lit ": its name is no token"
  else if given.values.any breaks then lit "header " ++ name ++ lit ": its value holds CR, LF or NUL"
  else if OWNED.contains (lower name) then lit "header " ++ name ++ lit ": the server writes it itself"
  else []

/-- Why the headers cannot be sent, or "": the first trouble met. -/
def headers_trouble : List (Bytes × Given) → Bytes
  | [] => []
  | (name, given) :: headers =>
    if header_trouble name given ≠ [] then header_trouble name given else headers_trouble headers

/-- Whether a reply of `status` carries no body: a 1xx, 204 or 304. -/
def bodiless (status : ℤ) : Bool := status < 200 ∨ status = 204 ∨ status = 304

/-- Whether `name` is Content-Length, under any case. -/
def is_length (name : Bytes) : Bool := lower name = lit "content-length"

def sorted (names : List Bytes) : List Bytes := names.mergeSort (· ≤ ·)

/-- The size a reply's Content-Length header gives, nil for none; or why it cannot be sent. -/
def given_length (headers : List (Bytes × Given)) : Except Bytes (Option ℤ) :=
  match headers.filter (fun entry => is_length entry.1) with
  | [] => .ok none
  | [(name, given)] =>
    match given with
    | .list _ => .error (lit "header " ++ name ++ lit ": Content-Length is one value, not a list")
    | .one value =>
      match decimal value with
      | none => .error (lit "header " ++ name ++ lit ": " ++ quoted value ++ lit " is not digits")
      | some size =>
        if size = maxinteger then
          .error (lit "header " ++ name ++ lit ": " ++ value ++ lit " is too large")
        else .ok (some size)
  | names =>
    .error (lit "headers " ++ concat (lit " and ") (sorted (names.map Prod.fst)) ++
      lit ": Content-Length is given twice")

def ReplyBody.given : ReplyBody → ReplyBody
  | .string [] => .none
  | body => body

/-- Why a body cannot go with the size declared, or "". -/
def size_trouble (reply : Reply) (size : Option ℤ) : Bytes :=
  let body := reply.body.given
  if bodiless reply.status then
    if body matches .none then
      if size.isSome ∧ reply.status ≠ 304 then
        lit "no Content-Length goes with status " ++ integer reply.status
      else []
    else lit "no body goes with status " ++ integer reply.status
  else
    match size, body with
    | none, _ => []
    | some size, .string bytes =>
      if size ≠ bytes.length then
        lit "the Content-Length is " ++ integer size ++ lit ", but the body is " ++ counted bytes.length (lit "byte")
      else []
    | some size, .none =>
      if size ≠ 0 ∧ reply.method ≠ some (lit "HEAD") then
        lit "the Content-Length is " ++ integer size ++
          lit ", but the reply has no body: only a reply to HEAD gives a size without its bytes"
      else []
    | some _, .reader _ => []

/-- Why `reply` cannot be sent, or "". -/
def check (reply : Reply) : Bytes :=
  if reply.status < 100 ∨ reply.status > 999 then lit "the status is not from 100 to 999"
  else if headers_trouble reply.headers ≠ [] then headers_trouble reply.headers
  else
    match given_length reply.headers with
    | .error why => why
    | .ok given =>
      if reply.length.any (· < 0) then lit "the length is below 0"
      else
        match given, reply.length with
        | some given, some length =>
          if given ≠ length then
            lit "the Content-Length header is " ++ integer given ++ lit ", but the length is " ++ integer length
          else size_trouble reply (some given)
        | given, length => size_trouble reply (given <|> length)

/-! ## A reply written -/

/-- The size `reply` declares, nil for none. -/
def declared (reply : Reply) : Option ℤ :=
  match given_length reply.headers with
  | .ok (some size) => some size
  | _ => reply.length

/-- How a reply is framed: the Content-Length to write, whether it goes chunked, and whether the connection
closes after it. -/
structure Frame where
  length : Option ℤ
  chunked : Bool
  close : Bool

def reply_framing (reply : Reply) : Frame :=
  let size := declared reply
  if bodiless reply.status then ⟨if reply.status = 304 then size else none, false, reply.close⟩
  else
    match reply.body.given with
    | .none => ⟨some (size.getD 0), false, reply.close⟩
    | .string bytes => ⟨some bytes.length, false, reply.close⟩
    | .reader _ =>
      if size.isSome then ⟨size, false, reply.close⟩
      else if reply.version = some (lit "HTTP/1.1") then ⟨none, true, reply.close⟩
      else ⟨none, false, true⟩

def field_line (name value : Bytes) : Bytes := name ++ lit ": " ++ value

/-- The lines of the headers a reply gives but its Content-Length, in name order. -/
def given_fields (headers : List (Bytes × Given)) : List (Bytes × Bytes) :=
  (sorted ((headers.filter fun entry => ¬is_length entry.1).map Prod.fst)).flatMap fun name =>
    ((headers.lookup name).elim [] Given.values).map fun value => (name, value)

def reply_fields (reply : Reply) (frame : Frame) : List (Bytes × Bytes) :=
  (lit "Date", reply.date) :: given_fields reply.headers ++
    (frame.length.elim [] fun length => [(lit "Content-Length", integer length)]) ++
    (if frame.chunked then [(lit "Transfer-Encoding", lit "chunked")] else []) ++
    (if frame.close then [(lit "Connection", lit "close")] else [])

def status_line (status : ℤ) : Bytes := lit "HTTP/1.1 " ++ integer status ++ lit " " ++ reason status

def CRLF : Bytes := [13, 10]

/-- The head of `reply`. -/
def head_text (reply : Reply) (frame : Frame) : Bytes :=
  concat CRLF (status_line reply.status :: (reply_fields reply frame).map fun f => field_line f.1 f.2) ++ CRLF ++ CRLF

def chunk (piece : Bytes) : Bytes := hex piece.length ++ CRLF ++ piece ++ CRLF

def LAST_CHUNK : Bytes := lit "0" ++ CRLF ++ CRLF

/-- How the copy of a Reader body went: the writer's failure, or the Reader's. -/
structure Copied where
  write_why : Bytes
  body_why : Bytes

def wrote : Except Bytes Unit × Writer → Copied × Writer
  | (.error why, w) => (⟨why, []⟩, w)
  | (.ok (), w) => (⟨[], []⟩, w)

/-- After the last piece. -/
def finish_copy (w : Writer) (chunked : Bool) : Copied × Writer :=
  if chunked then wrote (w.write LAST_CHUNK) else (⟨[], []⟩, w)

/-- The Reader ended with `left` bytes still to come, where it was to give some number of them. -/
def end_copy (w : Writer) (left : Option ℤ) (chunked : Bool) : Copied × Writer :=
  match left with
  | some left => (⟨[], lit "the reply body ended " ++ counted left (lit "byte") ++ lit " short of its length"⟩, w)
  | none => finish_copy w chunked

/-- Copies a Reader body as `left` bytes, as chunks, or until it ends. -/
def copy_body (w : Writer) (answers : List (Except Bytes Bytes)) (left : Option ℤ) (chunked : Bool) :
    Copied × Writer :=
  if left.any (· ≤ 0) then finish_copy w chunked
  else
    match answers with
    | [] => end_copy w left chunked
    | .error why :: _ => if why ≠ [] then (⟨[], why⟩, w) else end_copy w left chunked
    | .ok piece :: answers =>
      if piece = [] then (⟨[], lit "the reply body's Reader gave an empty chunk"⟩, w)
      else if left.any (fun left => (piece.length : ℤ) > left) then
        (⟨[], lit "the reply body's Reader gave more bytes than asked for"⟩, w)
      else
        match w.write (if chunked then chunk piece else piece) with
        | (.error why, w) => (⟨why, []⟩, w)
        | (.ok (), w) => copy_body w answers (left.map fun left => left - piece.length) chunked

/-- Writes the head of `reply`, and the body its status and method let follow. -/
def send_body (w : Writer) (reply : Reply) (frame : Frame) : Copied × Writer :=
  let head := head_text reply frame
  if reply.method = some (lit "HEAD") ∨ bodiless reply.status then wrote (w.write head)
  else
    match reply.body with
    | .none => wrote (w.write head)
    | .string bytes => wrote (w.write (head ++ bytes))
    | .reader answers =>
      match w.write head with
      | (.error why, w) => (⟨why, []⟩, w)
      | (.ok (), w) => copy_body w answers frame.length frame.chunked

/-- Writes `reply`, which `check` passed. -/
def send (w : Writer) (reply : Reply) : Sent × Writer :=
  let frame := reply_framing reply
  let (copied, w) := send_body w reply frame
  (⟨frame.close ∨ copied.write_why ≠ [] ∨ copied.body_why ≠ [], copied.write_why, copied.body_why⟩, w)

end Cosmic.Http

/-!
A reply's head, read back: its header lines, by the rules a request's are read by.
-/

namespace Cosmic.Http

open Cosmic.Base
open Cosmic.Wire (isToken isSpecial isLineBlank)

/-! ## What a reply that may be sent holds -/

structure Writes (f : Bytes × Bytes) : Prop where
  name : is_token f.1 = true
  value : breaks f.2 = false

variable {headers : List (Bytes × Given)}

variable {reply : Reply}

/-- A field that reads back: its name a token, its value without a control but HTAB. -/
structure Plain (f : Bytes × Bytes) : Prop where
  name : is_token f.1 = true
  value : f.2.any isSpecial = false

variable {f : Bytes × Bytes}

theorem Plain.token (h : Plain f) : f.1 ≠ [] ∧ ∀ b ∈ f.1, isToken b = true := by
  have hname := h.name
  unfold is_token at hname
  rw [Bool.and_eq_true, decide_eq_true_eq] at hname
  exact ⟨hname.1, List.all_eq_true.mp hname.2⟩

theorem Plain.line (h : Plain f) : field_line f.1 f.2 ≠ [] ∧ 10 ∉ field_line f.1 f.2 ∧ 13 ∉ field_line f.1 f.2 := by
  obtain ⟨hsome, htoken⟩ := h.token
  have hvalue : ∀ b ∈ f.2, isSpecial b = false := by
    intro b hb
    refine Bool.eq_false_iff.mpr fun hspecial => ?_
    have hany := List.any_eq_true.mpr ⟨b, hb, hspecial⟩
    rw [h.value] at hany
    cases hany
  have hnot : ∀ c : UInt8, isToken c = false → isSpecial c = true → c ≠ 58 → c ≠ 32 → c ∉ field_line f.1 f.2 := by
    intro c hc hspecial hcolon hspace hmem
    rcases List.mem_append.mp hmem with hmem | hmem
    · rcases List.mem_append.mp hmem with hmem | hmem
      · exact absurd (htoken c hmem) (by simp [hc])
      · have hsep : c ∈ [58, 32] := hmem
        simp [hcolon, hspace] at hsep
    · exact absurd (hvalue c hmem) (by simp [hspecial])
  refine ⟨?_, hnot 10 (by decide) (by decide) (by decide) (by decide),
    hnot 13 (by decide) (by decide) (by decide) (by decide)⟩
  intro hnil
  exact hsome (List.append_eq_nil_iff.mp (List.append_eq_nil_iff.mp hnil).1).1

variable {input : Input} {rest : Bytes}

end Cosmic.Http
