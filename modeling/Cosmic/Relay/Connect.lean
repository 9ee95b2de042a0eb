/-
The reader of a CONNECT request head: `connect_reader` of `cosmic/internal/relay_wire.tl`.

What the head has said so far is a record of its own, which is all that a whole line changes; the
source has one flat record. The loop over a chunk is given one round for each of its bytes, as every
round takes a byte at least.
-/
import Cosmic.Relay.Socks

set_option autoImplicit false

namespace Cosmic.Wire

open Cosmic.Base

def MAX_LINE : ℕ := 8192
def MAX_HEAD : ℕ := 16384
def MAX_HEADERS : ℕ := 100

/-- `String.counted` -/
def counted (n : ℕ) (singular : Bytes) : Bytes :=
  tostring n ++ lit " " ++ (if n = 1 then singular else singular ++ lit "s")

/-- `SPECIAL`: a byte no line holds, or one that ends a line. -/
def isSpecial (b : UInt8) : Bool := b ≤ 8 || (10 ≤ b && b ≤ 31) || b == 127

/-- `[ \t]` -/
def isLineBlank (b : UInt8) : Bool := b == 32 || b == 9

/-- `TOKEN`, of one byte: letters, digits and the marks a header name may hold. -/
def isToken (b : UInt8) : Bool :=
  isAlpha b || isDigit b || [33, 35, 36, 37, 38, 39, 42, 43, 45, 46, 94, 95, 96, 124, 126].contains b

/-- `%02x` -/
def hex2 (b : UInt8) : Bytes := (if b.toNat < 16 then lit "0" else []) ++ hex b.toNat

structure Connect where
  status : Status
  consumed : ℕ
  reason : Option Bytes := none
  http_status : Option ℕ := none
  host : Option Bytes := none
  kind : Option Kind := none
  port : Option ℕ := none
  authorization : Option Bytes := none
  deriving DecidableEq, Repr

def Connect.Done (a : Connect) : Prop := a.status = .done

def refused (why : Bytes) (http_status : ℕ) : Connect :=
  { status := .refused, consumed := 0, reason := some why, http_status := some http_status }

/-- `value` without the blanks at its ends. -/
def trimmed (value : Bytes) : Bytes :=
  match find (fun b => !isLineBlank b) value 1 with
  | none => []
  | some first =>
    match find (fun b => !isLineBlank b) value.reverse 1 with
    | none => []
    | some back => sub value first (value.length - back + 1)

/-- What `^CONNECT ([^ ]*) ([^ ]*)$` captures. -/
def connect_target (content : Bytes) : Option (Bytes × Bytes) :=
  match content.splitOn 32 with
  | [method, target, version] => if method = lit "CONNECT" then some (target, version) else none
  | _ => none

/-- What `^([^:]*):(.*)$` captures. -/
def header_of (content : Bytes) : Option (Bytes × Bytes) :=
  (index_of (lit ":") content).map fun colon => (content.take colon, content.drop (colon + 1))

/-- What the head has said so far. -/
structure Said where
  first : Bool := true
  count : ℕ := 0
  authorization : Option Bytes := none
  host : Option Bytes := none
  kind : Option Kind := none
  port : Option ℕ := none
  deriving DecidableEq, Repr

def request_line (said : Said) (content : Bytes) : Except Connect Said :=
  let said := { said with first := false }
  if content.takeWhile (fun b => !isLineBlank b) ≠ lit "CONNECT" then
    .error (refused (lit "plain HTTP is not relayed: only CONNECT host:port is accepted") 405)
  else
    match connect_target content with
    | none =>
      .error (refused (lit "malformed request line (expected CONNECT host:port HTTP/1.1)") 400)
    | some (target, version) =>
      if version ≠ lit "HTTP/1.1" ∧ version ≠ lit "HTTP/1.0" then
        .error (refused (lit "unsupported HTTP version " ++ version ++ lit " (HTTP/1.1 or HTTP/1.0)") 505)
      else
        match authority target with
        | .error trouble => .error (refused trouble 400)
        | .ok found =>
          .ok { said with host := some found.host, kind := some found.kind, port := some found.port }

def header_line (said : Said) (content : Bytes) : Except Connect Said :=
  let said := { said with count := said.count + 1 }
  if said.count > MAX_HEADERS then
    .error (refused (lit "more than " ++ counted MAX_HEADERS (lit "header")) 431)
  else
    match header_of content with
    | none => .error (refused (lit "a header line without a colon") 400)
    | some (name, value) =>
      if ¬(name ≠ [] ∧ name.all isToken) then
        .error (refused (lit "a header name that is not a token") 400)
      else if lower name = lit "proxy-authorization" then
        if said.authorization.isSome then
          .error (refused (lit "a repeated Proxy-Authorization header") 400)
        else .ok { said with authorization := some (trimmed value) }
      else .ok said

/-- What a whole line, ending at position `at_`, decides: an answer, or what is said to go on with. -/
def line (said : Said) (content : Bytes) (at_ : ℕ) : Except Connect Said :=
  if said.first then request_line said content
  else if content = [] then
    .error
      { status := .done, consumed := at_, host := said.host, kind := said.kind, port := said.port
        authorization := said.authorization }
  else if content.head?.any isLineBlank then
    .error (refused (lit "an obsolete header line fold (a line starting with whitespace)") 400)
  else header_line said content

structure Reading where
  final : Option Connect := none
  seen : ℕ := 0
  line_start : ℕ := 1
  pieces : List Bytes := []
  after_cr : Bool := false
  said : Said := {}

def finish (st : Reading) (answer : Connect) : Reading × Connect :=
  ({ st with final := some answer, pieces := [] }, answer)

def head_refusal : Connect := refused (lit "request head longer than " ++ counted MAX_HEAD (lit "byte")) 431

def line_refusal (first : Bool) : Connect :=
  refused ((if first then lit "request line" else lit "header line") ++ lit " longer than " ++
      counted MAX_LINE (lit "byte"))
    (if first then 414 else 431)

def special_byte (st : Reading) (byte : UInt8) : Except Connect Reading :=
  if byte = 13 then .ok { st with after_cr := true }
  else if byte = 10 then .error (refused (lit "a bare LF line ending (lines end in CRLF)") 400)
  else
    .error (refused (lit "control byte 0x" ++ hex2 byte ++ lit " in the request head") 400)

/-- The bytes from `i` to `last`, none of them a control byte. -/
def plain_bytes (st : Reading) (chunk : Bytes) (i last : ℕ) : Except Connect Reading :=
  let excess_at := st.line_start + MAX_LINE
  let line_hit := st.seen + last ≥ excess_at
  let head_hit := st.seen + last > MAX_HEAD
  if head_hit ∧ (¬line_hit ∨ MAX_HEAD + 1 ≤ excess_at) then .error head_refusal
  else if line_hit then .error (line_refusal st.said.first)
  else .ok { st with pieces := st.pieces ++ [sub chunk i last] }

/-- One round of the loop over a chunk, from position `i`: an answer, or the state and the position to
go on from. -/
def connect_round (chunk : Bytes) (st : Reading) (i : ℕ) : Except Connect (Reading × ℕ) :=
  if st.seen + i > MAX_HEAD then .error head_refusal
  else if st.after_cr then
    if byte_at chunk i ≠ 10 then
      .error (refused (lit "a carriage return outside a CRLF line ending") 400)
    else
      (line st.said st.pieces.flatten (st.seen + i)).map fun said =>
        ({ st with after_cr := false, pieces := [], line_start := st.seen + i + 1, said := said }, i + 1)
  else
    match find isSpecial chunk i with
    | none => (plain_bytes st chunk i chunk.length).map fun st => (st, chunk.length + 1)
    | some special =>
      match if special - 1 ≥ i then plain_bytes st chunk i (special - 1) else .ok st with
      | .error answer => .error answer
      | .ok st =>
        if st.seen + special > MAX_HEAD then .error head_refusal
        else (special_byte st (byte_at chunk special)).map fun st => (st, special + 1)

def connect_loop (chunk : Bytes) : ℕ → Reading → ℕ → Except (Reading × Connect) Reading
  | 0, st, _ => .ok st
  | rounds + 1, st, i =>
    if i ≤ chunk.length then
      match connect_round chunk st i with
      | .error answer => .error (finish st answer)
      | .ok (st, i) => connect_loop chunk rounds st i
    else .ok st

def connect_reader : Feeder Reading Connect where
  start := {}
  feed st chunk :=
    match st.final with
    | some final => (st, final)
    | none =>
      match connect_loop chunk chunk.length st 1 with
      | .error done => done
      | .ok st => ({ st with seen := st.seen + chunk.length }, { status := .more, consumed := 0 })

end Cosmic.Wire
