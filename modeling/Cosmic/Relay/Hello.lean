/-
The reader of a TLS ClientHello: `hello_name`, `record_header` and `hello_reader` of
`cosmic/internal/relay_wire.tl`.

Positions in a text count from 1. The loops over extensions, names and records are given one round
for each byte there is, as every round takes a byte at least.
-/
import Cosmic.Relay.Connect

set_option autoImplicit false

namespace Cosmic.Wire

open Cosmic.Base

def MAX_HELLO : ℕ := 16384
def MAX_RECORDS : ℕ := 64

/-- What a ClientHello says of its server name. -/
inductive SniStatus where
  | more
  | name
  | no_sni
  | encrypted_sni
  | not_tls
  | malformed
  deriving DecidableEq, Repr

/-- The server name of a ClientHello. -/
structure Hello where
  status : SniStatus
  consumed : ℕ
  name : Option Bytes := none
  reason : Option Bytes := none
  deriving DecidableEq, Repr

def u16 (text : Bytes) (at_ : ℕ) : ℕ := (byte_at text at_).toNat * 256 + (byte_at text (at_ + 1)).toNat

/-! ## The hello -/

/-- What a ClientHello says of its server: the name, or nothing for none, and whether an extension
encrypts it. -/
structure ServerName where
  name : Bytes
  encrypted : Bool
  deriving DecidableEq, Repr

/-- `ENCRYPTED`: the extensions that carry the server name encrypted. -/
def ENCRYPTED (kind : ℕ) : Bool := [0xfe0d, 0xffce, 0xff02, 0xff03].contains kind

/-- One round of the loop over the names of a `server_name` list, from position `entry`: the name
found and the position to go on from. -/
def name_entry (list found : Bytes) (entry : ℕ) : Except Bytes (Bytes × ℕ) :=
  if entry + 2 > list.length then .error (lit "server_name entry past its end")
  else
    let entry_length := u16 list (entry + 1)
    if entry + 2 + entry_length > list.length then .error (lit "server_name entry past its end")
    else if byte_at list entry ≠ 0 then
      .error (lit "server_name entry of a type that is not host_name")
    else if found ≠ [] then .error (lit "server_name names two hosts")
    else
      match Grant.name (sub list (entry + 3) (entry + 2 + entry_length)) with
      | .error why => .error (lit "server_name is not a host name: " ++ why)
      | .ok name => .ok (name, entry + 3 + entry_length)

def name_loop (list : Bytes) : ℕ → Bytes → ℕ → Except Bytes Bytes
  | 0, found, _ => .ok found
  | rounds + 1, found, entry =>
    if entry ≤ list.length then
      match name_entry list found entry with
      | .error why => .error why
      | .ok (found, entry) => name_loop list rounds found entry
    else .ok found

/-- The name that a `server_name` extension of the bytes `list` holds, after the name `found`. -/
def server_name (list found : Bytes) : Except Bytes Bytes :=
  if list.length < 2 ∨ (u16 list 1 : ℤ) ≠ (list.length : ℤ) - 2 ∨ list.length = 2 then
    .error (lit "server_name extension whose list length does not match")
  else name_loop list list.length found 3

/-- What the extensions have said so far. -/
structure Seen where
  seen : List ℕ := []
  found : Bytes := []
  encrypted : Bool := false

/-- One round of the loop over the extensions, from position `at_`. -/
def extension (body : Bytes) (st : Seen) (at_ : ℕ) : Except Bytes (Seen × ℕ) :=
  if at_ + 3 > body.length then .error (lit "ClientHello extension header past its end")
  else
    let kind := u16 body at_
    let length := u16 body (at_ + 2)
    if at_ + 3 + length > body.length then .error (lit "ClientHello extension past its end")
    else if kind ∈ st.seen then .error (lit "ClientHello repeats an extension")
    else
      let encrypted := st.encrypted || ENCRYPTED kind
      if kind = 0 then
        (server_name (sub body (at_ + 4) (at_ + 3 + length)) st.found).map fun found =>
          (⟨kind :: st.seen, found, encrypted⟩, at_ + 4 + length)
      else .ok (⟨kind :: st.seen, st.found, encrypted⟩, at_ + 4 + length)

def extension_loop (body : Bytes) : ℕ → Seen → ℕ → Except Bytes ServerName
  | 0, st, _ => .ok ⟨st.found, st.encrypted⟩
  | rounds + 1, st, at_ =>
    if at_ ≤ body.length then
      match extension body st at_ with
      | .error why => .error why
      | .ok (st, at_) => extension_loop body rounds st at_
    else .ok ⟨st.found, st.encrypted⟩

def after_methods (body : Bytes) : Except Bytes ℕ :=
  let size := body.length
  if size < 35 then .error (lit "ClientHello shorter than its fixed fields")
  else
    let session := (byte_at body 35).toNat
    if session > 32 ∨ 35 + session > size then .error (lit "ClientHello session id past its end")
    else
      let at_ := 35 + 1 + session
      if at_ + 1 > size then .error (lit "ClientHello cipher suites past its end")
      else
        let suites := u16 body at_
        if suites < 2 ∨ suites % 2 = 1 ∨ at_ + 1 + suites > size then
          .error (lit "ClientHello cipher suites past its end or odd")
        else
          let at_ := at_ + 2 + suites
          if at_ > size then .error (lit "ClientHello compression methods past its end")
          else
            let methods := (byte_at body at_).toNat
            if methods < 1 ∨ at_ + methods > size then
              .error (lit "ClientHello compression methods past its end")
            else .ok (at_ + 1 + methods)

def hello_name (body : Bytes) : Except Bytes ServerName :=
  let size := body.length
  match after_methods body with
  | .error why => .error why
  | .ok at_ =>
    if at_ = size + 1 then .ok ⟨[], false⟩
    else if at_ + 1 > size then .error (lit "ClientHello extensions length cut short")
    else if (u16 body at_ : ℤ) ≠ (size : ℤ) - at_ - 1 then
      .error (lit "ClientHello extensions length does not reach the end of the hello")
    else extension_loop body size {} (at_ + 2)

/-! ## Records -/

def malformed (why : Bytes) : Hello := { status := .malformed, consumed := 0, reason := some why }

/-- A record header that does not begin a record of the hello's. -/
def wrong (first : Bool) (why : Bytes) : Hello :=
  if first then { status := .not_tls, consumed := 0, reason := some why }
  else malformed (lit "a ClientHello continued by " ++ why)

/-- A record of a version the reader does not know. -/
def versioned (first : Bool) (why : Bytes) : Hello :=
  if first then malformed why else wrong first why

/-- The bytes of a record header at position `pos` of `data`, judged as far as they go: a refusal, or
the record's length once all five are there (0 until then). -/
def record_header (data : Bytes) (pos : ℕ) (first : Bool) : Except Hello ℕ :=
  let have_ := data.length + 1 - pos
  if have_ < 1 then .ok 0
  else if byte_at data pos ≠ 22 then
    .error (wrong first (lit "a record whose first byte 0x" ++ hex2 (byte_at data pos) ++
      lit " is not a TLS handshake record"))
  else if have_ < 2 then .ok 0
  else if byte_at data (pos + 1) ≠ 3 then
    .error (versioned first (lit "a handshake record of a version that is not SSL 3 or TLS"))
  else if have_ < 3 then .ok 0
  else if byte_at data (pos + 2) > 4 then
    .error (versioned first (lit "a handshake record of a version past TLS 1.3"))
  else if have_ < 5 then .ok 0
  else
    let length := u16 data (pos + 3)
    if length = 0 ∨ length > 16384 then
      .error (malformed (lit "a handshake record of length " ++ tostring length))
    else .ok length

/-! ## The reader -/

structure HelloReading where
  final : Option Hello := none
  pending : List Bytes := []
  pending_len : ℕ := 0
  need : ℕ := 5
  base : ℕ := 0
  records : ℕ := 0
  parts : List Bytes := []
  gathered : ℕ := 0
  total : Option ℕ := none

def hello_finish (st : HelloReading) (answer : Hello) : HelloReading × Hello :=
  ({ st with final := some answer, pending := [], parts := [] }, answer)

/-- The size that the header of the handshake message `message` announces. -/
def announced (message : Bytes) : ℕ :=
  (byte_at message 2).toNat * 65536 + (byte_at message 3).toNat * 256 + (byte_at message 4).toNat

def message_refusal (kind : UInt8) : Hello :=
  malformed (counted_byte (lit "handshake message type ") kind (lit " is not a ClientHello"))

def size_refusal (size : ℕ) : Hello :=
  malformed (lit "a ClientHello of " ++ counted size (lit "byte") ++ lit " (at most " ++
    tostring MAX_HELLO ++ lit ")")

def records_refusal : Hello := malformed (lit "a ClientHello in more than " ++ counted MAX_RECORDS (lit "record"))

def surplus_refusal : Hello := malformed (lit "bytes after the ClientHello in its last record")

/-- The size of the hello, once its header is in: read from the parts at the record that completes the
header. -/
def hello_total (st : HelloReading) : Except Hello (HelloReading × Option ℕ) :=
  match st.total with
  | some size => .ok (st, some size)
  | none =>
    if st.gathered < 4 then .ok (st, none)
    else
      let message := st.parts.flatten
      if byte_at message 1 ≠ 1 then .error (message_refusal (byte_at message 1))
      else if announced message > MAX_HELLO then .error (size_refusal (announced message))
      else
        .ok ({ st with parts := [message], total := some (announced message) }, some (announced message))

/-- What a whole hello says, `consumed` bytes into the stream. -/
def hello_answer (message : Bytes) (consumed : ℕ) : Hello :=
  match hello_name (sub message 5 message.length) with
  | .error why => malformed why
  | .ok server =>
    if server.encrypted then
      { status := .encrypted_sni, consumed := consumed
        reason := some (lit "the hello carries an encrypted server name (Encrypted Client Hello or encrypted SNI), so its server_name is only a public name") }
    else if server.name = [] then { status := .no_sni, consumed := consumed }
    else { status := .name, consumed := consumed, name := some server.name }

/-- Takes the whole record at `data`'s `pos`, of `length` payload bytes: an answer, or the state to go
on with. -/
def hello_take (st : HelloReading) (data : Bytes) (pos length : ℕ) : Except Hello HelloReading :=
  let st := { st with records := st.records + 1 }
  if st.records > MAX_RECORDS then .error records_refusal
  else
    let part := sub data (pos + 5) (pos + 4 + length)
    let st := { st with parts := st.parts ++ [part], gathered := st.gathered + length }
    match hello_total st with
    | .error answer => .error answer
    | .ok (st, none) => .ok st
    | .ok (st, some size) =>
      if st.gathered < 4 + size then .ok st
      else if st.gathered > 4 + size then .error surplus_refusal
      else .error (hello_answer st.parts.flatten (st.base + pos + 4 + length))

/-- The loop over the records of `data`, from position `pos`: an answer, or the state and the position
of the record in progress. -/
def record_loop (data : Bytes) : ℕ → HelloReading → ℕ → Except (HelloReading × Hello) (HelloReading × ℕ)
  | 0, st, pos => .ok (st, pos)
  | rounds + 1, st, pos =>
    match record_header data pos (st.records == 0) with
    | .error refusal => .error (hello_finish st refusal)
    | .ok length =>
      if length = 0 then .ok ({ st with need := 5 }, pos)
      else if data.length + 1 - pos < 5 + length then .ok ({ st with need := 5 + length }, pos)
      else
        match hello_take st data pos length with
        | .error answer => .error (hello_finish st answer)
        | .ok st => record_loop data rounds st (pos + 5 + length)

def hello_reader : Feeder HelloReading Hello where
  start := {}
  feed st chunk :=
    match st.final with
    | some final => (st, final)
    | none =>
      let st := { st with pending := st.pending ++ [chunk], pending_len := st.pending_len + chunk.length }
      if st.pending_len < st.need then
        match if st.pending_len < 5 then record_header st.pending.flatten 1 (st.records == 0)
          else .ok 0 with
        | .error early => hello_finish st early
        | .ok _ => (st, { status := .more, consumed := 0 })
      else
        let data := st.pending.flatten
        match record_loop data (data.length + 1) st 1 with
        | .error done => done
        | .ok (st, pos) =>
          let rest := if pos = 1 then data else sub data pos data.length
          ({ st with base := st.base + pos - 1, pending := [rest], pending_len := rest.length },
            { status := .more, consumed := 0 })

end Cosmic.Wire
