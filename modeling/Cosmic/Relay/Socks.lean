/-
The relay's SOCKS5 messages and their readers, as `cosmic/internal/relay_wire.tl` has them: what a
server reads and answers, and what a client does.

A message is read whole from what has been fed so far, positions counting from 1.
-/
import Cosmic.Base.Feed
import Cosmic.Relay.Grant

set_option autoImplicit false

namespace Cosmic.Wire

open Cosmic.Base

/-- The byte at a position of a text. (The source raises past its end; every use is behind a check of
the text's length.) -/
def byte_at (text : Bytes) (index : ℕ) : UInt8 := (byte text index).getD 0

/-- What a reader has decided so far. -/
inductive Status where
  | more
  | done
  | refused
  deriving DecidableEq, Repr

/-- `("… %d …"):format(b)`, for a byte. -/
def counted_byte (before : Bytes) (b : UInt8) (after : Bytes) : Bytes := before ++ tostring b.toNat ++ after

/-! ## The greeting -/

structure SocksGreeting where
  status : Status
  consumed : ℕ
  reason : Option Bytes := none
  method : Option ℕ := none
  deriving DecidableEq, Repr

def SocksGreeting.Done (a : SocksGreeting) : Prop := a.status = .done

/-- The SOCKS5 greeting at the start of `buf`, whole. -/
def read_greeting (buf : Bytes) (password : Bool) : SocksGreeting :=
  if buf.length < 1 then { status := .more, consumed := 0 }
  else if byte_at buf 1 ≠ 5 then
    { status := .refused, consumed := 0
      reason := some (counted_byte (lit "SOCKS version ") (byte_at buf 1) (lit " is not supported (only 5)")) }
  else if buf.length < 2 then { status := .more, consumed := 0 }
  else
    let count := (byte_at buf 2).toNat
    let want : UInt8 := if password then 2 else 0
    if count = 0 then
      { status := .refused, consumed := 0, method := some 255
        reason := some (lit "no authentication method offered") }
    else if buf.length < 2 + count then { status := .more, consumed := 0 }
    else if want ∈ sub buf 3 (2 + count) then
      { status := .done, consumed := 2 + count, method := some want.toNat }
    else
      { status := .refused, consumed := 0, method := some 255
        reason := some (if password then
            lit "the sandbox's token needs username/password authentication (method 0x02)"
          else lit "no-authentication (method 0x00) was not offered") }

def socks_method_reply (method : UInt8) : Bytes := [5, method]

/-! ## The username and password -/

structure SocksAuth where
  status : Status
  consumed : ℕ
  reason : Option Bytes := none
  username : Option Bytes := none
  password : Option Bytes := none
  deriving DecidableEq, Repr

def SocksAuth.Done (a : SocksAuth) : Prop := a.status = .done

/-- The RFC 1929 username and password at the start of `buf`, whole: both from 1 to 255 bytes. -/
def read_auth (buf : Bytes) : SocksAuth :=
  if buf.length < 1 then { status := .more, consumed := 0 }
  else if byte_at buf 1 ≠ 1 then
    { status := .refused, consumed := 0
      reason := some (counted_byte (lit "username/password version ") (byte_at buf 1)
        (lit " is not supported (only 1)")) }
  else if buf.length < 2 then { status := .more, consumed := 0 }
  else
    let ulen := (byte_at buf 2).toNat
    if ulen = 0 then
      { status := .refused, consumed := 0, reason := some (lit "empty username") }
    else if buf.length < 2 + ulen + 1 then { status := .more, consumed := 0 }
    else
      let plen := (byte_at buf (3 + ulen)).toNat
      if plen = 0 then
        { status := .refused, consumed := 0, reason := some (lit "empty password") }
      else if buf.length < 3 + ulen + plen then { status := .more, consumed := 0 }
      else
        { status := .done, consumed := 3 + ulen + plen, username := some (sub buf 3 (2 + ulen))
          password := some (sub buf (4 + ulen) (3 + ulen + plen)) }

def socks_auth_reply (ok : Bool) : Bytes := if ok then [1, 0] else [1, 1]

/-! ## The request -/

inductive SocksReply where
  | succeeded
  | failure
  | not_allowed
  | network_unreachable
  | host_unreachable
  | refused
  | ttl_expired
  | command_not_supported
  | address_type_not_supported
  deriving DecidableEq, Repr

/-- `SOCKS_CODES` -/
def SocksReply.code : SocksReply → UInt8
  | .succeeded => 0
  | .failure => 1
  | .not_allowed => 2
  | .network_unreachable => 3
  | .host_unreachable => 4
  | .refused => 5
  | .ttl_expired => 6
  | .command_not_supported => 7
  | .address_type_not_supported => 8

structure SocksRequest where
  status : Status
  consumed : ℕ
  reason : Option Bytes := none
  reply : Option SocksReply := none
  host : Option Bytes := none
  kind : Option Kind := none
  port : Option ℕ := none
  deriving DecidableEq, Repr

def SocksRequest.Done (a : SocksRequest) : Prop := a.status = .done

def socks_refused (reply : SocksReply) (why : Bytes) : SocksRequest :=
  { status := .refused, consumed := 0, reply := some reply, reason := some why }

/-- The eight groups of the address from position 5 on, in hexadecimal. -/
def request_groups (buf : Bytes) : Bytes :=
  concat (lit ":") ((List.range 8).map fun i =>
    hex ((byte_at buf (5 + 2 * i)).toNat * 256 + (byte_at buf (6 + 2 * i)).toNat))

/-- The host of a request, its kind and the position of the port, or the answer where there is none. -/
def request_host (buf : Bytes) : Except SocksRequest (Bytes × Kind × ℕ) :=
  let atyp := byte_at buf 4
  if atyp = 1 then
    if buf.length < 8 then .error { status := .more, consumed := 0 }
    else
      .ok (concat (lit ".") ([5, 6, 7, 8].map fun i => tostring (byte_at buf i).toNat), .ipv4, 9)
  else if atyp = 4 then
    if buf.length < 20 then .error { status := .more, consumed := 0 }
    else
      match ipv6 (request_groups buf) with
      | .error why => .error (socks_refused .failure why)
      | .ok text => .ok (text, .ipv6, 21)
  else if atyp = 3 then
    if buf.length < 5 then .error { status := .more, consumed := 0 }
    else
      let length := (byte_at buf 5).toNat
      if length = 0 then .error (socks_refused .failure (lit "empty domain name"))
      else if buf.length < 5 + length then .error { status := .more, consumed := 0 }
      else
        match Grant.name (sub buf 6 (5 + length)) with
        | .error why => .error (socks_refused .failure why)
        | .ok name => .ok (name, .name, 6 + length)
  else
    .error (socks_refused .address_type_not_supported
      (counted_byte (lit "SOCKS address type ") atyp (lit " is not supported")))

/-- The SOCKS5 request at the start of `buf`, whole. -/
def read_request (buf : Bytes) : SocksRequest :=
  if buf.length < 1 then { status := .more, consumed := 0 }
  else if byte_at buf 1 ≠ 5 then
    socks_refused .failure (counted_byte (lit "SOCKS version ") (byte_at buf 1) (lit " is not supported (only 5)"))
  else if buf.length < 2 then { status := .more, consumed := 0 }
  else if byte_at buf 2 ≠ 1 then
    socks_refused .command_not_supported
      (counted_byte (lit "SOCKS command ") (byte_at buf 2) (lit " is not relayed (only CONNECT, 1)"))
  else if buf.length < 3 then { status := .more, consumed := 0 }
  else if byte_at buf 3 ≠ 0 then
    socks_refused .failure (lit "the reserved byte of the request is not 0")
  else if buf.length < 4 then { status := .more, consumed := 0 }
  else
    match request_host buf with
    | .error answer => answer
    | .ok (host, kind, at_) =>
      if buf.length < at_ + 1 then { status := .more, consumed := 0 }
      else
        let port := (byte_at buf at_).toNat * 256 + (byte_at buf (at_ + 1)).toNat
        if port = 0 then socks_refused .failure (lit "port 0")
        else
          { status := .done, consumed := at_ + 1, host := some host, kind := some kind
            port := some port }

/-- The reply to a request, with the bound address 0.0.0.0:0. -/
def socks_reply (which : SocksReply) : Bytes := [5, which.code, 0, 1, 0, 0, 0, 0, 0, 0]

/-! ## What a client sends -/

def socks_client_greeting (with_password : Bool) : Bytes :=
  if with_password then [5, 1, 2] else [5, 1, 0]

def socks_client_auth (user password : Bytes) : Except Bytes Bytes :=
  if user = [] then .error (lit "the username is empty")
  else if password = [] then .error (lit "the password is empty")
  else if user.length > 255 then .error (lit "the username is longer than 255 bytes")
  else if password.length > 255 then .error (lit "the password is longer than 255 bytes")
  else
    .ok ([1] ++ [UInt8.ofNat user.length] ++ user ++ [UInt8.ofNat password.length] ++ password)

/-- The CONNECT request a client sends for `host` and `port`. -/
def socks_client_request (host : Bytes) (port : ℤ) : Except Bytes Bytes :=
  if port < 1 ∨ port > 65535 then .error (lit "the port is not a number from 1 to 65535")
  else
    let tail := [UInt8.ofNat (port.toNat / 256), UInt8.ofNat (port.toNat % 256)]
    match octets host with
    | some four => .ok ([5, 1, 0, 1] ++ four ++ tail)
    | none =>
      match ipv6_bytes host with
      | .ok six => .ok ([5, 1, 0, 4] ++ six.1 ++ tail)
      | .error _ =>
        if host = [] then .error (lit "the host is empty")
        else if host.length > 255 then .error (lit "the host name is longer than 255 bytes")
        else .ok ([5, 1, 0, 3] ++ [UInt8.ofNat host.length] ++ host ++ tail)

/-! ## What a client reads -/

structure SocksMethodAnswer where
  status : Status
  consumed : ℕ
  reason : Option Bytes := none
  method : Option ℕ := none
  deriving DecidableEq, Repr

def SocksMethodAnswer.Done (a : SocksMethodAnswer) : Prop := a.status = .done

/-- The method choice at the start of `buf`, whole. -/
def read_method_answer (buf : Bytes) (password : Bool) : SocksMethodAnswer :=
  if buf.length < 1 then { status := .more, consumed := 0 }
  else if byte_at buf 1 ≠ 5 then
    { status := .refused, consumed := 0
      reason := some (counted_byte (lit "SOCKS version ") (byte_at buf 1) (lit " in the answer, not 5")) }
  else if buf.length < 2 then { status := .more, consumed := 0 }
  else
    let method := byte_at buf 2
    let offered : UInt8 := if password then 2 else 0
    if method = offered then { status := .done, consumed := 2, method := some method.toNat }
    else if method = 255 then
      { status := .refused, consumed := 0, method := some 255
        reason := some (lit "no authentication method offered is accepted") }
    else
      { status := .refused, consumed := 0
        reason := some (counted_byte (lit "the method ") method
          (counted_byte (lit " chosen is not one offered (only ") offered (lit ")"))) }

structure SocksAuthAnswer where
  status : Status
  consumed : ℕ
  reason : Option Bytes := none
  accepted : Option Bool := none
  deriving DecidableEq, Repr

def SocksAuthAnswer.Done (a : SocksAuthAnswer) : Prop := a.status = .done

/-- The verdict on a username and password at the start of `buf`, whole. -/
def read_auth_answer (buf : Bytes) : SocksAuthAnswer :=
  if buf.length < 1 then { status := .more, consumed := 0 }
  else if byte_at buf 1 ≠ 1 then
    { status := .refused, consumed := 0
      reason := some (counted_byte (lit "username/password version ") (byte_at buf 1) (lit " in the answer, not 1")) }
  else if buf.length < 2 then { status := .more, consumed := 0 }
  else { status := .done, consumed := 2, accepted := some (byte_at buf 2 == 0) }

structure SocksAnswer where
  status : Status
  consumed : ℕ
  reason : Option Bytes := none
  code : Option ℕ := none
  reply : Option SocksReply := none
  deriving DecidableEq, Repr

def SocksAnswer.Done (a : SocksAnswer) : Prop := a.status = .done

/-- `SOCKS_REPLIES`, the reply codes by number. -/
def SOCKS_REPLIES (code : UInt8) : Option SocksReply :=
  [.succeeded, .failure, .not_allowed, .network_unreachable, .host_unreachable, .refused,
    .ttl_expired, .command_not_supported, .address_type_not_supported].find? (·.code == code)

/-- The width of an answer's bound address, or the answer where there is none. -/
def answer_width (buf : Bytes) : Except SocksAnswer ℕ :=
  let atyp := byte_at buf 4
  if atyp = 1 then .ok 4
  else if atyp = 4 then .ok 16
  else if atyp = 3 then
    if buf.length < 5 then .error { status := .more, consumed := 0 }
    else .ok (1 + (byte_at buf 5).toNat)
  else
    .error
      { status := .refused, consumed := 0
        reason := some (counted_byte (lit "SOCKS address type ") atyp (lit " in the reply is not supported")) }

/-- The server's answer to a request at the start of `buf`, whole. -/
def read_answer (buf : Bytes) : SocksAnswer :=
  if buf.length < 1 then { status := .more, consumed := 0 }
  else if byte_at buf 1 ≠ 5 then
    { status := .refused, consumed := 0
      reason := some (counted_byte (lit "SOCKS version ") (byte_at buf 1) (lit " in the reply, not 5")) }
  else if buf.length < 3 then { status := .more, consumed := 0 }
  else if byte_at buf 3 ≠ 0 then
    { status := .refused, consumed := 0
      reason := some (lit "the reserved byte of the reply is not 0") }
  else if buf.length < 4 then { status := .more, consumed := 0 }
  else
    match answer_width buf with
    | .error answer => answer
    | .ok width =>
      let total := 4 + width + 2
      if buf.length < total then { status := .more, consumed := 0 }
      else
        { status := .done, consumed := total, code := some (byte_at buf 2).toNat
          reply := SOCKS_REPLIES (byte_at buf 2) }

/-! ## The readers -/

/-- What a small reader holds. -/
structure Held (α : Type) where
  held : Bytes := []
  final : Option α := none

/-- A reader of a message of at most a few hundred bytes: it holds what it is fed and reads it
again. -/
def small_reader {α : Type} (read : Bytes → α) (decided : α → Bool) : Feeder (Held α) α where
  start := {}
  feed st chunk :=
    match st.final with
    | some final => (st, final)
    | none =>
      let held := st.held ++ chunk
      let answer := read held
      if decided answer then (⟨[], some answer⟩, answer) else ({ st with held := held }, answer)

def socks_greeting_reader (password : Bool) : Feeder (Held SocksGreeting) SocksGreeting :=
  small_reader (fun held => read_greeting held password) fun answer => answer.status != .more

def socks_auth_reader : Feeder (Held SocksAuth) SocksAuth :=
  small_reader read_auth fun answer => answer.status != .more

def socks_request_reader : Feeder (Held SocksRequest) SocksRequest :=
  small_reader read_request fun answer => answer.status != .more

def socks_method_reader (password : Bool) : Feeder (Held SocksMethodAnswer) SocksMethodAnswer :=
  small_reader (fun held => read_method_answer held password) fun answer => answer.status != .more

def socks_auth_status_reader : Feeder (Held SocksAuthAnswer) SocksAuthAnswer :=
  small_reader read_auth_answer fun answer => answer.status != .more

def socks_answer_reader : Feeder (Held SocksAnswer) SocksAnswer :=
  small_reader read_answer fun answer => answer.status != .more

end Cosmic.Wire
