/-
A policy's `connect` target, read once: `relay/grant.tl`.

A target is `host:port`, its host a DNS name, an IPv4 address, an IPv6 address in brackets or `*`.
The functions here are the source's, one for one, down to the texts of their refusals; what they
read and write is a byte string, and an address is its bytes, most significant first. A `type` check
of an argument that is a string by its type is left out.
-/
import Cosmic.Base.Parts

set_option autoImplicit false

namespace Cosmic.Grant

open Cosmic.Base

/-- What a target's host is. -/
inductive Kind where
  | any
  | name
  | ipv4
  | ipv6
  deriving DecidableEq, Repr

/-- One `connect` target, read. -/
structure Target where
  kind : Kind
  host : Bytes
  bytes : Option Bytes
  port : ℕ
  text : Bytes
  deriving DecidableEq, Repr

/-- The longest text of an IPv6 address, `ffff:ffff:ffff:ffff:ffff:ffff:255.255.255.255`. -/
def MAX_ADDRESS : ℕ := 45

/-- The longest DNS name, and its longest label, in bytes. -/
def MAX_NAME : ℕ := 253
def MAX_LABEL : ℕ := 63

/-! ## Addresses read -/

/-- What `^(%d+)%.(%d+)%.(%d+)%.(%d+)$` captures. -/
def captures4 (text : Bytes) : Option (List Bytes) :=
  let parts := text.splitOn 46
  if parts.length = 4 ∧ ∀ part ∈ parts, part ≠ [] ∧ part.all isDigit then some parts else none

def octet (part : Bytes) : Option UInt8 :=
  if part.length > 3 ∨ (part.length > 1 ∧ part.head? = some 48) then none
  else
    match decimal part with
    | none => none
    | some n => if n > 255 then none else some (UInt8.ofNat n)

/-- The IPv4 octets of `text`. -/
def parse4 (text : Bytes) : Option Bytes :=
  match captures4 text with
  | none => none
  | some parts => parts.mapM octet

/-- The groups of one part of a list, an IPv4 tail where `tail4` allows one. -/
def part_groups (tail4 : Bool) (part : Bytes) : Option (List ℕ) :=
  if 46 ∈ part then
    match if tail4 then parse4 part else none with
    | some [o1, o2, o3, o4] => some [o1.toNat * 256 + o2.toNat, o3.toNat * 256 + o4.toNat]
    | _ => none
  else if part.length < 1 ∨ part.length > 4 ∨ part.any (fun b => !isHex b) then none
  else (hexadecimal part).map ([·])

/-- The groups of the parts of a list, where the last one may be an IPv4 tail. -/
def parts_groups (tail4 : Bool) : List Bytes → Option (List ℕ)
  | [] => some []
  | part :: rest =>
    match part_groups (tail4 && rest.isEmpty) part with
    | none => none
    | some out => (parts_groups tail4 rest).map (out ++ ·)

/-- The 16-bit groups of `list`, colon-separated. -/
def groups (list : Bytes) (tail4 : Bool) : Option (List ℕ) :=
  if list = [] then some [] else parts_groups tail4 (list.splitOn 58)

/-- The eight groups of an address whose groups before and after `::` are given, or of one that
has no `::`. -/
def fill (first second : List ℕ) (elided : Bool) : Option (List ℕ) :=
  let gap : ℤ := 8 - first.length - second.length
  if elided then
    if gap < 1 then none else some (first ++ List.replicate gap.toNat 0 ++ second)
  else if gap ≠ 0 then none
  else some (first ++ second)

def group_bytes (all : List ℕ) : Bytes := all.flatMap fun g => [UInt8.ofNat (g >>> 8), UInt8.ofNat (g &&& 0xff)]

/-- What is before `::`, what is after it, and whether there is one; nothing for a text with two. -/
def elision (text : Bytes) : Option (Bytes × Bytes × Bool) :=
  match index_of (lit "::") text with
  | some start =>
    if (index_of (lit "::") (text.drop (start + 1))).isSome then none
    else some (text.take start, text.drop (start + 2), true)
  | none => some (text, [], false)

/-- The 16 bytes of the IPv6 address `text`. -/
def parse6 (text : Bytes) : Option Bytes :=
  if text.any (fun b => !(isHex b || b == 58 || b == 46)) ∨ (index_of (lit ":::") text).isSome then
    none
  else
    match elision text with
    | none => none
    | some (head, tail, elided) =>
      -- Without `::` the address is one list whose last group may be the IPv4 tail; with it the
      -- head has none, and the tail's last group may.
      match groups head (!elided), groups tail true with
      | some first, some second => (fill first second elided).map group_bytes
      | _, _ => none

/-- The bytes of the numeric address `text`: 4 for an IPv4 address, 16 for an IPv6 one. -/
def address (text : Bytes) : Option Bytes :=
  if text = [] ∨ text.length > MAX_ADDRESS then none
  else if 58 ∈ text then parse6 text
  else parse4 text

/-! ## An IPv6 address written -/

abbrev Sixteen : Type := {bytes : Bytes // bytes.length = 16}

/-- The groups of bytes taken two by two. -/
def words : Bytes → List ℕ
  | high :: low :: rest => (high.toNat <<< 8 ||| low.toNat) :: words rest
  | _ => []

/-- How many groups from position `start` on are zero, in a row. -/
def zeros (all : List ℕ) (start : ℕ) : ℕ := ((all.drop (start - 1)).takeWhile (· == 0)).length

/-- The longest run of zero groups, as its position and its length: the search from position `at`
on, with the best so far. Every round goes a position on at least. -/
def best_run (all : List ℕ) : ℕ → ℕ → ℕ × ℕ → ℕ × ℕ
  | 0, _, best => best
  | rounds + 1, start, best =>
    if 8 < start then best
    else if zeros all start = 0 then best_run all rounds (start + 1) best
    else
      best_run all rounds (start + zeros all start)
        (if zeros all start > best.2 then (start, zeros all start) else best)

/-- The parts of the text from position `i` on, with the run at `best_at` left out. Every round goes
a position on at least. -/
def text_parts (all : List ℕ) (best_at best_len : ℕ) : ℕ → ℕ → List Bytes
  | 0, _ => []
  | rounds + 1, i =>
    if 8 < i then []
    else if i = best_at then
      [] :: ((if i = 1 ∨ i + best_len > 8 then [[]] else []) ++ text_parts all best_at best_len rounds (i + best_len))
    else hex (all.getD (i - 1) 0) :: text_parts all best_at best_len rounds (i + 1)

def groups_text (all : List ℕ) : Bytes :=
  let (best_at, best_len) := best_run all 8 1 (0, 1)
  if best_len = 8 then lit "::" else concat (lit ":") (text_parts all best_at best_len 8 1)

/-- The 16 `bytes` of an IPv6 address in RFC 5952's form. -/
def ipv6_text (bytes : Sixteen) : Bytes := groups_text (words bytes.1)

/-! ## Names and ports -/

/-- Whether `label`, the last of a name's, is one a resolver may read as a number. -/
def numeric (label : Bytes) : Bool :=
  (label ≠ [] && label.all isDigit) || ((lit "0x").isPrefixOf label && (label.drop 2).all isHex)

/-- `[a-z0-9]` -/
def isPlain (b : UInt8) : Bool := (97 ≤ b && b ≤ 122) || isDigit b

/-- `^[a-z0-9][a-z0-9-]*$`, with no hyphen at the end. -/
def spelled (label : Bytes) : Bool :=
  match label with
  | [] => false
  | b :: rest => isPlain b && rest.all (fun b => isPlain b || b == 45) && label.getLast? != some 45

/-- One round of the loop over a name's labels. -/
def check_label (label : Bytes) : Except Bytes Unit :=
  if label = [] then .error (lit "host name with an empty label")
  else if label.length > MAX_LABEL then .error (lit "host name label longer than 63 bytes")
  else if ¬spelled label then
    .error (lit "host name label that is not letters, digits and inner hyphens")
  else .ok ()

/-- A name without the dot at its end. -/
def undotted (text : Bytes) : Bytes := if text.getLast? = some 46 then text.dropLast else text

/-- `text` as a DNS name in canonical form, or why not. -/
def name (text : Bytes) : Except Bytes Bytes :=
  let text := undotted text
  if text = [] then .error (lit "empty host name")
  else if text.length > MAX_NAME then .error (lit "host name longer than 253 bytes")
  else
    let text := lower text
    let labels := text.splitOn 46
    match labels.forM check_label with
    | .error why => .error why
    | .ok () =>
      if numeric (labels.getLastD []) then
        .error (lit "host name whose last label is a number (write an IPv4 address in four parts)")
      else .ok text

/-- `^[1-9]%d*$` -/
def isPort (text : Bytes) : Bool :=
  match text with
  | [] => false
  | b :: rest => 49 ≤ b && b ≤ 57 && rest.all isDigit

/-- A decimal port from 1 to 65535 with no leading zero, or why not. -/
def port (text : Bytes) : Except Bytes ℕ :=
  let why := lit "port is not a decimal number from 1 to 65535 without leading zeros"
  if ¬isPort text ∨ text.length > 5 then .error why
  else
    match decimal text with
    | none => .error why
    | some port => if port > 65535 then .error why else .ok port

/-! ## Targets -/

/-- `host:port` in its canonical text. -/
def text_of (kind : Kind) (host : Bytes) (port : ℕ) : Bytes :=
  (if kind = .ipv6 then lit "[" ++ host ++ lit "]" else host) ++ lit ":" ++
    (if port = 0 then lit "*" else tostring port)

/-- What `^(.+):([^:]+)$` captures: what is before the last colon, and what is after it. -/
def host_port (text : Bytes) : Option (Bytes × Bytes) :=
  let behind := (text.reverse.takeWhile (· != 58)).reverse
  match text.reverse.dropWhile (· != 58) with
  | [] => none
  | _ :: front => if front = [] ∨ behind = [] then none else some (front.reverse, behind)

/-- What `^%[(.*)%]$` captures. -/
def bracketed (host : Bytes) : Option Bytes :=
  match host with
  | [] => none
  | b :: rest => if b = 91 ∧ rest.getLast? = some 93 then some rest.dropLast else none

/-- The host of a target, `port` its port. -/
def parse_host (host : Bytes) (port : ℕ) : Except Bytes Target :=
  match bracketed host with
  | some inner =>
    match if 58 ∈ inner then address inner else none with
    | none => .error (lit "brackets hold an IPv6 address and nothing else")
    | some bytes =>
      if h : bytes.length = 16 then
        let canonical := ipv6_text ⟨bytes, h⟩
        .ok ⟨.ipv6, canonical, some bytes, port, text_of .ipv6 canonical port⟩
      else .error (lit "brackets hold an IPv6 address and nothing else")
  | none =>
    if 58 ∈ host then .error (lit "an IPv6 host is written in brackets")
    else if host = lit "*" then .ok ⟨.any, lit "*", none, port, text_of .any (lit "*") port⟩
    else if 42 ∈ host then .error (lit "a host is a whole name or \"*\", not a pattern")
    else if 91 ∈ host ∨ 93 ∈ host then
      .error (lit "brackets hold an IPv6 address and nothing else")
    else
      match address host with
      | some bytes => .ok ⟨.ipv4, host, some bytes, port, text_of .ipv4 host port⟩
      | none =>
        match name host with
        | .error why => .error why
        | .ok name => .ok ⟨.name, name, none, port, text_of .name name port⟩

/-- The port of a target: 0 for `*`. -/
def parse_port (at_ : Bytes) : Except Bytes ℕ := if at_ = lit "*" then .ok 0 else port at_

/-- A `connect` target `text` read, or why not. -/
def parse (text : Bytes) : Except Bytes Target :=
  match host_port text with
  | none => .error (lit "not host:port")
  | some (host, at_) =>
    match parse_port at_ with
    | .error why => .error why
    | .ok port => parse_host host port

end Cosmic.Grant

/-!
The relay's wire readers: hosts and the CONNECT head, as `cosmic/internal/relay_wire.tl` reads them.

Where the source answers nil and why, a function here answers `Except`. Positions in a text are
offsets from 0 where the source's are from 1; the bytes counted by a reader are numbered from 1, as
in the source.
-/

namespace Cosmic.Wire

open Cosmic.Base

/-! ## Hosts -/

/-- What a host is. -/
inductive Kind where
  | name
  | ipv4
  | ipv6
  deriving DecidableEq, Repr

/-- The kind of a grant's target that a host of this kind is matched with. -/
def Kind.grant : Kind → Grant.Kind
  | .name => .name
  | .ipv4 => .ipv4
  | .ipv6 => .ipv6

/-- The four decimal octets of `text`, or nil. -/
def octets (text : Bytes) : Option Bytes :=
  match Grant.address text with
  | some bytes => if bytes.length = 4 then some bytes else none
  | none => none

/-- The sixteen bytes of `text`, an IPv6 address without brackets or a zone. -/
def ipv6_bytes (text : Bytes) : Except Bytes Grant.Sixteen :=
  let why :=
    if text.any (fun b => !(isHex b || b == 58 || b == 46)) ∨ 58 ∉ text then
      lit "not an IPv6 address (a zone, or a character an address does not hold)"
    else lit "not an IPv6 address"
  match if 58 ∈ text then Grant.address text else none with
  | none => .error why
  | some bytes => if h : bytes.length = 16 then .ok ⟨bytes, h⟩ else .error why

/-- `text`, an IPv6 address without brackets or a zone, in RFC 5952's form. -/
def ipv6 (text : Bytes) : Except Bytes Bytes := (ipv6_bytes text).map Grant.ipv6_text

def bare_host (text : Bytes) : Except Bytes (Bytes × Kind) :=
  if (octets text).isSome then .ok (text, .ipv4)
  else (Grant.name text).map fun name => (name, .name)

/-- A `host:port` authority taken apart. -/
structure Authority where
  host : Bytes
  kind : Kind
  port : ℕ
  deriving DecidableEq, Repr

/-- The host and the kind of an authority, and what follows the host. -/
def authority_host (text : Bytes) : Except Bytes (Bytes × Kind × Bytes) :=
  if text.head? = some 91 then
    match index_of (lit "]") text with
    | none => .error (lit "unclosed [ in the CONNECT target")
    | some close =>
      match ipv6 ((text.take close).drop 1) with
      | .error why => .error why
      | .ok canonical =>
        match text.drop (close + 1) with
        | 58 :: rest => .ok (canonical, .ipv6, rest)
        | _ => .error (lit "CONNECT target has no port after the ]")
  else
    match index_of (lit ":") text with
    | none => .error (lit "CONNECT target has no port (host:port)")
    | some colon =>
      let rest := text.drop (colon + 1)
      if 58 ∈ rest then .error (lit "an IPv6 address needs brackets in a CONNECT target")
      else
        match bare_host (text.take colon) with
        | .error why => .error why
        | .ok (name, kind) => .ok (name, kind, rest)

/-- `text` as a `host:port` authority, or why not. -/
def authority (text : Bytes) : Except Bytes Authority :=
  if 64 ∈ text then .error (lit "userinfo is not allowed in a CONNECT target")
  else
    match authority_host text with
    | .error why => .error why
    | .ok (host, kind, rest) => (Grant.port rest).map fun port => ⟨host, kind, port⟩

end Cosmic.Wire
