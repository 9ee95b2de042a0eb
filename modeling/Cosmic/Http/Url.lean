/-
Absolute URLs: `Url.parse` of `cosmic/url.tl`.

Positions in a text are offsets from 0 where the source's are from 1, but for those that a refusal names.
-/
import Cosmic.Relay.Connect

set_option autoImplicit false

namespace Cosmic.Url

open Cosmic.Base
open Cosmic.Wire (hex2)

/-- An absolute URL's parts. -/
structure Parts where
  scheme : Bytes
  userinfo : Option Bytes
  host : Bytes
  port : Option ℕ
  path : Bytes
  query : Option Bytes
  fragment : Option Bytes
  deriving DecidableEq, Repr

/-- What a failure of the module answers. -/
def refuse (why : Bytes) : Bytes := lit "url: " ++ why

/-- Why `text` is no URL when it holds a space or a control byte, "" when it holds none. -/
def unescaped_byte (text : Bytes) : Bytes :=
  match text.findIdx? (fun b => b ≤ 32 || b == 127) with
  | none => []
  | some i =>
    let byte := text.getD i 0
    let what :=
      if byte = 32 then lit "a space"
      else if byte = 0 then lit "a NUL"
      else lit "control byte 0x" ++ hex2 byte
    lit "url: the URL holds " ++ what ++ lit " at byte " ++ tostring (i + 1) ++
      lit "; escape a path segment or query value with Url.escape"

/-- What `:(%d+%.%d+%.%d+%.%d+)$` captures, as its octets. -/
def dotted_end (text : Bytes) : Option (List Bytes) :=
  if 58 ∈ text then
    let octets := ((text.splitOn 58).getLastD []).splitOn 46
    if octets.length = 4 ∧ octets.all (fun octet => octet ≠ [] ∧ octet.all isDigit) then some octets else none
  else none

/-- An octet without a leading zero, of 255 at most. -/
def is_octet (octet : Bytes) : Bool := !(octet.head? == some 48 && octet.length > 1) && digits_value 10 octet ≤ 255

/-- Whether `group` is one to four hexadecimal digits. -/
def is_group (group : Bytes) : Bool := 1 ≤ group.length && group.length ≤ 4 && group.all isHex

/-- How many groups a side of the gap holds, or nil where one is malformed. -/
def group_count (side : Bytes) : Option ℕ :=
  if side = [] then some 0
  else if (side.splitOn 58).all is_group then some (side.splitOn 58).length else none

/-- The text before a dotted end and the groups it stands for, or nil where an octet is malformed. -/
def without_dotted (text : Bytes) : Option (Bytes × ℕ) :=
  match dotted_end text with
  | none => some (text, 8)
  | some octets =>
    if octets.all is_octet then
      let before := text.take (text.length - (concat (lit ".") octets).length)
      some (if before.drop (before.length - 2) = lit "::" then before else before.dropLast, 6)
    else none

/-- Whether `text` is an IPv6 address. -/
def is_ipv6 (text : Bytes) : Bool :=
  match without_dotted text with
  | none => false
  | some (text, groups) =>
    match index_of (lit "::") text with
    | none =>
      match group_count text with
      | none => false
      | some count => count == groups
    | some gap =>
      let head := text.take gap
      let tail := text.drop (gap + 2)
      if (index_of (lit "::") tail).isSome then false
      else
        match group_count head, group_count tail with
        | some n, some m => n + m < groups
        | _, _ => false

/-- The host of an authority past its user info, and what follows it. -/
def split_host (text : Bytes) : Except Bytes (Bytes × Bytes) :=
  if text.head? = some 91 then
    match index_of (lit "]") text with
    | none => .error (refuse (lit "an IPv6 host is missing its closing ']'"))
    | some close =>
      let host := (text.take close).drop 1
      if is_ipv6 host then .ok (host, text.drop (close + 1))
      else .error (refuse (lit "the host in brackets is not an IPv6 address"))
  else
    let (host, rest) :=
      match index_of (lit ":") text with
      | none => (text, [])
      | some colon => (text.take colon, text.drop colon)
    if 58 ∈ rest.drop 1 then
      .error (refuse (lit "the host holds more than one ':'; an IPv6 address goes in brackets, as http://[::1]/"))
    else if host = [] then .error (refuse (lit "the URL names no host"))
    else if 91 ∈ host ∨ 93 ∈ host then
      .error (refuse (lit "the host holds a bracket outside an IPv6 address"))
    else .ok (host, rest)

/-- The host, in lower case, and the port of an authority past its user info. -/
def read_host (text : Bytes) : Except Bytes (Bytes × Option ℕ) :=
  match split_host text with
  | .error why => .error why
  | .ok (host, rest) =>
    if rest = [] ∨ rest = lit ":" then .ok (lower host, none)
    else if rest.head? ≠ some 58 then
      .error (refuse (lit "an IPv6 host's ']' is followed by something other than ':' and a port"))
    else
      let digits := rest.drop 1
      if digits.any (fun b => !isDigit b) then
        .error (refuse (lit "the port holds a byte other than a digit"))
      else
        let value := digits.dropWhile (· == 48)
        let port := digits_value 10 value
        if value.length > 5 ∨ port > 65535 then
          .error (refuse (lit "the port is not a number from 0 to 65535"))
        else .ok (lower host, some port)

/-- What `^(%a[%w+.-]*)://` captures. -/
def scheme_of (text : Bytes) : Option Bytes :=
  let scheme := text.takeWhile fun b => isAlpha b || isDigit b || b == 43 || b == 46 || b == 45
  if (scheme.head?.any isAlpha) ∧ (text.drop scheme.length).take 3 = lit "://" then some scheme else none

def split_userinfo (authority : Bytes) : Except Bytes (Option Bytes × Bytes) :=
  match index_of (lit "@") authority with
  | none => .ok (none, authority)
  | some at_ =>
    if 64 ∈ authority.drop (at_ + 1) then
      .error (refuse (lit "the authority holds more than one '@'; escape the user info with Url.escape"))
    else .ok (some (authority.take at_), authority.drop (at_ + 1))

/-- An absolute URL, read into its parts. -/
def parse (text : Bytes) : Except Bytes Parts :=
  let unescaped := unescaped_byte text
  if unescaped ≠ [] then .error unescaped
  else
    match scheme_of text with
    | none =>
      .error (refuse (lit "the URL does not start with a scheme and '://', as https://example.com/ does"))
    | some scheme =>
      let rest := text.drop (scheme.length + 3)
      let authority := rest.takeWhile fun b => b != 47 && b != 63 && b != 35
      let rest := rest.drop authority.length
      let path := rest.takeWhile fun b => b != 63 && b != 35
      let rest := rest.drop path.length
      match split_userinfo authority with
      | .error why => .error why
      | .ok (userinfo, hostport) =>
        match read_host hostport with
        | .error why => .error why
        | .ok (host, port) =>
          let (fragment, rest) :=
            match index_of (lit "#") rest with
            | none => (none, rest)
            | some hash => (some (rest.drop (hash + 1)), rest.take hash)
          .ok { scheme := lower scheme, userinfo, host, port, path
                query := if rest = [] then none else some (rest.drop 1), fragment }

end Cosmic.Url
