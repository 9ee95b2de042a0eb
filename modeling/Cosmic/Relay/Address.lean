/-
Which destination addresses the relay may connect to: `relay/address.tl`.

The functions are the source's, one for one, with the texts of their refusals. What the source
raises is an error; `PREFIXES` is what the module reads from `DENY` when it is loaded.
-/
import Cosmic.Relay.GrantParse

set_option autoImplicit false

namespace Cosmic.RelayAddress

open Cosmic.Base

structure Answer where
  address : Bytes
  family : Bytes
  deriving DecidableEq, Repr

/-- The class an address is refused as. -/
inductive Class where
  | loopback
  | unspecified
  | link_local
  | multicast
  | broadcast
  | reserved
  | private_use
  | cgnat
  | metadata
  | documentation
  | benchmark
  | own
  | special
  | discard
  | mapped
  | nat64
  | nonglobal
  | compatible
  | translated
  | sixto4
  | teredo
  | nat64local
  deriving DecidableEq, Repr

def Class.text : Class → Bytes
  | .loopback => lit "loopback"
  | .unspecified => lit "unspecified"
  | .link_local => lit "link-local"
  | .multicast => lit "multicast"
  | .broadcast => lit "broadcast"
  | .reserved => lit "reserved"
  | .private_use => lit "private"
  | .cgnat => lit "cgnat"
  | .metadata => lit "metadata"
  | .documentation => lit "documentation"
  | .benchmark => lit "benchmark"
  | .own => lit "own"
  | .special => lit "special"
  | .discard => lit "discard"
  | .mapped => lit "mapped"
  | .nat64 => lit "nat64"
  | .nonglobal => lit "nonglobal"
  | .compatible => lit "compatible"
  | .translated => lit "translated"
  | .sixto4 => lit "6to4"
  | .teredo => lit "teredo"
  | .nat64local => lit "nat64local"

/-- What each class is called in a refusal. -/
def PHRASES : Class → Bytes
  | .loopback => lit "a loopback address"
  | .unspecified => lit "an unspecified address"
  | .link_local => lit "a link-local address"
  | .multicast => lit "a multicast address"
  | .broadcast => lit "the broadcast address"
  | .reserved => lit "a reserved address"
  | .private_use => lit "a private address"
  | .cgnat => lit "a carrier-grade NAT address"
  | .metadata => lit "a metadata address"
  | .documentation => lit "a documentation address"
  | .benchmark => lit "a benchmarking address"
  | .own => lit "one of this host's own addresses"
  | .special => lit "a special-purpose address"
  | .discard => lit "a discard-only address"
  | .mapped => lit "an IPv4-mapped address, which the relay does not decode"
  | .nat64 => lit "a NAT64 address, which the relay does not decode"
  | .nonglobal => lit "an IPv6 address outside 2000::/3, the global unicast range"
  | .compatible => lit "an IPv4-compatible address, which the relay does not decode"
  | .translated => lit "an IPv4-translated (SIIT) address, which the relay does not decode"
  | .sixto4 => lit "a 6to4 address, which carries an IPv4 address the relay does not decode"
  | .teredo => lit "a Teredo address, which carries IPv4 addresses the relay does not decode"
  | .nat64local =>
    lit "a local-use NAT64 address, whose prefix length, and so the IPv4 address it " ++
      lit "carries, the relay cannot know"

/-- The bytes of the numeric address `address`. -/
def parse (address : Bytes) : Option Bytes := Grant.address address

def same (a b : Bytes) : Bool := a.length == b.length && (List.range a.length).all fun i => a[i]? == b[i]?

/-- Whether `bytes` begins with `start`. -/
def begins (bytes start : Bytes) : Bool := (List.range start.length).all fun i => bytes[i]? == start[i]?

/-! ## The refused prefixes -/

/-- One refused prefix: its text and its class. -/
structure Deny where
  cidr : Bytes
  cls : Class

/-- Every refused prefix, in the order a refusal names its class. -/
def DENY : List Deny := [⟨lit "169.254.169.254/32", .metadata⟩, ⟨lit "100.100.100.200/32", .metadata⟩,
  ⟨lit "168.63.129.16/32", .metadata⟩,
  ⟨lit "fd00:ec2::254/128", .metadata⟩,
  ⟨lit "0.0.0.0/8", .unspecified⟩,
  ⟨lit "192.0.0.0/24", .special⟩,
  ⟨lit "192.88.99.0/24", .special⟩,
  ⟨lit "10.0.0.0/8", .private_use⟩,
  ⟨lit "100.64.0.0/10", .cgnat⟩,
  ⟨lit "127.0.0.0/8", .loopback⟩,
  ⟨lit "169.254.0.0/16", .link_local⟩,
  ⟨lit "172.16.0.0/12", .private_use⟩,
  ⟨lit "192.168.0.0/16", .private_use⟩,
  ⟨lit "192.0.2.0/24", .documentation⟩,
  ⟨lit "198.18.0.0/15", .benchmark⟩,
  ⟨lit "198.51.100.0/24", .documentation⟩,
  ⟨lit "203.0.113.0/24", .documentation⟩,
  ⟨lit "224.0.0.0/4", .multicast⟩,
  ⟨lit "255.255.255.255/32", .broadcast⟩,
  ⟨lit "240.0.0.0/4", .reserved⟩,
  ⟨lit "::/128", .unspecified⟩,
  ⟨lit "::1/128", .loopback⟩,
  ⟨lit "::/96", .compatible⟩,
  ⟨lit "::ffff:0:0/96", .mapped⟩,
  ⟨lit "0:0:0:0:ffff:0::/96", .translated⟩,
  ⟨lit "64:ff9b::/96", .nat64⟩,
  ⟨lit "64:ff9b:1::/48", .nat64local⟩,
  ⟨lit "fe80::/10", .link_local⟩,
  ⟨lit "fec0::/10", .private_use⟩,
  ⟨lit "fc00::/7", .private_use⟩,
  ⟨lit "ff00::/8", .multicast⟩,
  ⟨lit "100::/64", .discard⟩,
  ⟨lit "5f00::/16", .special⟩,
  ⟨lit "2002::/16", .sixto4⟩,
  ⟨lit "2001::/32", .teredo⟩,
  ⟨lit "2001:db8::/32", .documentation⟩,
  ⟨lit "3fff::/20", .documentation⟩,
  ⟨lit "2001:2::/48", .benchmark⟩,
  ⟨lit "2001::/23", .special⟩]

/-- The refused prefixes as text, which the native connector takes. -/
def deny_cidrs : List Bytes := DENY.map Deny.cidr

structure Prefix where
  bytes : Bytes
  bits : ℕ
  cls : Class
  deriving DecidableEq, Repr

/-- One entry of `DENY` read: what `^(.-)/(%d+)$` captures, as an address and a number. -/
def read_prefix (entry : Deny) : Option Prefix :=
  let address := entry.cidr.takeWhile (· != 47)
  match entry.cidr.dropWhile (· != 47) with
  | [] => none
  | _ :: bits_text =>
    match decimal bits_text, parse address with
    | some bits, some bytes => some ⟨bytes, bits, entry.cls⟩
    | _, _ => none

/-- The prefixes of `DENY`; `prefixes_read` says that every one is read. -/
def PREFIXES : List Prefix := (DENY.mapM read_prefix).getD []

/-- Whether `b` is in `p`. -/
def within (b : Bytes) (p : Prefix) : Except Bytes Bool :=
  if b.length ≠ p.bytes.length then .ok false
  else
    let whole := p.bits / 8
    if (List.range whole).any (fun i => b[i]? != p.bytes[i]?) then .ok false
    else
      let rest := p.bits % 8
      if rest = 0 then .ok true
      else
        let mask := UInt8.ofNat ((0xff <<< (8 - rest)) &&& 0xff)
        match b[whole]?, p.bytes[whole]? with
        | some mine, some theirs => .ok (mine &&& mask == theirs &&& mask)
        | _, _ =>
          .error (lit "relay: the refused prefix of " ++ p.cls.text ++ lit " runs past the end of its address")

/-- The class of the first prefix of a class `want` asks for that `b` is in. -/
def first_within (b : Bytes) (want : Class → Bool) : List Prefix → Except Bytes (Option Class)
  | [] => .ok none
  | p :: ps =>
    if want p.cls then
      match within b p with
      | .error e => .error e
      | .ok true => .ok (some p.cls)
      | .ok false => first_within b want ps
    else first_within b want ps

/-- The class an address is refused as, or none. `own` holds the host's addresses. -/
def classify (b : Bytes) (own : List Bytes) : Except Bytes (Option Class) :=
  match first_within b (· == .metadata) PREFIXES with
  | .error e => .error e
  | .ok (some cls) => .ok (some cls)
  | .ok none =>
    if own.any (same b) then .ok (some .own)
    else
      match first_within b (· != .metadata) PREFIXES with
      | .error e => .error e
      | .ok (some cls) => .ok (some cls)
      | .ok none =>
        if b.length = 16 ∧ (b[0]?.map (· &&& 0xe0)) ≠ some 0x20 then .ok (some .nonglobal)
        else .ok none

/-! ## Grants and own addresses -/

def integer_text : ℤ → Bytes
  | .ofNat n => tostring n
  | .negSucc n => lit "-" ++ tostring (n + 1)

/-- `address` as the host of a `connect` grant. -/
def target (address : Bytes) (port : ℤ) : Bytes :=
  (if 58 ∈ address then lit "[" ++ address ++ lit "]" else address) ++ lit ":" ++ integer_text port

/-- Whether one `connect` target names exactly `bytes` for `port`. -/
def grants_address (bytes : Bytes) (port : ℤ) (grant : Bytes) : Bool :=
  match Grant.parse grant with
  | .error _ => false
  | .ok parsed =>
    match parsed.bytes with
    | none => false
    | some parsed_bytes =>
      same parsed_bytes bytes && (parsed.port == 0 || (parsed.port : ℤ) == port)

/-- Whether a `connect` target in `grants` names exactly `bytes` for `port`. -/
def granted (bytes : Bytes) (port : ℤ) (grants : List Bytes) : Bool := grants.any (grants_address bytes port)

def MAPPED : Bytes := [0, 0, 0, 0, 0, 0, 0, 0, 0, 0, 0xff, 0xff]

def own_address (text : Bytes) : Except Bytes Bytes :=
  match parse text with
  | none => .error (lit "own address \"" ++ text ++ lit "\" is not numeric")
  | some bytes =>
    if bytes.length = 16 ∧ begins bytes MAPPED then .ok ((bytes.drop 12).take 4) else .ok bytes

/-- The host's own addresses `own`, as bytes. -/
def own_addresses (own : List Bytes) : Except Bytes (List Bytes) := own.mapM own_address

/-! ## What may be connected to -/

/-- The most bytes of an answer a refusal repeats. -/
def SHOWN : ℕ := 64

def shown (address : Bytes) : Bytes :=
  (address.take SHOWN).map (fun b => if isControl b || 128 ≤ b then 63 else b) ++
    (if address.length > SHOWN then lit "..." else [])

/-- Whether the relay may connect to the numeric `address` on `port`, and why not. -/
def check (address : Bytes) (port : ℤ) (grants own : List Bytes) : Except Bytes (Bool × Bytes) :=
  match parse address with
  | none => .ok (false, lit "\"" ++ shown address ++ lit "\" is not a numeric address")
  | some bytes =>
    if granted bytes port grants then .ok (true, [])
    else
      match classify bytes own with
      | .error e => .error e
      | .ok (some cls) =>
        .ok (false, address ++ lit " is " ++ PHRASES cls ++
          lit ": grant it literally with --connect " ++ target address port)
      | .ok none => .ok (true, [])

/-- The answers that are allowed, and why each of the others is not. -/
def sift (port : ℤ) (grants own : List Bytes) : List Answer → Except Bytes (List Answer × List Bytes)
  | [] => .ok ([], [])
  | answer :: rest =>
    match check answer.address port grants own with
    | .error e => .error e
    | .ok (ok, reason) =>
      match sift port grants own rest with
      | .error e => .error e
      | .ok (allowed, why) =>
        .ok (if ok then (answer :: allowed, why) else (allowed, reason :: why))

/-- Every one of `answers` the relay may connect to on `port`, in the order received. -/
def permitted (answers : List Answer) (port : ℤ) (grants own : List Bytes) :
    Except Bytes (Option (List Answer) × Bytes) :=
  if answers = [] then .ok (none, lit "the name has no addresses")
  else
    match sift port grants own answers with
    | .error e => .error e
    | .ok (allowed, why) =>
      if allowed.length > 0 then .ok (some allowed, [])
      else .ok (none, lit "no address of the name is allowed: " ++ concat (lit "; ") why)

end Cosmic.RelayAddress
