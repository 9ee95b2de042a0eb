/-
What the relay's server decides, with no wait in it: `internal/relay_server.tl`.

The configuration a relay is started with, and each check of a connection as a function of what it is
given. The lines of the log are left out, as they say nothing of what is carried, and the `note` of a
grant that opens nothing with them. A time is as many nanoseconds.
-/
import Cosmic.Relay.Address
import Cosmic.Relay.Hello

set_option autoImplicit false

namespace Cosmic.RelayServer

open Cosmic.Base Except
open Cosmic.Wire

/-! ## What a relay is started with -/

structure Timeouts where
  resolve : Option ℤ
  connect : Option ℤ
  idle : Option ℤ
  head : Option ℤ
  auth : Option ℤ

structure Limits where
  connections : Option ℤ
  header_bytes : Option ℤ
  total : Option ℤ
  pre_auth : Option ℤ

/-- The proxy to connect through. -/
structure Upstream where
  host : Bytes
  port : ℤ
  authorization : Option Bytes
  no_proxy : List Bytes
  addresses : Option (List Bytes)

structure Spec where
  grants : List Bytes
  /-- Why no name can be resolved, where none can. -/
  unresolved : Option Bytes
  own_addresses : List Bytes
  upstream : Option Upstream
  tls_ports : Option (List ℤ)
  timeouts : Timeouts
  limits : Limits
  token : Option Bytes

/-- The parts of the program that the server uses: the hash of a token, and base64. -/
structure Outside where
  sha256 : Bytes → Bytes
  unbase64 : Bytes → Option Bytes

structure NameGrant where
  host : Bytes
  port : ℕ
deriving DecidableEq

structure HeldTimeouts where
  resolve : ℤ
  connect : ℤ
  idle : ℤ
  head : ℤ
  auth : ℤ

structure HeldLimits where
  connections : ℤ
  header_bytes : ℤ
  total : ℤ
  pre_auth : ℤ

def SECOND : ℤ := 1000000000

def DEFAULT_TIMEOUTS : HeldTimeouts :=
  { resolve := 5 * SECOND, connect := 10 * SECOND, idle := 300 * SECOND, head := 10 * SECOND
    auth := 3 * SECOND }

def DEFAULT_LIMITS : HeldLimits := { connections := 64, header_bytes := 16384, total := 100000, pre_auth := 64 }

def DEFAULT_TLS_PORTS : List ℤ := [443, 853]

/-- How many connections past `connections` are accepted to be refused by name. -/
def REFUSING : ℤ := 16

/-- The answer to a hello the relay refuses. -/
def TLS_ALERT : Bytes := [21, 3, 3, 0, 2, 2, 40]

/-- What a running relay does not change. -/
structure Running where
  spec : Spec
  names : List NameGrant
  own : List Bytes
  timeouts : HeldTimeouts
  limits : HeldLimits
  tls_ports : List ℤ
  token_digest : Option Bytes

def name_grants (grants : List Bytes) : List NameGrant :=
  grants.filterMap fun grant =>
    match Grant.parse grant with
    | .error _ => none
    | .ok parsed =>
      if parsed.kind = .any ∨ parsed.kind = .name then some ⟨parsed.host, parsed.port⟩ else none

/-- Whether `names` grant the name `host` on `port`. -/
def name_granted (names : List NameGrant) (host : Bytes) (port : ℕ) : Bool :=
  names.any fun grant => (grant.host = lit "*" || grant.host = host) && (grant.port = 0 || grant.port = port)

/-- `given`, or the default where there is none. -/
def chosen (given : Option ℤ) (default : ℤ) (name : Bytes) : Except Bytes ℤ :=
  match given with
  | none => .ok default
  | some n => if n < 1 then .error (lit "relay: " ++ name ++ lit " must be an integer from 1") else .ok n

def checked_upstream (up : Upstream) : Except Bytes Unit :=
  if up.host = [] ∨ up.host.any (fun b => isControl b || isSpace b) then
    .error (lit "relay: spec.upstream.host must be a host name or address")
  else if up.port < 1 ∨ 65535 < up.port then
    .error (lit "relay: spec.upstream.port must be a port from 1 to 65535")
  else if up.authorization.any (·.any isControl) then
    .error (lit "relay: spec.upstream.authorization must be a header value with no control bytes")
  else
    match up.addresses with
    | none => .ok ()
    | some addresses =>
      if addresses = [] then
        .error (lit "relay: spec.upstream.addresses must be a list of one numeric address or more")
      else if addresses.any fun address => (RelayAddress.parse address).isNone then
        .error (lit "relay: spec.upstream.addresses must hold numeric addresses")
      else .ok ()

/-- The relay that `spec` asks for, or why it is no spec. (That there is a listener is the business of
what runs it.) -/
def start (o : Outside) (spec : Spec) : Except Bytes Running := do
  match spec.upstream with
  | none => .ok ()
  | some up => checked_upstream up
  if spec.token.any fun token => token.length < 16 || 255 < token.length || token.any isControl then
    .error (lit "relay: spec.token must be a string of 16 to 255 bytes with no control byte (draw 128 bits or more)")
  let resolve ← chosen spec.timeouts.resolve DEFAULT_TIMEOUTS.resolve (lit "timeouts.resolve")
  let connect ← chosen spec.timeouts.connect DEFAULT_TIMEOUTS.connect (lit "timeouts.connect")
  let idle ← chosen spec.timeouts.idle DEFAULT_TIMEOUTS.idle (lit "timeouts.idle")
  let head ← chosen spec.timeouts.head DEFAULT_TIMEOUTS.head (lit "timeouts.head")
  let auth ← chosen spec.timeouts.auth DEFAULT_TIMEOUTS.auth (lit "timeouts.auth")
  let connections ← chosen spec.limits.connections DEFAULT_LIMITS.connections (lit "limits.connections")
  let header_bytes ← chosen spec.limits.header_bytes DEFAULT_LIMITS.header_bytes (lit "limits.header_bytes")
  let total ← chosen spec.limits.total DEFAULT_LIMITS.total (lit "limits.total")
  let pre_auth ← chosen spec.limits.pre_auth DEFAULT_LIMITS.pre_auth (lit "limits.pre_auth")
  let tls_ports := spec.tls_ports.getD DEFAULT_TLS_PORTS
  if tls_ports.any fun port => port < 1 || 65535 < port then
    .error (lit "relay: spec.tls_ports must hold ports from 1 to 65535")
  let own ← RelayAddress.own_addresses spec.own_addresses
  return {
    spec, names := name_grants spec.grants, own
    timeouts := { resolve, connect, idle, head, auth }
    limits := { connections, header_bytes, total, pre_auth }
    tls_ports, token_digest := spec.token.map o.sha256 }

theorem chosen_pos {given : Option ℤ} {default n : ℤ} {name : Bytes} (hdefault : 1 ≤ default)
    (h : chosen given default name = .ok n) : 1 ≤ n := by
  unfold chosen at h
  split at h
  · rwa [← ok.inj h]
  · split at h
    · cases h
    · next hle =>
      rw [← ok.inj h]
      exact not_lt.mp hle

theorem ok_of_bind {α β ε : Type} {x : Except ε α} {f : α → Except ε β} {b : β} (h : (x >>= f) = .ok b) :
    ∃ a, x = .ok a ∧ f a = .ok b := by
  cases x with
  | error e => exact absurd h nofun
  | ok a => exact ⟨a, rfl, h⟩

structure Started (o : Outside) (spec : Spec) (run : Running) : Prop where
  names : run.names = name_grants spec.grants
  token : run.token_digest = spec.token.map o.sha256
  connections : 1 ≤ run.limits.connections
  total : 1 ≤ run.limits.total
  pre_auth : 1 ≤ run.limits.pre_auth
  same : run.spec = spec

theorem start_ok {o : Outside} {spec : Spec} {run : Running} (h : start o spec = .ok run) : Started o spec run := by
  unfold start at h
  cases hup : spec.upstream
  all_goals
    rw [hup] at h
    dsimp only at h
    obtain ⟨_, -, h⟩ := ok_of_bind h
    split at h
    · cases h
    obtain ⟨resolve, -, h⟩ := ok_of_bind h
    obtain ⟨connect, -, h⟩ := ok_of_bind h
    obtain ⟨idle, -, h⟩ := ok_of_bind h
    obtain ⟨head, -, h⟩ := ok_of_bind h
    obtain ⟨auth, -, h⟩ := ok_of_bind h
    obtain ⟨connections, hconnections, h⟩ := ok_of_bind h
    obtain ⟨header_bytes, -, h⟩ := ok_of_bind h
    obtain ⟨total, htotal, h⟩ := ok_of_bind h
    obtain ⟨pre_auth, hpre, h⟩ := ok_of_bind h
    split at h
    · cases h
    obtain ⟨own, -, h⟩ := ok_of_bind h
    cases h
    exact ⟨rfl, rfl, chosen_pos (by decide) hconnections, chosen_pos (by decide) htotal,
      chosen_pos (by decide) hpre, rfl⟩

/-! ## Refusals -/

/-- Why a connection is refused, and what the program is told. -/
structure Refusal where
  reason : Bytes
  /-- The HTTP status of the CONNECT reply. -/
  http : ℕ
  /-- The SOCKS5 reply code. -/
  socks : SocksReply
deriving DecidableEq

/-- `String.counted` -/
def counted (n : ℤ) (singular : Bytes) : Bytes :=
  RelayAddress.integer_text n ++ lit " " ++ (if n = 1 then singular else singular ++ lit "s")

/-- `ns` in words. -/
def span (ns : ℤ) : Bytes :=
  if SECOND ≤ ns then counted (ns / SECOND) (lit "second") else counted (ns / 1000000) (lit "millisecond")

/-- The plain text `part` is in `text`. -/
def has (text part : Bytes) : Bool := (index_of part text).isSome

/-- `Poll.TIMEOUT` -/
def TIMEOUT : Bytes := lit "timed out"

def connect_failure (address why : Bytes) : Refusal :=
  let text := lit "could not connect to " ++ address ++ lit ": " ++ why
  let lowered := lower why
  if why = TIMEOUT ∨ has lowered (lit "timed out") then ⟨text, 504, .ttl_expired⟩
  else if has lowered (lit "refused") then ⟨text, 502, .refused⟩
  else if has lowered (lit "unreachable") then ⟨text, 502, .network_unreachable⟩
  else ⟨text, 502, .host_unreachable⟩

/-! ## The reply to a CONNECT -/

def MAX_PHRASE : ℕ := 200

def connect_ok : Bytes := lit "HTTP/1.1 200 Connection established\r\n\r\n"

/-- The spaces at both ends of `text` cut off. -/
def unspaced (text : Bytes) : Bytes := ((text.dropWhile (· = 32)).reverse.dropWhile (· = 32)).reverse

/-- The reply to a CONNECT that was refused or failed; it raises on a status that is none. -/
def connect_refusal (status : ℕ) (why : Bytes) : Except Bytes Bytes :=
  if status < 400 ∨ 599 < status then .error (lit "connect_refusal: status must be from 400 to 599")
  else
    let phrase := unspaced ((why.map fun b => if 32 ≤ b && b ≤ 126 then b else 63).take MAX_PHRASE)
    let phrase := if phrase = [] then lit "Refused" else phrase
    let extra :=
      if status = 405 then lit "Allow: CONNECT\r\n"
      else if status = 407 then lit "Proxy-Authenticate: Basic realm=\"cosmic sandbox\"\r\n"
      else []
    .ok (lit "HTTP/1.1 " ++ tostring status ++ lit " " ++ phrase ++ lit "\r\n" ++ extra ++
      lit "Connection: close\r\nContent-Length: 0\r\n\r\n")

/-! ## Credentials -/

/-- Whether `given` is the token: the bytes of both digests are compared. -/
def is_token (o : Outside) (digest given : Bytes) : Bool := o.sha256 given = digest

/-- `String.trim` -/
def trim (text : Bytes) : Bytes := ((text.dropWhile isSpace).reverse.dropWhile isSpace).reverse

/-- The password of a Basic `Proxy-Authorization` value, or why there is none. -/
def basic_password (o : Outside) (authorization : Option Bytes) : Except Bytes Bytes :=
  match authorization with
  | none => .error (lit "no Proxy-Authorization")
  | some value =>
    -- `^(%S+)%s+(.*)$`
    let scheme := value.takeWhile fun b => !isSpace b
    let after := value.dropWhile fun b => !isSpace b
    if scheme = [] ∨ after = [] ∨ lower scheme ≠ lit "basic" then
      .error (lit "Proxy-Authorization is not Basic")
    else
      match o.unbase64 (trim after) with
      | none => .error (lit "Proxy-Authorization is not base64")
      | some decoded =>
        match index_of (lit ":") decoded with
        | none => .error (lit "Proxy-Authorization is not user:password")
        | some colon => .ok (decoded.drop (colon + 1))

/-! ## Grants, addresses and the hello -/

/-- `host:port` -/
def target (host : Bytes) (port : ℤ) : Bytes := RelayAddress.target host port

/-- `Address.granted` -/
def granted (address : Bytes) (port : ℤ) (grants : List Bytes) : Bool :=
  match RelayAddress.parse address with
  | none => false
  | some bytes => RelayAddress.granted bytes port grants

/-- What `^(.-):(%d+)$` captures. -/
def name_port (entry : Bytes) : Option (Bytes × Bytes) :=
  let after := (entry.reverse.takeWhile (· ≠ 58)).reverse
  if 58 ∈ entry ∧ after ≠ [] ∧ after.all isDigit then
    some (entry.take (entry.length - after.length - 1), after)
  else none

/-- The entry without a `*.` or `.` before it. -/
def undotted : Bytes → Bytes
  | 42 :: 46 :: rest => rest
  | 46 :: rest => rest
  | entry => entry

/-- Whether one entry of `no_proxy` names `host` on `port`. -/
def bypassed_by (host : Bytes) (port : ℕ) (listed : Bytes) : Bool :=
  let entry := lower listed
  if entry = lit "*" then true
  else
    let matches_ := fun entry =>
      let entry := undotted entry
      host = entry || (lit "." ++ entry).isSuffixOf host
    match name_port entry with
    | some (name, at_) =>
      if ¬has entry (lit "::") ∧ entry.head? ≠ some 91 then
        if digits_value 10 at_ ≠ port then false else matches_ name
      else matches_ entry
    | none => matches_ entry

/-- Whether `no_proxy` says to reach `host` on `port` directly. -/
def bypasses (no_proxy : List Bytes) (host : Bytes) (port : ℕ) : Bool := no_proxy.any (bypassed_by host port)

/-- Whether the hello `seen` is allowed to the requested host, and why not. -/
def judged (host : Bytes) (kind : Kind) (strict : Bool) (seen : Hello) (requested : Bytes) : Except Bytes Unit :=
  match seen.status with
  | .not_tls => .ok ()
  | .malformed => .error (lit "refused a malformed TLS ClientHello: " ++ seen.reason.getD [])
  | .encrypted_sni =>
    .error (lit "refused a ClientHello with an encrypted server name (ECH or ESNI), which the relay cannot match to " ++
      requested ++ lit ": turn Encrypted Client Hello off in the client")
  | .no_sni =>
    if strict ∧ kind = .name then
      .error (lit "refused a ClientHello with no server name on a TLS port: the relay matches it to " ++
        requested ++ lit ", so the client must send SNI")
    else .ok ()
  | _ =>
    let named := seen.name.getD []
    if kind ≠ .name then
      .error (lit "refused a ClientHello naming " ++ named ++ lit " for a connection to the address " ++
        requested ++ lit ": connect by name and grant --connect " ++ named ++ lit ":<port>")
    else if seen.name ≠ some host then
      .error (lit "refused a ClientHello naming " ++ named ++ lit " for a connection to " ++ requested ++
        lit ": connect to " ++ named ++ lit " by name, and grant --connect " ++ named ++ lit ":<port>")
    else .ok ()

end Cosmic.RelayServer

/-!
One connection of the relay's server, from wait to wait: `internal/relay_server.tl`.

A connection's task runs with no other task between its waits, so what it does is a function of what its
wait answers. A wait that a time limits may be answered by that limit at any time. What it was sent
and what was decided of it are kept beside, for what is said of it.
-/

namespace Cosmic.RelayServer

open Cosmic.Base
open Cosmic.Wire
open Cosmic.RelayAddress (Answer)

/-! ## The state of a connection -/

inductive Protocol where
  | mixed
  | connect
  | socks5
deriving DecidableEq

/-- Where one connection stands in the relay's counts. -/
structure Slot where
  pre_auth : Bool
  admitted : Bool
deriving DecidableEq

/-- What a send is followed by. -/
inductive Next where
  /-- A refusal with no more of a reply. -/
  | refuse (why : Refusal)
  /-- The rest of what a SOCKS5 client sent, its method chosen. -/
  | chosen (rest : Bytes)
  /-- The rest of what it sent, its password taken. -/
  | passed (rest : Bytes)
  /-- The end of a refused connection. -/
  | close
  | tunnel

/-- Where one direction of a tunnel is. -/
inductive Pump where
  | reading
  | sending (data : Bytes)
  /-- The program's first bytes were refused, and it is sent an alert. -/
  | alerting
  | done

/-- The program's first bytes, held until the hello is decided. -/
structure Sniff where
  reader : HelloReading
  held : Bytes
  /-- The program has sent a byte, so the hello is to be whole in time. -/
  timed : Bool

structure Tunnel where
  /-- From the program to the far side. -/
  up : Pump
  /-- From the far side to the program. -/
  down : Pump
  sniff : Option Sniff
  flow_ended : Bool

/-- The wait a connection's task is in. -/
inductive Phase where
  /-- The first byte of a mixed connection. -/
  | sniffing
  | heading (reader : Reading) (all : Bytes)
  | greeting (reader : Held SocksGreeting) (all : Bytes)
  | authenticating (reader : Held SocksAuth) (fed : Bytes)
  | requesting (reader : Held SocksRequest) (held : Bytes)
  | sending (text : Bytes) (next : Next)
  /-- A refused connection is read so many times more. -/
  | closing (reads : ℕ)
  | looking (cancelled : Bool)
  /-- The connector is asked for `address`, then for those of `left`. -/
  | connecting (address : Bytes) (left : List Bytes) (failures : List Bytes)
  /-- An upstream is asked to CONNECT. -/
  | asking
  | answering (head : Bytes)
  | tunnel (t : Tunnel)
  | ended

/-- What was sent to a connection and decided of it. -/
structure Seen where
  /-- The bytes read of the client, and of the far side. -/
  received : Bytes
  far_received : Bytes
  /-- The counts of open and accepted connections as it was admitted. -/
  admitted : Option (ℤ × ℤ)
  /-- The password that was the token. -/
  password : Option Bytes
  /-- The resolver's answers. -/
  answers : Option (List Answer)
  /-- What the connector was asked for. -/
  asked : List (Bytes × ℤ)
  made : Bool
  told : Bool
  /-- The bytes of the client that the far side was sent, and of the far side that the client was. -/
  passed : Bytes
  returned : Bytes

def Seen.none : Seen :=
  { received := [], far_received := [], admitted := Option.none, password := Option.none
    answers := Option.none, asked := [], made := false, told := false, passed := [], returned := [] }

structure Conn where
  protocol : Protocol
  phase : Phase
  slot : Slot
  /-- Why it is refused outright, empty where it is counted already, none until it has authenticated. -/
  over_ : Option Bytes
  host : Bytes
  kind : Kind
  port : ℕ
  leftover : Bytes
  /-- The bytes after an upstream's reply. -/
  first : Bytes
  client_open : Bool
  far_open : Bool
  seen : Seen

structure Counts where
  stopping : Bool
  pending : ℤ
  open_ : ℤ
  accepted : ℤ
  refused : ℤ

/-- A connection and the counts, while its task runs. -/
structure At where
  counts : Counts
  conn : Conn

def At.wait (s : At) (phase : Phase) : At := { s with conn := { s.conn with phase } }

/-- The request that was read. -/
def At.asks (s : At) (host : Bytes) (kind : Kind) (port : ℕ) (leftover : Bytes) : At :=
  { s with conn := { s.conn with host, kind, port, leftover } }

def At.refuses (s : At) : At := { s with counts := { s.counts with refused := s.counts.refused + 1 } }

/-- What was seen, kept beside. -/
def At.sees (s : At) (f : Seen → Seen) : At := { s with conn := { s.conn with seen := f s.conn.seen } }

def Seen.reads (seen : Seen) (b : Bytes) : Seen := { seen with received := seen.received ++ b }

def Seen.reads_far (seen : Seen) (b : Bytes) : Seen := { seen with far_received := seen.far_received ++ b }

/-! ## Admission -/

/-- Why a connection that arrives now is refused outright. -/
def over_cap (limits : HeldLimits) (counts : Counts) : Bytes :=
  if limits.total < counts.accepted then
    lit "connection budget spent: this sandbox's relay serves at most " ++ counted limits.total (lit "connection")
  else if limits.connections < counts.open_ then
    lit "too many open connections: at most " ++ RelayAddress.integer_text limits.connections ++ lit " at once"
  else []

/-- Moves the connection into the counts of open and accepted connections. -/
def admit_conn (limits : HeldLimits) (s : At) : At :=
  let pending := if s.conn.slot.pre_auth then s.counts.pending - 1 else s.counts.pending
  let counts := { s.counts with pending, open_ := s.counts.open_ + 1, accepted := s.counts.accepted + 1 }
  { counts
    conn := { s.conn with
      slot := ⟨false, true⟩
      over_ := some (over_cap limits counts)
      seen := { s.conn.seen with admitted := some (counts.open_, counts.accepted) } } }

/-- The connection's task ends: its sockets are closed, and it leaves the count it is in. -/
def finish (s : At) : At :=
  { counts :=
      if s.conn.slot.pre_auth then { s.counts with pending := s.counts.pending - 1 }
      else if s.conn.slot.admitted then { s.counts with open_ := s.counts.open_ - 1 }
      else s.counts
    conn := { s.conn with phase := .ended, client_open := false, far_open := false } }

/-- The connection is refused, and closed once what it still sends was read for a moment. -/
def reject (why : Refusal) (replied : Bool) (s : At) : At :=
  let s := s.refuses
  if replied then
    if s.conn.protocol = .connect then
      let phrase := if why.http = 407 then lit "Proxy Authentication Required" else why.reason
      match connect_refusal why.http phrase with
      | .ok text => s.wait (.sending text .close)
      | .error _ => finish s
    else s.wait (.sending (socks_reply why.socks) .close)
  else s.wait (.closing 2)

section

variable (o : Outside) (run : Running)

def first_wait : ℤ := if run.token_digest.isSome then run.timeouts.auth else run.timeouts.head

/-- A connection that has authenticated is counted, where it is not yet. -/
def authenticated (password : Bytes) (s : At) : At :=
  let s' := s.sees fun seen => { seen with password := some password }
  match s.conn.over_ with
  | none => admit_conn run.limits s'
  | some _ => s'

/-! ## Connecting -/

def upstream_of (s : At) : Option Upstream :=
  match run.spec.upstream with
  | none => none
  | some up => if bypasses up.no_proxy s.conn.host s.conn.port then none else some up

/-- The host and the port that are connected to. -/
def destination (s : At) : Bytes × ℤ :=
  match upstream_of run s with
  | some up => (up.host, up.port)
  | none => (s.conn.host, s.conn.port)

/-- Asks the connector for the first of `addresses`; it raises where there is none. -/
def ask_connector (failures : List Bytes) (addresses : List Bytes) (s : At) : At :=
  match addresses with
  | [] => finish s
  | address :: left =>
    (s.sees fun seen => { seen with asked := seen.asked ++ [(address, (destination run s).2)] }).wait
      (.connecting address left failures)

/-- The refusal where no address could be connected to. -/
def none_answered (failures : List Bytes) (last : Refusal) (s : At) : Refusal :=
  let label := if (upstream_of run s).isSome then lit "the upstream proxy " else []
  match failures with
  | [_] => last
  | _ =>
    let (name, port) := destination run s
    { last with
      reason := lit "could not connect to " ++ label ++ target name port ++
        lit ": none of its addresses answered (" ++ concat (lit "; ") failures ++ lit ")" }

/-- An address could not be connected to: the next is, where there is one and time for it. -/
def not_connected (address : Bytes) (left failures : List Bytes) (why : Bytes) (late : Bool) (s : At) : At :=
  let port := (destination run s).2
  let label := if (upstream_of run s).isSome then lit "the upstream proxy " else []
  let failures := failures ++ [target address port ++ lit ": " ++ why]
  let last := connect_failure (label ++ target address port) why
  match left with
  | [] => reject (none_answered run failures last s) true s
  | next :: _ =>
    if late then
      let failures := failures ++ [target next port ++ lit ": no time left"]
      let last := connect_failure (label ++ target next port) TIMEOUT
      reject (none_answered run failures last s) true s
    else ask_connector run failures left s

/-- The addresses of `answers` that may be connected to, or why none. -/
def choose (answers : List Answer) (s : At) : At :=
  let s := s.sees fun seen => { seen with answers := some answers }
  let (name, port) := destination run s
  let grants :=
    if (upstream_of run s).isSome then run.spec.grants ++ answers.map fun a => target a.address port
    else run.spec.grants
  match RelayAddress.permitted answers port grants run.own with
  | .error _ => finish s
  | .ok (none, trouble) => reject ⟨target name port ++ lit ": " ++ trouble, 403, .not_allowed⟩ true s
  | .ok (some allowed, _) => ask_connector run [] (allowed.map Answer.address) s

/-- Resolves the name that is connected to. -/
def resolve (s : At) : At :=
  let (name, _) := destination run s
  let addresses := (upstream_of run s).bind Upstream.addresses
  match addresses with
  | some addresses =>
    choose run (addresses.map fun a => ⟨a, if 58 ∈ a then lit "ipv6" else lit "ipv4"⟩) s
  | none =>
    match run.spec.unresolved, RelayAddress.parse name with
    | some why, none => reject ⟨lit "could not resolve " ++ name ++ lit ": " ++ why, 502, .host_unreachable⟩ true s
    | _, _ =>
      if s.counts.stopping then
        reject ⟨lit "could not resolve " ++ name ++ lit ": the relay is stopping", 502, .host_unreachable⟩ true s
      else s.wait (.looking false)

/-- The lookup failed. -/
def not_resolved (why : Bytes) (s : At) : At :=
  let (name, _) := destination run s
  if why = TIMEOUT then
    reject ⟨lit "resolving " ++ name ++ lit " timed out after " ++ span run.timeouts.resolve, 504, .ttl_expired⟩ true s
  else reject ⟨lit "could not resolve " ++ name ++ lit ": " ++ why, 502, .host_unreachable⟩ true s

/-- `localhost` and what ends on it. -/
def is_local (host : Bytes) : Bool := host = lit "localhost" || (lit ".localhost").isSuffixOf host

/-- The request is whole: it is held to the caps and the grants, and connected. -/
def decide_request (s : At) : At :=
  let shown := target s.conn.host s.conn.port
  match s.conn.over_ with
  -- a relay with a token has admitted nothing that did not authenticate
  | none => reject ⟨lit "not authenticated", 407, .failure⟩ true s
  | some over_ =>
    if over_ ≠ [] then reject ⟨over_, 503, .failure⟩ true s
    else if s.conn.kind = .name ∧ ¬name_granted run.names s.conn.host s.conn.port then
      reject ⟨lit "not granted: --connect " ++ shown, 403, .not_allowed⟩ true s
    else if s.conn.kind ≠ .name ∧ ¬granted s.conn.host s.conn.port run.spec.grants then
      reject ⟨lit "not granted: --connect " ++ shown ++
        lit " (a request by IP address needs that address granted literally)", 403, .not_allowed⟩ true s
    else if (upstream_of run s).isSome ∧ s.conn.kind = .name ∧ is_local s.conn.host then
      reject ⟨shown ++ lit " is not relayed through the upstream proxy: it would name the proxy's own host, not the " ++
        lit "sandbox's", 403, .not_allowed⟩ true s
    else if (upstream_of run s).isNone ∧ s.conn.kind ≠ .name then ask_connector run [] [s.conn.host] s
    else resolve run s

end

end Cosmic.RelayServer
