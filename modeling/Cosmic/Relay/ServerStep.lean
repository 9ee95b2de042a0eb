/-
What the answer to a wait makes of a connection: `internal/relay_server.tl`.
-/
import Cosmic.Relay.Server

set_option autoImplicit false

namespace Cosmic.RelayServer

open Cosmic.Base
open Cosmic.Wire
open Cosmic.RelayAddress (Answer)

/-- What a wait is answered with. -/
inductive Reply where
  /-- A read's bytes. -/
  | data (b : Bytes)
  /-- Why a read took nothing; empty at the end of what the peer sends. -/
  | nothing (why : Bytes)
  /-- A write took the first `n` bytes, all of them where it is `ok`. -/
  | sent (n : ℕ) (ok : Bool)
  /-- A lookup's answers, and why it has none. -/
  | found (answers : List Answer)
  | lost (why : Bytes)
  /-- The connector's connection, and why it has none; whether the time for all the addresses is over. -/
  | made
  | trouble (why : Bytes) (late : Bool)
  /-- A tunnel was idle too long, and its hello was not whole in time. -/
  | idle
  | hello_late
  /-- The task was raised in. -/
  | fault

section

variable (o : Outside) (run : Running)

/-! ## The tunnel -/

def At.tunnel (s : At) (t : Tunnel) : At := s.wait (.tunnel t)

def end_with (t : Tunnel) (s : At) : Tunnel × At :=
  ({ t with flow_ended := true }, { s with conn := { s.conn with client_open := false, far_open := false } })

def strict (s : At) : Bool := run.tls_ports.contains (s.conn.port : ℤ)

/-- The program's bytes `data`: held until the hello is decided, then passed. -/
def take_up (data : Bytes) (t : Tunnel) (s : At) : Tunnel × At :=
  match t.sniff with
  | none => ({ t with up := .sending data }, s)
  | some sniff =>
    let held := sniff.held ++ data
    let (reader, seen) := hello_reader.feed sniff.reader data
    if seen.status = .more then ({ t with up := .reading, sniff := some ⟨reader, held, true⟩ }, s)
    else
      match judged s.conn.host s.conn.kind (strict run s) seen (target s.conn.host s.conn.port) with
      | .error _ =>
        ({ t with up := .alerting, sniff := some ⟨reader, held, true⟩ }, s.refuses)
      | .ok () => ({ t with up := .sending held, sniff := none }, s)

/-- A direction that has nothing to do waits for more, unless the tunnel has ended. -/
def again (t : Tunnel) : Pump := if t.flow_ended then .done else .reading

/-- The tunnel waits on, or is over where both directions are. -/
def settle (p : Tunnel × At) : At :=
  match p.1.up, p.1.down with
  | .done, .done => finish p.2
  | _, _ => p.2.tunnel p.1

def begin_tunnel (s : At) : At :=
  let t : Tunnel :=
    { up := .reading, down := if s.conn.first = [] then .reading else .sending s.conn.first
      sniff := some ⟨hello_reader.start, [], false⟩, flow_ended := false }
  settle (if s.conn.leftover = [] then (t, s) else take_up run s.conn.leftover t s)

/-- What the answer makes of the program's direction. -/
def step_up (a : Reply) (t : Tunnel) (s : At) : Option (Tunnel × At) :=
  match t.up, a with
  | .reading, .data b =>
    if s.conn.client_open = false ∨ b = [] then none
    else
      let s := s.sees fun seen => seen.reads b
      if t.flow_ended then some ({ t with up := .done }, s) else some (take_up run b t s)
  | .reading, .nothing why =>
    if t.flow_ended ∨ why = [] then some ({ t with up := .done }, s)
    -- a read of what was closed meanwhile fails at once
    else if why = TIMEOUT ∧ s.conn.client_open then some (t, s)
    else
      let (t, s) := end_with t s
      some ({ t with up := .done }, s)
  | .reading, .idle =>
    let (t, s) := end_with t s
    some ({ t with up := .done }, s)
  | .reading, .hello_late =>
    if t.sniff.any Sniff.timed then
      some ({ t with up := .alerting }, s.refuses)
    else none
  | .sending data, .sent n ok =>
    let n := if ok then data.length else n
    let s := s.sees fun seen => { seen with passed := seen.passed ++ data.take n }
    if ok then some ({ t with up := again t }, s)
    else
      let (t, s) := end_with t s
      some ({ t with up := .done }, s)
  | .alerting, .sent _ _ =>
    let (t, s) := end_with t s
    some ({ t with up := .done }, s)
  | _, _ => none

/-- What the answer makes of the far side's direction. -/
def step_down (a : Reply) (t : Tunnel) (s : At) : Option (Tunnel × At) :=
  match t.down, a with
  | .reading, .data b =>
    if s.conn.far_open = false ∨ b = [] then none
    else
      let s := s.sees fun seen => seen.reads_far b
      if t.flow_ended then some ({ t with down := .done }, s) else some ({ t with down := .sending b }, s)
  | .reading, .nothing why =>
    if t.flow_ended ∨ why = [] then some ({ t with down := .done }, s)
    else if why = TIMEOUT ∧ s.conn.far_open then some (t, s)
    else
      let (t, s) := end_with t s
      some ({ t with down := .done }, s)
  | .reading, .idle =>
    let (t, s) := end_with t s
    some ({ t with down := .done }, s)
  | .sending data, .sent n ok =>
    let n := if ok then data.length else n
    let s := s.sees fun seen => { seen with returned := seen.returned ++ data.take n }
    if ok then some ({ t with down := again t }, s)
    else
      let (t, s) := end_with t s
      some ({ t with down := .done }, s)
  | _, _ => none

/-! ## An upstream -/

/-- What `^HTTP/1%.[01] (%d%d%d)` captures. -/
def status_code (head : Bytes) : Option Bytes :=
  match head with
  | 72 :: 84 :: 84 :: 80 :: 47 :: 49 :: 46 :: minor :: 32 :: a :: b :: c :: _ =>
    if (minor = 48 ∨ minor = 49) ∧ isDigit a ∧ isDigit b ∧ isDigit c then some [a, b, c] else none
  | _ => none

/-- What an upstream's answer so far says: the bytes after its head, or why it is no success. -/
def upstream_answer (head : Bytes) : Option (Except Bytes Bytes) :=
  match index_of (lit "\r\n\r\n") head with
  | some ends =>
    match status_code head with
    | none => some (.error (lit "the upstream proxy did not answer with an HTTP status"))
    | some code =>
      if code.head? = some 50 then some (.ok (head.drop (ends + 4)))
      else
        let line := ((head.takeWhile fun b => b ≠ 13 && b ≠ 10).map fun b =>
          if 32 ≤ b && b ≤ 126 then b else 63).take 80
        let hint := if code = lit "407" then lit " (set https_proxy with user:password@ for it)" else []
        some (.error (lit "the upstream proxy refused the CONNECT: " ++ line ++ hint))
  | none =>
    if 16384 < head.length then some (.error (lit "the upstream proxy's answer is longer than 16384 bytes"))
    else none

/-- The far side is connected: a connection made after `stop` is closed, not served. -/
def serve (first : Bytes) (s : At) : At :=
  if s.counts.stopping then finish s
  else
    let text := if s.conn.protocol = .connect then connect_ok else socks_reply .succeeded
    let s := s.sees fun seen => { seen with told := true }
    { s with conn := { s.conn with first, phase := .sending text .tunnel } }

def connected (s : At) : At :=
  let s := s.sees fun seen => { seen with made := true }
  let s := { s with conn := { s.conn with far_open := true } }
  match upstream_of run s with
  | none => serve [] s
  | some _ => s.wait .asking

/-- The upstream did not connect: its connection is closed. -/
def not_through (why : Bytes) (s : At) : At :=
  reject ⟨why, 502, .failure⟩ true { s with conn := { s.conn with far_open := false } }

/-! ## The request of a CONNECT connection -/

/-- The head of a CONNECT connection was read, with the bytes after it, or refused. -/
def connect_asked (head : Connect) (rest : Bytes) (s : At) : At :=
  if head.status = .refused then
    let status := head.http_status.getD 0
    reject ⟨head.reason.getD [], if status = 0 then 400 else status, .failure⟩ (status ≠ 0) s
  else
    let asked := fun s : At =>
      match head.host, head.kind, head.port with
      | some host, some kind, some port =>
        decide_request run (s.asks host kind port rest)
      | _, _, _ => reject ⟨lit "the request names no target", 400, .failure⟩ true s
    match run.token_digest with
    | none => asked s
    | some digest =>
      match basic_password o head.authorization with
      | .error why => reject ⟨lit "not authenticated: " ++ why, 407, .failure⟩ true s
      | .ok password =>
        if is_token o digest password then asked (authenticated run password s)
        else
          reject ⟨lit "not authenticated: the password is not the sandbox's token", 407, .failure⟩ true s

/-- A head longer than the relay takes. -/
def over_head : Connect :=
  refused (lit "request head longer than " ++ counted run.limits.header_bytes (lit "byte") ++ lit " (the relay's cap)") 431

/-- The bytes `data` of a CONNECT head, after `all`. -/
def head_fed (reader : Reading) (all data : Bytes) (s : At) : At :=
  let all := all ++ data
  let (reader, answer) := connect_reader.feed reader data
  match answer.status with
  | .refused => connect_asked o run answer [] s
  | .done =>
    if run.limits.header_bytes < answer.consumed then connect_asked o run (over_head run) [] s
    else connect_asked o run answer (all.drop answer.consumed) s
  | .more =>
    if run.limits.header_bytes ≤ all.length then connect_asked o run (over_head run) [] s
    else s.wait (.heading reader all)

/-- The head of a CONNECT connection was not read. -/
def head_unread (why : Bytes) (s : At) : At :=
  let answer :=
    if why = TIMEOUT then
      refused ((if run.token_digest.isSome then lit "request and credential" else lit "request") ++
        lit " not received within " ++ span (first_wait run)) 408
    else refused (lit "the program closed before its request was whole") 0
  connect_asked o run answer [] s

/-! ## The request of a SOCKS5 connection -/

/-- The program closed, or its time is over. -/
def socks_unread (authing : Bool) (limit : ℤ) (why : Bytes) (s : At) : At :=
  let why :=
    if why = TIMEOUT then
      (if authing then lit "greeting and credential" else lit "request") ++ lit " not received within " ++ span limit
    else lit "the program closed before its request was whole"
  reject ⟨why, 400, .failure⟩ false s

/-- The wait of a SOCKS5 connection's request, once it has authenticated where it is to. -/
def request_wait : ℤ := if run.token_digest.isSome then run.timeouts.head else first_wait run

/-- The bytes `data` of a SOCKS5 request, after `held`. -/
def request_fed (reader : Held SocksRequest) (held data : Bytes) (s : At) : At :=
  let held := held ++ data
  let (reader, answer) := socks_request_reader.feed reader data
  match answer.status with
  | .refused => reject ⟨answer.reason.getD [], 400, answer.reply.getD .failure⟩ true s
  | .done =>
    match answer.host, answer.kind, answer.port with
    | some host, some kind, some port =>
      decide_request run (s.asks host kind port (held.drop answer.consumed))
    | _, _, _ => reject ⟨lit "the request names no target", 400, .failure⟩ true s
  | .more =>
    if run.limits.header_bytes ≤ held.length then
      reject ⟨lit "request longer than the relay's cap", 400, .failure⟩ true s
    else s.wait (.requesting reader held)

/-- A SOCKS5 request is to be read, `rest` of it already. -/
def request_begins (rest : Bytes) (s : At) : At :=
  if rest = [] then s.wait (.requesting socks_request_reader.start [])
  else request_fed run socks_request_reader.start [] rest s

/-- The bytes `data` of a username and password, after `fed`. -/
def auth_fed (digest : Bytes) (reader : Held SocksAuth) (fed data : Bytes) (s : At) : At :=
  let fed := fed ++ data
  let (reader, given) := socks_auth_reader.feed reader data
  match given.status with
  | .more => s.wait (.authenticating reader fed)
  | .refused =>
    s.wait (.sending (socks_auth_reply false) (.refuse ⟨lit "not authenticated: " ++ given.reason.getD [], 400, .failure⟩))
  | .done =>
    let password := given.password.getD []
    if is_token o digest password then
      (s.sees fun seen => { seen with password := some password }).wait
        (.sending (socks_auth_reply true) (.passed (fed.drop given.consumed)))
    else
      s.wait (.sending (socks_auth_reply false)
        (.refuse ⟨lit "not authenticated: the password is not the sandbox's token", 400, .failure⟩))

/-- The method is chosen: a username and password are to be read where there is a token, else the
request is. -/
def chosen_method (rest : Bytes) (s : At) : At :=
  match run.token_digest with
  | none => request_begins run rest s
  | some digest =>
    if rest = [] then s.wait (.authenticating socks_auth_reader.start [])
    else auth_fed o digest socks_auth_reader.start [] rest s

/-- The bytes `data` of a SOCKS5 greeting, after `all`. -/
def greeting_fed (reader : Held SocksGreeting) (all data : Bytes) (s : At) : At :=
  let all := all ++ data
  let (reader, greeted) := (socks_greeting_reader run.token_digest.isSome).feed reader data
  match greeted.status with
  | .more =>
    if run.limits.header_bytes ≤ all.length then
      reject ⟨lit "greeting longer than the relay's cap", 400, .failure⟩ false s
    else s.wait (.greeting reader all)
  | .refused =>
    let why : Refusal := ⟨greeted.reason.getD [], 400, .failure⟩
    if greeted.method = some 255 then s.wait (.sending (socks_method_reply 255) (.refuse why))
    else reject why false s
  | .done =>
    if run.token_digest.isSome ∧ greeted.method ≠ some 2 then
      s.wait (.sending (socks_method_reply 255)
        (.refuse ⟨lit "not authenticated: the relay takes only username/password authentication", 400, .failure⟩))
    else
      s.wait (.sending (socks_method_reply (UInt8.ofNat (greeted.method.getD 0))) (.chosen (all.drop greeted.consumed)))

/-! ## A step -/

/-- The wait a connection begins with. -/
def first_phase : Protocol → Phase
  | .mixed => .sniffing
  | .connect => .heading connect_reader.start []
  | .socks5 => .greeting (socks_greeting_reader run.token_digest.isSome).start []

/-- The first byte of a mixed connection says how it is read. -/
def sniffed (data : Bytes) (s : At) : At :=
  if data.head? = some 5 then
    greeting_fed run (socks_greeting_reader run.token_digest.isSome).start [] data
      { s with conn := { s.conn with protocol := .socks5 } }
  else head_fed o run connect_reader.start [] data { s with conn := { s.conn with protocol := .connect } }

def after_send (ok : Bool) : Next → At → At
  | .refuse why, s => reject why false s
  | .chosen rest, s => if ok then chosen_method o run rest s else socks_unread false 0 [] s
  | .passed rest, s =>
    if ok then request_begins run rest (authenticated run (s.conn.seen.password.getD []) s)
    else socks_unread false 0 [] s
  | .close, s => s.wait (.closing 2)
  | .tunnel, s => if ok then begin_tunnel run s else finish s

def read_data (b : Bytes) (s : At) : Option At :=
  let s' := s.sees fun seen => seen.reads b
  match s.conn.phase with
  | .sniffing => some (sniffed o run b s')
  | .heading reader all => some (head_fed o run reader all b s')
  | .greeting reader all => some (greeting_fed run reader all b s')
  | .authenticating reader fed => (run.token_digest).map fun digest => auth_fed o digest reader fed b s'
  | .requesting reader held => some (request_fed run reader held b s')
  | .closing 0 => some (finish s)
  | .closing (n + 1) => some (if n = 0 then finish s' else s'.wait (.closing n))
  | _ => none

def read_nothing (why : Bytes) (s : At) : Option At :=
  match s.conn.phase with
  | .sniffing =>
    some (s.refuses.wait (.closing 2))
  | .heading _ _ => some (head_unread o run why s)
  | .greeting _ _ => some (socks_unread run.token_digest.isSome (first_wait run) why s)
  | .authenticating _ _ => some (socks_unread true (first_wait run) why s)
  | .requesting _ _ => some (socks_unread false (request_wait run) why s)
  | .closing _ => some (finish s)
  | .answering _ =>
    some (not_through (if why = TIMEOUT then lit "the upstream proxy did not answer in time"
      else lit "the upstream proxy closed without answering") s)
  | _ => none

def answer_data (head b : Bytes) (s : At) : At :=
  let s := s.sees fun seen => seen.reads_far b
  match upstream_answer (head ++ b) with
  | none => s.wait (.answering (head ++ b))
  | some (.error bad) => not_through bad s
  | some (.ok rest) => serve rest s

/-- What the answer to a connection's wait makes of it; none where its wait is not answered so. `up` says
which direction of a tunnel is answered. -/
def step (up : Bool) (a : Reply) (s : At) : Option At :=
  match s.conn.phase, a with
  | .ended, _ => none
  | _, .fault => some (finish s)
  | .tunnel t, a => (if up then step_up run a t s else step_down a t s).map settle
  | .answering head, .data b => if s.conn.far_open = false ∨ b = [] then none else some (answer_data head b s)
  | _, .data b => if s.conn.client_open = false ∨ b = [] then none else read_data o run b s
  | _, .nothing why => read_nothing o run why s
  | .sending _ next, .sent _ ok => some (after_send o run ok next s)
  | .asking, .sent _ ok =>
    some (if ok then s.wait (.answering []) else not_through (lit "the upstream proxy closed before it was asked") s)
  | .looking _, .found answers => some (choose run answers s)
  | .looking _, .lost why => some (not_resolved run why s)
  | .connecting _ _ _, .made => some (connected run s)
  | .connecting address left failures, .trouble why late => some (not_connected run address left failures why late s)
  | _, _ => none

end

end Cosmic.RelayServer

/-!
A running relay: its accept loops, its connections and `stop`, in any order.

A loop tests the counts and then waits, so what it takes is counted after the test. What is said of the
states a run reaches is kept by each step: the counts are those of the connections, whatever way a
connection ends.
-/

namespace Cosmic.RelayServer

open Cosmic.Base
open Cosmic.Wire

inductive LoopPhase where
  | accepting
  | delaying
  | ended
deriving DecidableEq

structure Sys where
  counts : Counts
  loops : List (Protocol × LoopPhase)
  conns : List Conn

inductive Event where
  /-- A loop takes a connection. -/
  | accept (j : ℕ)
  | accept_failed (j : ℕ) (cancelled : Bool)
  /-- A loop's delay is over, or was cancelled. -/
  | woken (j : ℕ) (ok : Bool)
  /-- The wait of a connection's task is answered. -/
  | answer (i : ℕ) (up : Bool) (a : Reply)
  | stop

section

variable (o : Outside) (run : Running)

def loop_next (counts : Counts) : LoopPhase :=
  if counts.stopping then .ended
  else if run.limits.connections + REFUSING ≤ counts.open_ ∨
      run.token_digest.isSome ∧ run.limits.pre_auth ≤ counts.pending then .delaying
  else .accepting

def arrived (protocol : Protocol) : Conn :=
  { protocol, phase := first_phase run protocol, slot := ⟨false, false⟩, over_ := none, host := [], kind := .name
    port := 0, leftover := [], first := [], client_open := true, far_open := false, seen := .none }

def take (protocol : Protocol) (counts : Counts) : At :=
  let c := arrived run protocol
  if run.token_digest.isSome then
    ⟨{ counts with pending := counts.pending + 1 }, { c with slot := ⟨true, false⟩ }⟩
  else admit_conn run.limits ⟨counts, c⟩

/-- The connection as `stop` leaves it: closed, and its lookup cancelled. -/
def stopped (c : Conn) : Conn :=
  { c with
    client_open := false
    far_open := false
    phase := match c.phase with
      | .looking _ => .looking true
      | phase => phase }

def Sys.step (s : Sys) : Event → Option Sys
  | .accept j => do
      let (protocol, phase) ← s.loops[j]?
      if phase = .accepting then
        let at_ := take run protocol s.counts
        return ⟨at_.counts, s.loops.set j (protocol, loop_next run at_.counts), s.conns ++ [at_.conn]⟩
      else none
  | .accept_failed j cancelled => do
      let (protocol, phase) ← s.loops[j]?
      if phase = .accepting then
        let next : LoopPhase := if s.counts.stopping ∨ cancelled then .ended else .delaying
        return { s with loops := s.loops.set j (protocol, next) }
      else none
  | .woken j ok => do
      let (protocol, phase) ← s.loops[j]?
      if phase = .delaying then
        let next : LoopPhase := if ok then loop_next run s.counts else .ended
        return { s with loops := s.loops.set j (protocol, next) }
      else none
  | .answer i up a => do
      let c ← s.conns[i]?
      let at_ ← RelayServer.step o run up a ⟨s.counts, c⟩
      return { s with counts := at_.counts, conns := s.conns.set i at_.conn }
  | .stop => some { s with counts := { s.counts with stopping := true }, conns := s.conns.map stopped }

def begin (listeners : List Protocol) : Sys :=
  let counts : Counts := { stopping := false, pending := 0, open_ := 0, accepted := 0, refused := 0 }
  ⟨counts, listeners.map fun protocol => (protocol, loop_next run counts), []⟩

/-- The states that a run reaches each of whose steps meets the condition. -/
inductive Reached (listeners : List Protocol) (meets : Sys → Event → Prop) : Sys → Prop
  | begin : Reached listeners meets (begin run listeners)
  | step {s s' : Sys} {e : Event} (h : Reached listeners meets s) (hmeets : meets s e)
      (hstep : s.step o run e = some s') : Reached listeners meets s'

end

end Cosmic.RelayServer
