/-
The request that the bytes of a client make, whatever pieces they come in.

A reader's answers are its judgement of all it was fed, so the request is a function of the bytes; the
bytes after it are what follows its message. More bytes do not change a request, and follow the rest.
-/
import Cosmic.Relay.HelloRead
import Cosmic.Relay.ServerCounts

set_option autoImplicit false

namespace Cosmic.RelayServer

open Cosmic.Base Option
open Cosmic.Wire

/-- A request of a client: what it asks for, the password it presented, and the bytes after it. -/
structure Asked where
  host : Bytes
  kind : Kind
  port : ℕ
  password : Option Bytes
  rest : Bytes

def Asked.more (q : Asked) (more : Bytes) : Asked := { q with rest := q.rest ++ more }

variable {o : Outside} {tokened : Bool} {b : Bytes}

/-! ## HTTP -/

/-- The request of an HTTP CONNECT head. -/
def http_asked (o : Outside) (bytes : Bytes) : Option Asked :=
  let head := connect_judge bytes
  match head.status, head.host, head.kind, head.port with
  | .done, some host, some kind, some port =>
    some {
      host, kind, port
      password := (basic_password o head.authorization).toOption
      rest := bytes.drop head.consumed }
  | _, _, _, _ => none

theorem http_asked_append {q : Asked} (h : http_asked o b = some q) (more : Bytes) :
    http_asked o (b ++ more) = some (q.more more) := by
  have hdone : (connect_judge b).status = .done := by
    unfold http_asked at h
    dsimp only at h
    split at h
    · assumption
    · cases h
  have hdecided : (connect_judge b).status ≠ .more := by
    rw [hdone]
    decide
  have hdrop := connect_reader_reads.drop_append connect_reader_invariant hdecided more
  have hsame := connect_reader_reads.final b more hdecided
  rw [hsame] at hdrop
  unfold http_asked at h ⊢
  dsimp only at h ⊢
  rw [hsame, hdrop]
  split at h
  · cases h
    rfl
  · cases h

/-! ## SOCKS5 -/

def after_greeting (tokened : Bool) (bytes : Bytes) : Option Bytes :=
  let greeted := read_greeting bytes tokened
  if greeted.status = .done then some (bytes.drop greeted.consumed) else none

/-- The password of a username and password message, and the bytes after it. -/
def after_auth (bytes : Bytes) : Option (Bytes × Bytes) :=
  let given := read_auth bytes
  if given.status = .done then some (given.password.getD [], bytes.drop given.consumed) else none

def socks_asked (password : Option Bytes) (bytes : Bytes) : Option Asked :=
  let asked := read_request bytes
  match asked.status, asked.host, asked.kind, asked.port with
  | .done, some host, some kind, some port =>
    some { host, kind, port, password, rest := bytes.drop asked.consumed }
  | _, _, _, _ => none

/-- The password where one is asked for, and the bytes of the request. -/
def after_socks (tokened : Bool) (bytes : Bytes) : Option (Option Bytes × Bytes) :=
  match after_greeting tokened bytes with
  | none => none
  | some rest =>
    if tokened then (after_auth rest).map fun given => (some given.1, given.2)
    else some (none, rest)

theorem after_greeting_append {rest : Bytes} (h : after_greeting tokened b = some rest) (more : Bytes) :
    after_greeting tokened (b ++ more) = some (rest ++ more) := by
  unfold after_greeting at h ⊢
  dsimp only at h ⊢
  split at h
  · next hdone =>
    have hdecided : (read_greeting b tokened).status ≠ .more := by
      rw [hdone]
      decide
    have hsame := (socks_greeting_reader_reads tokened).final b more hdecided
    have hdrop := (socks_greeting_reader_reads tokened).drop_append (socks_greeting_reader_invariant tokened)
      hdecided more
    rw [hsame] at hdrop
    cases h
    rw [hsame, if_pos hdone, hdrop]
  · cases h

theorem after_auth_append {given : Bytes × Bytes} (h : after_auth b = some given) (more : Bytes) :
    after_auth (b ++ more) = some (given.1, given.2 ++ more) := by
  unfold after_auth at h ⊢
  dsimp only at h ⊢
  split at h
  · next hdone =>
    have hdecided : (read_auth b).status ≠ .more := by
      rw [hdone]
      decide
    have hsame := socks_auth_reader_reads.final b more hdecided
    have hdrop := socks_auth_reader_reads.drop_append socks_auth_reader_invariant hdecided more
    rw [hsame] at hdrop
    cases h
    rw [hsame, if_pos hdone, hdrop]
  · cases h

theorem after_socks_append {given : Option Bytes × Bytes} (h : after_socks tokened b = some given) (more : Bytes) :
    after_socks tokened (b ++ more) = some (given.1, given.2 ++ more) := by
  unfold after_socks at h ⊢
  cases hgreeting : after_greeting tokened b with
  | none =>
    rw [hgreeting] at h
    cases h
  | some rest =>
    rw [hgreeting] at h
    rw [after_greeting_append hgreeting]
    dsimp only at h ⊢
    split at h
    · next htoken =>
      obtain ⟨given', hgiven, rfl⟩ := map_eq_some_iff.mp h
      rw [if_pos htoken, after_auth_append hgiven]
      rfl
    · next htoken =>
      cases h
      rw [if_neg htoken]

theorem socks_asked_append {password : Option Bytes} {q : Asked} (h : socks_asked password b = some q) (more : Bytes) :
    socks_asked password (b ++ more) = some (q.more more) := by
  have hdone : (read_request b).status = .done := by
    unfold socks_asked at h
    dsimp only at h
    split at h
    · assumption
    · cases h
  have hdecided : (read_request b).status ≠ .more := by
    rw [hdone]
    decide
  have hdrop := socks_request_reader_reads.drop_append socks_request_reader_invariant hdecided more
  have hsame := socks_request_reader_reads.final b more hdecided
  rw [hsame] at hdrop
  unfold socks_asked at h ⊢
  dsimp only at h ⊢
  rw [hsame, hdrop]
  split at h
  · cases h
    rfl
  · cases h

/-! ## A client's request -/

/-- The request of a client, read as its connection is. -/
def asked_of (o : Outside) (tokened : Bool) (protocol : Protocol) (bytes : Bytes) : Option Asked :=
  match protocol with
  | .mixed => none
  | .connect => http_asked o bytes
  | .socks5 => (after_socks tokened bytes).bind fun given => socks_asked given.1 given.2

theorem asked_of_append {protocol : Protocol} {q : Asked} (h : asked_of o tokened protocol b = some q) (more : Bytes) :
    asked_of o tokened protocol (b ++ more) = some (q.more more) := by
  cases protocol with
  | mixed => exact absurd h nofun
  | connect => exact http_asked_append h more
  | socks5 =>
    obtain ⟨given, hgiven, hasked⟩ := bind_eq_some_iff.mp h
    show (after_socks tokened (b ++ more)).bind _ = _
    rw [after_socks_append hgiven]
    exact socks_asked_append hasked more

end Cosmic.RelayServer

/-!
What a connection has been read and allowed, at each of its waits.

The reader of a wait holds what was sent so far, so a request that is decided is the one that the bytes
make. What was allowed of it is kept from there on: more bytes of the client do not change its request.
-/

namespace Cosmic.RelayServer

open Cosmic.Base
open Cosmic.Wire
open Cosmic.RelayAddress (Answer)

/-! ## What is allowed of a request -/

section

variable (o : Outside) (run : Running)

def through (host : Bytes) (port : ℕ) : Option Upstream :=
  match run.spec.upstream with
  | none => none
  | some up => if bypasses up.no_proxy host port then none else some up

/-- It presented the token, where there is one. -/
def Asked.Presented (q : Asked) : Prop :=
  ∀ digest, run.token_digest = some digest → ∃ password, q.password = some password ∧ is_token o digest password = true

/-- A grant names its host and port, literally where the host is an address. -/
def Asked.Granted (q : Asked) : Prop :=
  (q.kind = .name → name_granted run.names q.host q.port = true) ∧
    (q.kind ≠ .name → granted q.host q.port run.spec.grants = true)

/-- The connection was within the caps, by the counts as it was admitted. -/
def Capped (admitted : Option (ℤ × ℤ)) : Prop :=
  ∃ open_ accepted, admitted = some (open_, accepted) ∧ open_ ≤ run.limits.connections ∧ accepted ≤ run.limits.total

/-- An address is one that `Address.permitted` allows of the answers. -/
def Permits (answers : List Answer) (port : ℤ) (grants : List Bytes) (address : Bytes) : Prop :=
  ∃ allowed trouble, RelayAddress.permitted answers port grants run.own = .ok (some allowed, trouble) ∧
    address ∈ allowed.map Answer.address

def given_answers (addresses : List Bytes) : List Answer :=
  addresses.map fun a => ⟨a, if 58 ∈ a then lit "ipv6" else lit "ipv4"⟩

/-- The request may be connected to `address` and `port`: to the address it names, to one allowed of its
name's answers, or to the upstream's. -/
def Asked.Allows (q : Asked) (answers : Option (List Answer)) (address : Bytes) (port : ℤ) : Prop :=
  match through run q.host q.port with
  | none =>
    port = q.port ∧ (q.kind ≠ .name ∧ address = q.host ∨
      q.kind = .name ∧ ∃ found, answers = some found ∧ Permits run found port run.spec.grants address)
  | some up =>
    port = up.port ∧ ∃ found, answers = some found ∧
      (∀ addresses, up.addresses = some addresses → found = given_answers addresses) ∧
      Permits run found port (run.spec.grants ++ found.map fun a => target a.address port) address

def Asked.far_port (q : Asked) : ℤ :=
  match through run q.host q.port with
  | none => q.port
  | some up => up.port

/-- The first bytes after the request are no hello, or one that the request's host admits. -/
def Asked.Judged (q : Asked) : Prop :=
  (hello_judge q.rest).status ≠ .more ∧
    judged q.host q.kind (run.tls_ports.contains (q.port : ℤ)) (hello_judge q.rest) (target q.host q.port) = .ok ()

/-- What the far side sent of its own: after an upstream's reply, all that follows its head. -/
def Asked.far_rest (q : Asked) (far : Bytes) : Bytes :=
  match through run q.host q.port with
  | none => far
  | some _ =>
    match index_of (lit "\r\n\r\n") far with
    | none => []
    | some ends => far.drop (ends + 4)

def request_of (protocol : Protocol) (received : Bytes) : Option Asked :=
  asked_of o run.token_digest.isSome protocol received

/-- A request was allowed, all but the address. -/
structure Asked.Cleared (q : Asked) (protocol : Protocol) (received : Bytes) (admitted : Option (ℤ × ℤ)) : Prop where
  request : request_of o run protocol received = some q
  presented : q.Presented o run
  capped : Capped run admitted
  granted : q.Granted run

end

variable {o : Outside} {run : Running}

/-! ## More bytes -/

theorem Asked.Judged.more {q : Asked} (h : q.Judged run) (more : Bytes) : (q.more more).Judged run := by
  unfold Asked.Judged Asked.more
  rwa [hello_judge_append more h.1]

theorem Asked.Cleared.more {q : Asked} {protocol : Protocol} {received : Bytes} {admitted : Option (ℤ × ℤ)}
    (h : q.Cleared o run protocol received admitted) (b : Bytes) :
    (q.more b).Cleared o run protocol (received ++ b) admitted where
  request := asked_of_append h.request b
  presented := h.presented
  capped := h.capped
  granted := h.granted

theorem Asked.far_rest_more {q : Asked} {far : Bytes} (b : Bytes)
    (h : (through run q.host q.port).isSome = true → (index_of (lit "\r\n\r\n") far).isSome = true) :
    q.far_rest run (far ++ b) = q.far_rest run far ++ b := by
  unfold Asked.far_rest
  cases hup : through run q.host q.port with
  | none => rfl
  | some up =>
    obtain ⟨ends, hends⟩ := Option.isSome_iff_exists.mp (h (by rw [hup]; rfl))
    obtain ⟨hmore, hle⟩ := index_of_more hends b
    rw [hends, hmore]
    exact List.drop_append_of_le_length hle

/-! ## What is told -/

def Success (text : Bytes) : Prop := text = connect_ok ∨ text = socks_reply .succeeded

theorem socks_reply_no_success {reply : SocksReply} (h : reply ≠ .succeeded) : ¬Success (socks_reply reply) := by
  rintro (hok | hok)
  · have hfirst : some (5 : UInt8) = some 72 := congrArg List.head? hok
    cases hfirst
  · have hcode := List.head_eq_of_cons_eq (List.tail_eq_of_cons_eq hok)
    cases reply with
    | succeeded => exact h rfl
    | _ => cases hcode

/-- What is shorter than a reply is none. -/
theorem short_no_success {text : Bytes} (h : text.length = 2) : ¬Success text := by
  rintro (rfl | rfl)
  · cases h
  · cases h

theorem status_head {status : ℕ} (hlow : 400 ≤ status) (hhigh : status ≤ 599) :
    (tostring status).head? = some 52 ∨ (tostring status).head? = some 53 := by
  have hhundreds : status / 10 / 10 = 4 ∨ status / 10 / 10 = 5 := by omega
  rw [tostring_of_le (by omega), tostring_of_le (by omega)]
  rcases hhundreds with h | h
  · rw [h]
    exact .inl rfl
  · rw [h]
    exact .inr rfl

theorem connect_refusal_no_success {status : ℕ} {why text : Bytes} (h : connect_refusal status why = .ok text) :
    ¬Success text := by
  unfold connect_refusal at h
  split at h
  · cases h
  next hrange =>
  obtain rfl := Except.ok.inj h
  have hhead := status_head (Nat.le_of_not_lt fun hlow => hrange (.inl hlow))
    (Nat.le_of_not_lt fun hhigh => hrange (.inr hhigh))
  rintro (hok | hok)
  · -- the status is at the ninth byte
    have hninth : some (50 : UInt8) = (tostring status).head? := by
      have htexts := congrArg (fun text => (text.drop 9).head?) hok
      cases hdigits : tostring status with
      | nil =>
        rw [hdigits] at hhead
        exact absurd hhead (by decide)
      | cons b digits =>
        rw [hdigits] at htexts
        exact htexts.symm
    rw [← hninth] at hhead
    exact absurd hhead (by decide)
  · exact absurd (congrArg List.head? hok) nofun

/-! ## What is kept -/

section

variable (o run)

/-- Whatever was asked for was allowed, and whatever was carried is what the sender sent, once it was judged. -/
structure Keeps (protocol : Protocol) (over_ : Option Bytes) (seen : Seen) : Prop where
  asked : ∀ address port, (address, port) ∈ seen.asked →
    ∃ q : Asked, q.Cleared o run protocol seen.received seen.admitted ∧ q.Allows run seen.answers address port
  capped : over_ = some [] → Capped run seen.admitted
  told : seen.told = true → seen.made = true
  passed : seen.passed = [] ∨
    ∃ q, request_of o run protocol seen.received = some q ∧ q.Judged run ∧ seen.passed <+: q.rest
  returned : seen.returned = [] ∨
    ∃ q, request_of o run protocol seen.received = some q ∧ seen.returned <+: q.far_rest run seen.far_received

/-- Nothing was asked for, and nothing carried. -/
structure Seen.Idle (seen : Seen) : Prop where
  asked : seen.asked = []
  passed : seen.passed = []
  returned : seen.returned = []
  far : seen.far_received = []

/-- The request of a connection was decided, and nothing is carried yet. -/
def Conn.Decided (q : Asked) (c : Conn) : Prop :=
  q.Cleared o run c.protocol c.seen.received c.seen.admitted ∧ (q.host = c.host ∧ q.kind = c.kind ∧ q.port = c.port) ∧
    q.rest = c.leftover ∧ c.seen.passed = [] ∧ c.seen.returned = []

/-- Where the program's direction of a tunnel is in the bytes after the request. -/
def Tunnel.Up (t : Tunnel) (q : Asked) (passed : Bytes) : Prop :=
  match t.sniff with
  | some sniff =>
    passed = [] ∧ hello_reader.Fed sniff.reader sniff.held ∧
      match t.up with
      | .reading => sniff.held = q.rest
      | .sending _ => False
      | _ => True
  | none =>
    q.Judged run ∧
      match t.up with
      | .reading => passed = q.rest
      | .sending data => passed ++ data = q.rest
      | _ => passed <+: q.rest

/-- Where the other is in what the far side sent. -/
def Tunnel.Down (t : Tunnel) (far returned : Bytes) : Prop :=
  match t.down with
  | .reading => returned = far
  | .sending data => returned ++ data = far
  | _ => returned <+: far

/-- What a wait holds of what was read. -/
def Conn.Stands (c : Conn) : Prop :=
  let token := run.token_digest.isSome
  match c.phase with
  | .sniffing => c.seen.Idle ∧ c.seen.received = []
  | .heading reader all =>
    c.seen.Idle ∧ c.protocol = .connect ∧ c.seen.received = all ∧ connect_reader.Fed reader all
  | .greeting reader all =>
    c.seen.Idle ∧ c.protocol = .socks5 ∧ c.seen.received = all ∧ (socks_greeting_reader token).Fed reader all
  | .authenticating reader fed =>
    c.seen.Idle ∧ c.protocol = .socks5 ∧ token = true ∧ after_greeting token c.seen.received = some fed ∧
      socks_auth_reader.Fed reader fed
  | .requesting reader held =>
    c.seen.Idle ∧ c.protocol = .socks5 ∧ socks_request_reader.Fed reader held ∧
      ∃ password, after_socks token c.seen.received = some (password, held) ∧
        ∀ digest, run.token_digest = some digest → ∃ given, password = some given ∧ is_token o digest given = true
  | .sending text (.chosen rest) =>
    ¬Success text ∧ c.seen.Idle ∧ c.protocol = .socks5 ∧ after_greeting token c.seen.received = some rest
  | .sending text (.passed rest) =>
    ¬Success text ∧ c.seen.Idle ∧ c.protocol = .socks5 ∧
      after_socks token c.seen.received = some (some (c.seen.password.getD []), rest) ∧
        ∀ digest, run.token_digest = some digest → is_token o digest (c.seen.password.getD []) = true
  | .sending _ .tunnel =>
    c.seen.made = true ∧ ∃ q, c.Decided o run q ∧ c.first = q.far_rest run c.seen.far_received ∧
      ((through run q.host q.port).isSome = true → (index_of (lit "\r\n\r\n") c.seen.far_received).isSome = true)
  | .sending text _ => ¬Success text
  | .closing _ => True
  | .ended => True
  | .looking _ =>
    c.seen.Idle ∧ ∃ q, c.Decided o run q ∧ (through run q.host q.port = none → q.kind = .name) ∧
      ∀ up, through run q.host q.port = some up → up.addresses = none
  | .connecting address left _ =>
    c.seen.far_received = [] ∧ ∃ q, c.Decided o run q ∧
      ∀ a ∈ address :: left, q.Allows run c.seen.answers a (q.far_port run)
  | .asking =>
    c.seen.far_received = [] ∧ c.seen.made = true ∧ ∃ q, c.Decided o run q ∧ (through run q.host q.port).isSome = true
  | .answering head =>
    c.seen.far_received = head ∧ c.seen.made = true ∧
      ∃ q, c.Decided o run q ∧ (through run q.host q.port).isSome = true
  | .tunnel t =>
    c.seen.made = true ∧ ∃ q, request_of o run c.protocol c.seen.received = some q ∧
      (q.host = c.host ∧ q.kind = c.kind ∧ q.port = c.port) ∧ t.Up run q c.seen.passed ∧
        t.Down (q.far_rest run c.seen.far_received) c.seen.returned ∧ ((through run q.host q.port).isSome = true →
            (index_of (lit "\r\n\r\n") c.seen.far_received).isSome = true)

structure Conn.Sound (c : Conn) : Prop where
  keeps : Keeps o run c.protocol c.over_ c.seen
  stands : c.Stands o run

end

end Cosmic.RelayServer
