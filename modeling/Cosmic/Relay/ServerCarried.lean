/-
A relay carries nothing it has not allowed, in every state that any run reaches.
-/
import Cosmic.Relay.HelloClosed
import Cosmic.Relay.ServerFlows

set_option autoImplicit false

namespace Cosmic.RelayServer

open Cosmic.Base List Bool
open Cosmic.Wire

variable {o : Outside} {run : Running} {listeners : List Protocol} {meets : Sys → Event → Prop} {s : Sys}

/-! ## A run -/

theorem sound_arrived (protocol : Protocol) : (arrived run protocol).Sound o run := by
  have hidle : Seen.none.Idle := ⟨rfl, rfl, rfl, rfl⟩
  have hkeeps : Keeps o run protocol none Seen.none := keeps_idle hidle nofun nofun
  cases protocol with
  | mixed => exact ⟨hkeeps, hidle, rfl⟩
  | connect => exact ⟨hkeeps, hidle, rfl, rfl, Feeder.fed_start _⟩
  | socks5 => exact ⟨hkeeps, hidle, rfl, rfl, Feeder.fed_start _⟩

theorem sound_take (protocol : Protocol) (counts : Counts) : (take run protocol counts).conn.Sound o run := by
  have harrived : (arrived run protocol).Sound o run := sound_arrived protocol
  unfold take
  split
  · exact ⟨harrived.keeps, harrived.stands⟩
  have hidle : (arrived run protocol).seen.Idle := ⟨rfl, rfl, rfl, rfl⟩
  have hkeeps := keeps_admitted (o := o) (s := ⟨counts, arrived run protocol⟩) harrived.keeps hidle
  refine ⟨hkeeps, ?_⟩
  cases protocol with
  | mixed => exact ⟨⟨rfl, rfl, rfl, rfl⟩, rfl⟩
  | connect => exact ⟨⟨rfl, rfl, rfl, rfl⟩, rfl, rfl, Feeder.fed_start _⟩
  | socks5 => exact ⟨⟨rfl, rfl, rfl, rfl⟩, rfl, rfl, Feeder.fed_start _⟩

theorem sound_stopped {c : Conn} (h : c.Sound o run) : (stopped c).Sound o run := by
  refine ⟨h.keeps, ?_⟩
  unfold stopped
  cases hphase : c.phase with
  | sending text next =>
    have hstands := stands_of h.stands hphase
    cases next with
    | _ => exact hstands
  | _ => exact stands_of h.stands hphase

theorem sound_reached (h : Reached o run listeners meets s) : ∀ c ∈ s.conns, c.Sound o run := by
  induction h with
  | begin => exact fun c hc => absurd hc not_mem_nil
  | @step s _ _ _ _ hstep ih =>
    rcases step_cases hstep with ⟨j, protocol, loops, -, rfl⟩ | ⟨loops, -, rfl⟩ | ⟨i, up, a, c, s₁, -, hc, hs₁, rfl⟩ |
      ⟨-, rfl⟩
    · exact forall_append ih (sound_take protocol _)
    · exact ih
    · have hsound : At.Sound o run ⟨s.counts, c⟩ := ih c (mem_of_getElem? hc)
      exact forall_set ih (sound_step hsound hs₁)
    · intro c hc
      obtain ⟨c', hc', rfl⟩ := mem_map.mp hc
      exact sound_stopped (ih c' hc')

/-! ## What is carried -/

/-- A grant names the host and the port of a request; that of an address names it literally. -/
def Asked.Named (spec : Spec) (q : Asked) : Prop :=
  (q.kind = .name → ∃ grant ∈ spec.grants, ∃ parsed, Grant.parse grant = .ok parsed ∧
    (parsed.kind = .any ∨ parsed.kind = .name) ∧ (parsed.host = lit "*" ∨ parsed.host = q.host) ∧
      (parsed.port = 0 ∨ parsed.port = q.port)) ∧
  (q.kind ≠ .name → ∃ bytes, RelayAddress.parse q.host = some bytes ∧
    ∃ grant ∈ spec.grants, RelayAddress.grants_address bytes q.port grant = true)

/-- The first bytes after a request are no hello, or one that names the requested host, or no server where
that is admitted. -/
def Asked.Admits (run : Running) (q : Asked) : Prop :=
  let hello := hello_judge q.rest
  hello.status = .not_tls ∨ hello.status = .name ∧ q.kind = .name ∧ hello.name = some q.host ∨
    hello.status = .no_sni ∧ ¬((q.port : ℤ) ∈ run.tls_ports ∧ q.kind = .name)

/-- What a connection was allowed, of the request that its bytes make. -/
structure Carries (o : Outside) (spec : Spec) (run : Running) (c : Conn) : Prop where
  /-- What the connector was asked for. -/
  asked : ∀ address port, (address, port) ∈ c.seen.asked → ∃ q, request_of o run c.protocol c.seen.received = some q ∧
      (∀ token, spec.token = some token →
        ∃ password, q.password = some password ∧ o.sha256 password = o.sha256 token) ∧
      Capped run c.seen.admitted ∧ q.Named spec ∧ q.Allows run c.seen.answers address port
  /-- What tells of success is sent once the connection is made. -/
  told : c.seen.told = true → c.seen.made = true
  success : ∀ text next, c.phase = .sending text next → Success text → c.seen.made = true
  /-- What reached the far side. -/
  passed : c.seen.passed ≠ [] →
    ∃ q, request_of o run c.protocol c.seen.received = some q ∧ q.Admits run ∧ c.seen.passed <+: q.rest
  /-- What reached the client of the far side's. -/
  returned : c.seen.returned ≠ [] → ∃ q, request_of o run c.protocol c.seen.received = some q ∧
      c.seen.returned <+: q.far_rest run c.seen.far_received

theorem name_granted_named {grants : List Bytes} {host : Bytes} {port : ℕ}
    (h : name_granted (name_grants grants) host port = true) : ∃ grant ∈ grants, ∃ parsed,
      Grant.parse grant = .ok parsed ∧ (parsed.kind = .any ∨ parsed.kind = .name) ∧
        (parsed.host = lit "*" ∨ parsed.host = host) ∧ (parsed.port = 0 ∨ parsed.port = port) := by
  obtain ⟨named, hmem, hmatch⟩ := any_eq_true.mp h
  obtain ⟨grant, hgrant, hnamed⟩ := mem_filterMap.mp hmem
  split at hnamed
  · cases hnamed
  next parsed hparsed =>
  split at hnamed
  · next hkind =>
    cases hnamed
    obtain ⟨hhost, hport⟩ := and_eq_true_iff.mp hmatch
    refine ⟨grant, hgrant, parsed, hparsed, hkind, ?_, ?_⟩
    · exact (or_eq_true_iff.mp hhost).imp of_decide_eq_true of_decide_eq_true
    · exact (or_eq_true_iff.mp hport).imp of_decide_eq_true of_decide_eq_true
  · cases hnamed

theorem Asked.Granted.named {spec : Spec} {q : Asked} (hstart : Started o spec run) (h : q.Granted run) :
    q.Named spec := by
  refine ⟨fun hkind => ?_, fun hkind => ?_⟩
  · have hname := h.1 hkind
    rw [hstart.names] at hname
    exact name_granted_named hname
  · have haddress := h.2 hkind
    rw [hstart.same] at haddress
    unfold granted at haddress
    split at haddress
    · cases haddress
    · next bytes hbytes =>
      obtain ⟨grant, hgrant, hgrants⟩ := any_eq_true.mp haddress
      exact ⟨bytes, hbytes, grant, hgrant, hgrants⟩

theorem Asked.Judged.admits {q : Asked} (h : q.Judged run) : q.Admits run := by
  obtain ⟨hdecided, hjudged⟩ := h
  unfold judged at hjudged
  split at hjudged
  · next hstatus => exact .inl hstatus
  · cases hjudged
  · cases hjudged
  · next hstatus =>
    split at hjudged
    · cases hjudged
    · next hnot =>
      refine .inr (.inr ⟨hstatus, fun hboth => hnot ⟨?_, hboth.2⟩⟩)
      exact contains_iff_mem.mpr hboth.1
  · split at hjudged
    · cases hjudged
    next hkind =>
    split at hjudged
    · cases hjudged
    · next hname =>
      have hname := not_not.mp hname
      exact .inr (.inl ⟨(hello_judge_named hname).1, not_not.mp hkind, hname⟩)

theorem Conn.Sound.success {c : Conn} (h : c.Sound o run) {text : Bytes} {next : Next}
    (hphase : c.phase = .sending text next) (hsuccess : Success text) : c.seen.made = true := by
  have hstands := stands_of h.stands hphase
  cases next with
  | refuse why => exact absurd hsuccess hstands
  | chosen rest => exact absurd hsuccess hstands.1
  | passed rest => exact absurd hsuccess hstands.1
  | close => exact absurd hsuccess hstands
  | tunnel => exact hstands.1

/-! ## One run -/

/-- The state after `events`, one after the other. -/
def Sys.after (o : Outside) (run : Running) : Sys → List Event → Option Sys
  | s, [] => some s
  | s, e :: events => (s.step o run e).bind fun s' => s'.after o run events

theorem reached_after {s' : Sys} {events : List Event} (hs : Reached o run listeners (fun _ _ => True) s)
    (h : s.after o run events = some s') : Reached o run listeners (fun _ _ => True) s' := by
  induction events generalizing s with
  | nil =>
    cases h
    exact hs
  | cons e events ih =>
    obtain ⟨s₁, hstep, h⟩ := Option.bind_eq_some_iff.mp h
    exact ih (hs.step trivial hstep) h

/-- A relay that grants one address, and one client of it. -/
def one_address : Spec :=
  { grants := [lit "10.0.0.1:80"], unresolved := none, own_addresses := [], upstream := none, tls_ports := none
    timeouts := ⟨none, none, none, none, none⟩, limits := ⟨none, none, none, none⟩, token := none }

def its_relay_open : Running :=
  { spec := one_address, names := [], own := [], timeouts := DEFAULT_TIMEOUTS, limits := DEFAULT_LIMITS
    tls_ports := DEFAULT_TLS_PORTS, token_digest := none }

/-- No token is hashed and no password decoded where none is asked for. -/
def nothing_outside : Outside := { sha256 := fun _ => [], unbase64 := fun _ => none }

/-- It asks for the address over SOCKS5, and sends the start of a request of its own at once. -/
def one_client : List Event :=
  [.accept 0, .answer 0 true (.data [5, 1, 0]), .answer 0 true (.sent 2 true),
    .answer 0 true (.data ([5, 1, 0, 1, 10, 0, 0, 1, 0, 80] ++ lit "GET /")), .answer 0 true .made,
    .answer 0 true (.sent 10 true), .answer 0 true (.sent 5 true)]

/-- The relay carries nothing it has not allowed. -/
theorem nothing_else_carried {spec : Spec} (hstart : start o spec = .ok run)
    (h : Reached o run listeners (fun _ _ => True) s) : ∀ c ∈ s.conns, Carries o spec run c := by
  intro c hc
  have hstarted := start_ok hstart
  have hsound := sound_reached h c hc
  obtain ⟨hasked, -, htold, hpassed, hreturned⟩ := hsound.keeps
  constructor
  · intro address port hmem
    obtain ⟨q, hcleared, hallows⟩ := hasked address port hmem
    refine ⟨q, hcleared.request, ?_, hcleared.capped, hcleared.granted.named hstarted, hallows⟩
    intro token htoken
    have hdigest : run.token_digest = some (o.sha256 token) := by
      rw [hstarted.token, htoken]
      rfl
    obtain ⟨password, hpassword, his⟩ := hcleared.presented _ hdigest
    exact ⟨password, hpassword, of_decide_eq_true his⟩
  · exact htold
  · exact fun _ _ hphase hsuccess => hsound.success hphase hsuccess
  · intro hsome
    obtain ⟨q, hrequest, hjudged, hprefix⟩ := hpassed.resolve_left hsome
    exact ⟨q, hrequest, hjudged.admits, hprefix⟩
  · exact fun hsome => hreturned.resolve_left hsome

/-- Its bytes are passed once they are judged no hello. -/
theorem nothing_else_carried_one :
    ∃ s c, (begin its_relay_open [.socks5]).after nothing_outside its_relay_open one_client = some s ∧ s.conns = [c] ∧
      c.seen.asked = [(lit "10.0.0.1", 80)] ∧ c.seen.passed = lit "GET /" ∧
        Carries nothing_outside one_address its_relay_open c := by
  have hreached : ∀ s, (begin its_relay_open [.socks5]).after nothing_outside its_relay_open one_client = some s →
      Reached nothing_outside its_relay_open [.socks5] (fun _ _ => True) s :=
    fun _ hafter => reached_after .begin hafter
  exact ⟨_, _, rfl, rfl, rfl, rfl, nothing_else_carried rfl (hreached _ rfl) _ (mem_singleton_self _)⟩

end Cosmic.RelayServer
