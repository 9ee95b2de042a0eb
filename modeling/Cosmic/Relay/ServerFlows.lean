/-
What a tunnel carries, and what every step of a connection keeps.

The program's bytes are held until their hello is judged, and are then the bytes after its request, one
piece after the other; a piece that is not sent whole is the last. The far side's are all it sent, after the
head of an upstream's reply.
-/
import Cosmic.Relay.ServerSounds

set_option autoImplicit false

namespace Cosmic.RelayServer

open Cosmic.Base List Option
open Cosmic.Wire
open Cosmic.RelayAddress (Answer)

variable {o : Outside} {run : Running} {s : At} {q : Asked}

/-! ## The far side -/

/-- The head of an upstream's reply was read whole. -/
def Asked.Headed (run : Running) (q : Asked) (far : Bytes) : Prop :=
  (through run q.host q.port).isSome = true → (index_of (lit "\r\n\r\n") far).isSome = true

theorem sound_serve (h : s.Keeps o run) (hdecided : s.conn.Decided o run q) (hmade : s.conn.seen.made = true)
    {first : Bytes} (hfirst : first = q.far_rest run s.conn.seen.far_received)
    (hheaded : q.Headed run s.conn.seen.far_received) : (serve first s).Sound o run := by
  unfold serve
  split
  · exact sound_finish h
  · exact ⟨⟨h.asked, h.capped, fun _ => hmade, h.passed, h.returned⟩, hmade, q, hdecided, hfirst, hheaded⟩

theorem sound_connected (h : s.Keeps o run) (hdecided : s.conn.Decided o run q)
    (hfar : s.conn.seen.far_received = []) : (connected run s).Sound o run := by
  have hthrough : upstream_of run s = through run q.host q.port := by
    rw [hdecided.2.1.1, hdecided.2.1.2.2]
    rfl
  let s' : At := { s with conn := { s.conn with seen := { s.conn.seen with made := true }, far_open := true } }
  have h' : s'.Keeps o run := ⟨h.asked, h.capped, fun _ => rfl, h.passed, h.returned⟩
  unfold connected
  dsimp only
  split
  next hnone =>
    have hup : through run q.host q.port = none := hthrough.symm.trans hnone
    refine sound_serve h' hdecided rfl ?_ (fun hsome => ?_)
    · unfold Asked.far_rest
      rw [hup, hfar]
    · rw [hup] at hsome
      cases hsome
  next up hsome =>
    have hup : through run q.host q.port = some up := hthrough.symm.trans hsome
    exact ⟨h', hfar, rfl, q, hdecided, by rw [hup]; rfl⟩

theorem sound_not_through (h : s.Keeps o run) (why : Bytes) : (not_through why s).Sound o run := by
  exact sound_refused (s := { s with conn := { s.conn with far_open := false } }) h (by decide) true

theorem upstream_answer_ok {head rest : Bytes} (h : upstream_answer head = some (.ok rest)) :
    ∃ ends, index_of (lit "\r\n\r\n") head = some ends ∧ rest = head.drop (ends + 4) := by
  unfold upstream_answer at h
  split at h
  · next ends hends =>
    split at h
    · cases h
    · split at h
      · exact ⟨ends, hends, (Except.ok.inj (some.inj h)).symm⟩
      · cases h
  · split at h
    · cases h
    · cases h

theorem sound_answer_data (h : s.Keeps o run) (hdecided : s.conn.Decided o run q) (hmade : s.conn.seen.made = true)
    {head : Bytes} (hfar : s.conn.seen.far_received = head) (hup : (through run q.host q.port).isSome = true)
    (b : Bytes) : (answer_data head b s).Sound o run := by
  have h' : (s.sees fun seen => seen.reads_far b).Keeps o run :=
    ⟨h.asked, h.capped, h.told, h.passed, .inl hdecided.2.2.2.2⟩
  have hfar' : s.conn.seen.far_received ++ b = head ++ b := by rw [hfar]
  unfold answer_data
  split
  · exact ⟨h', hfar', hmade, q, hdecided, hup⟩
  · exact sound_not_through h' _
  next rest hrest =>
  obtain ⟨ends, hends, hdrop⟩ := upstream_answer_ok hrest
  have hheaded : index_of (lit "\r\n\r\n") (s.conn.seen.far_received ++ b) = some ends := by rw [hfar', hends]
  refine sound_serve h' hdecided hmade ?_ fun _ => ?_
  · show rest = q.far_rest run (s.conn.seen.far_received ++ b)
    obtain ⟨up, hup⟩ := isSome_iff_exists.mp hup
    unfold Asked.far_rest
    rw [hup]
    rw [hheaded, hfar', hdrop]
  · show (index_of (lit "\r\n\r\n") (s.conn.seen.far_received ++ b)).isSome = true
    rw [hheaded]
    rfl

/-! ## The directions of a tunnel -/

/-- A connection whose request is `q`, in the tunnel `t`. -/
structure At.Flows (o : Outside) (run : Running) (q : Asked) (t : Tunnel) (s : At) : Prop where
  asked : ∀ address port, (address, port) ∈ s.conn.seen.asked →
    ∃ q : Asked, q.Cleared o run s.conn.protocol s.conn.seen.received s.conn.seen.admitted ∧
      q.Allows run s.conn.seen.answers address port
  capped : s.conn.over_ = some [] → Capped run s.conn.seen.admitted
  made : s.conn.seen.made = true
  request : request_of o run s.conn.protocol s.conn.seen.received = some q
  same : q.host = s.conn.host ∧ q.kind = s.conn.kind ∧ q.port = s.conn.port
  up : t.Up run q s.conn.seen.passed
  down : t.Down (q.far_rest run s.conn.seen.far_received) s.conn.seen.returned
  headed : q.Headed run s.conn.seen.far_received

variable {t : Tunnel}

theorem Tunnel.Up.passed {passed : Bytes} (h : t.Up run q passed) :
    passed = [] ∨ q.Judged run ∧ passed <+: q.rest := by
  unfold Tunnel.Up at h
  split at h
  · exact .inl h.1
  · obtain ⟨hjudged, hup⟩ := h
    split at hup
    · exact .inr ⟨hjudged, hup ▸ prefix_rfl⟩
    · exact .inr ⟨hjudged, ⟨_, hup⟩⟩
    · exact .inr ⟨hjudged, hup⟩

theorem Tunnel.Down.returned {far returned : Bytes} (h : t.Down far returned) : returned <+: far := by
  unfold Tunnel.Down at h
  split at h
  · exact h ▸ prefix_rfl
  · exact ⟨_, h⟩
  · exact h

theorem At.Flows.keeps (h : s.Flows o run q t) : s.Keeps o run where
  asked := h.asked
  capped := h.capped
  told := fun _ => h.made
  passed := by
    rcases h.up.passed with hnone | ⟨hjudged, hpassed⟩
    · exact .inl hnone
    · exact .inr ⟨q, h.request, hjudged, hpassed⟩
  returned := .inr ⟨q, h.request, h.down.returned⟩

variable {p : Tunnel × At}

theorem sound_settle (h : p.2.Flows o run q p.1) : (settle p).Sound o run := by
  unfold settle
  split
  · exact sound_finish h.keeps
  · exact ⟨h.keeps, h.made, q, h.request, h.same, h.up, h.down, h.headed⟩

/-- What the program's direction may do with the bytes `data` that were read last. -/
def Tunnel.Takes (run : Running) (t : Tunnel) (q : Asked) (data passed : Bytes) : Prop :=
  match t.sniff with
  | some sniff => passed = [] ∧ hello_reader.Fed sniff.reader sniff.held ∧ sniff.held ++ data = q.rest
  | none => q.Judged run ∧ passed ++ data = q.rest

theorem take_up_flows {data : Bytes} (htakes : t.Takes run q data s.conn.seen.passed)
    (hsame : q.host = s.conn.host ∧ q.kind = s.conn.kind ∧ q.port = s.conn.port) :
    (take_up run data t s).1.Up run q s.conn.seen.passed ∧ (take_up run data t s).1.down = t.down ∧
      (take_up run data t s).2.conn = s.conn := by
  unfold Tunnel.Takes at htakes
  unfold take_up
  cases hsniff : t.sniff with
  | none =>
    rw [hsniff] at htakes
    refine ⟨?_, rfl, rfl⟩
    exact htakes
  | some sniff =>
    rw [hsniff] at htakes
    obtain ⟨hpassed, hfed, hheld⟩ := htakes
    obtain ⟨hanswer, hfed'⟩ := hello_reader_reads.feed_fed hfed data
    rw [hheld] at hanswer hfed'
    dsimp only
    rw [hheld]
    split
    · exact ⟨⟨hpassed, hfed', rfl⟩, rfl, rfl⟩
    next hdecided =>
    rw [hanswer] at hdecided
    split
    · exact ⟨⟨hpassed, hfed', trivial⟩, rfl, rfl⟩
    next hjudged =>
    refine ⟨⟨⟨hdecided, ?_⟩, ?_⟩, rfl, rfl⟩
    · rwa [hsame.1, hsame.2.1, hsame.2.2, ← hanswer]
    · show s.conn.seen.passed ++ q.rest = q.rest
      rw [hpassed, nil_append]

theorem sound_begin_tunnel (h : s.Keeps o run) (hmade : s.conn.seen.made = true) (hdecided : s.conn.Decided o run q)
    (hfirst : s.conn.first = q.far_rest run s.conn.seen.far_received)
    (hheaded : q.Headed run s.conn.seen.far_received) : (begin_tunnel run s).Sound o run := by
  obtain ⟨hcleared, hsame, hrest, hpassed, hreturned⟩ := hdecided
  let t : Tunnel :=
    { up := .reading, down := if s.conn.first = [] then .reading else .sending s.conn.first
      sniff := some ⟨hello_reader.start, [], false⟩, flow_ended := false }
  have hdown : ∀ t' : Tunnel, t'.down = t.down →
      t'.Down (q.far_rest run s.conn.seen.far_received) s.conn.seen.returned := by
    intro t' hdown
    unfold Tunnel.Down
    rw [hdown, hreturned, ← hfirst]
    dsimp only [t]
    by_cases hempty : s.conn.first = []
    · rw [if_pos hempty]
      exact hempty.symm
    · rw [if_neg hempty]
      exact nil_append _
  have hflows : ∀ t' : Tunnel, t'.Up run q s.conn.seen.passed → t'.down = t.down → s.Flows o run q t' :=
    fun t' hup hkept =>
      ⟨h.asked, h.capped, hmade, hcleared.request, hsame, hup, hdown t' hkept, hheaded⟩
  unfold begin_tunnel
  dsimp only
  split
  · next hleft =>
    refine sound_settle (hflows t ?_ rfl)
    exact ⟨hpassed, hello_reader.fed_start, hleft.symm.trans hrest.symm⟩
  have htakes : t.Takes run q s.conn.leftover s.conn.seen.passed := ⟨hpassed, hello_reader.fed_start, hrest.symm⟩
  obtain ⟨hup, hkept, hconn⟩ := take_up_flows htakes hsame
  have hflows := hflows _ hup hkept
  refine sound_settle (q := q) ?_
  constructor
  all_goals rw [hconn]
  · exact hflows.asked
  · exact hflows.capped
  · exact hflows.made
  · exact hflows.request
  · exact hflows.same
  · exact hflows.up
  · exact hflows.down
  · exact hflows.headed

variable {t' : Tunnel}

theorem Tunnel.Up.ended {passed : Bytes} (h : t.Up run q passed) (hsniff : t'.sniff = t.sniff)
    (hup : t'.up = .done ∨ t'.up = .alerting) : t'.Up run q passed := by
  have hpassed := h.passed
  unfold Tunnel.Up at h ⊢
  rw [hsniff]
  split
  · next sniff hsome =>
    rw [hsome] at h
    refine ⟨h.1, h.2.1, ?_⟩
    rcases hup with hup | hup
    · rw [hup]
      trivial
    · rw [hup]
      trivial
  · next hnone =>
    rw [hnone] at h
    have hprefix : passed <+: q.rest := by
      rcases hpassed with hpassed | ⟨-, hpassed⟩
      · rw [hpassed]
        exact nil_prefix
      · exact hpassed
    refine ⟨h.1, ?_⟩
    rcases hup with hup | hup
    · rwa [hup]
    · rwa [hup]

theorem Tunnel.Down.ended {far returned : Bytes} (h : t.Down far returned) (hdown : t'.down = .done) :
    t'.Down far returned := by
  have hprefix := h.returned
  unfold Tunnel.Down
  rwa [hdown]

theorem Tunnel.Up.takes {passed : Bytes} (h : t.Up run q passed) (hup : t.up = .reading) (b : Bytes) :
    t.Takes run (q.more b) b passed := by
  unfold Tunnel.Up at h
  unfold Tunnel.Takes
  rw [hup] at h
  split
  · next sniff hsniff =>
    rw [hsniff] at h
    exact ⟨h.1, h.2.1, congrArg (· ++ b) h.2.2⟩
  · next hnone =>
    rw [hnone] at h
    exact ⟨h.1.more b, congrArg (· ++ b) h.2⟩

theorem Tunnel.Up.sends {data passed : Bytes} (h : t.Up run q passed) (hup : t.up = .sending data) :
    t.sniff = none ∧ q.Judged run ∧ passed ++ data = q.rest := by
  unfold Tunnel.Up at h
  rw [hup] at h
  split at h
  · exact absurd h.2.2 id
  · next hnone => exact ⟨hnone, h⟩

theorem At.Flows.reads (h : s.Flows o run q t) (b : Bytes) (hdown : t'.down = t.down)
    (hup : t'.Up run (q.more b) s.conn.seen.passed) :
    (s.sees fun seen => seen.reads b).Flows o run (q.more b) t' where
  asked := by
    intro address port hmem
    obtain ⟨q', hcleared, hallows⟩ := h.asked address port hmem
    exact ⟨q'.more b, hcleared.more b, hallows⟩
  capped := h.capped
  made := h.made
  request := asked_of_append h.request b
  same := h.same
  up := hup
  down := by
    have hbefore := h.down
    unfold Tunnel.Down at hbefore ⊢
    rwa [hdown]
  headed := h.headed

variable {s' : At}

theorem At.Flows.turned (h : s.Flows o run q t) (hseen : s'.conn.seen = s.conn.seen)
    (hconn : s'.conn.protocol = s.conn.protocol ∧ s'.conn.over_ = s.conn.over_ ∧ s'.conn.host = s.conn.host ∧ s'.conn.kind = s.conn.kind ∧ s'.conn.port = s.conn.port)
    (hup : t'.Up run q s.conn.seen.passed)
    (hdown : t'.Down (q.far_rest run s.conn.seen.far_received) s.conn.seen.returned) : s'.Flows o run q t' := by
  obtain ⟨hprotocol, hover, hhost, hkind, hport⟩ := hconn
  constructor
  · rw [hseen, hprotocol]
    exact h.asked
  · rw [hseen, hover]
    exact h.capped
  · rw [hseen]
    exact h.made
  · rw [hseen, hprotocol]
    exact h.request
  · rw [hhost, hkind, hport]
    exact h.same
  · rwa [hseen]
  · rwa [hseen]
  · rw [hseen]
    exact h.headed

variable {a : Reply}

theorem step_up_flows (h : s.Flows o run q t) (hstep : step_up run a t s = some p) :
    ∃ q', p.2.Flows o run q' p.1 := by
  have hkept : ∀ {t' : Tunnel}, t'.down = t.down →
      t'.Down (q.far_rest run s.conn.seen.far_received) s.conn.seen.returned := by
    intro t' hdown
    have hbefore := h.down
    unfold Tunnel.Down at hbefore ⊢
    rwa [hdown]
  -- the direction ends, and with it the tunnel or not
  have hends : ∀ {t' : Tunnel} {s' : At}, t'.sniff = t.sniff → t'.down = t.down →
      t'.up = .done ∨ t'.up = .alerting → s'.conn.seen = s.conn.seen →
      s'.conn.protocol = s.conn.protocol ∧ s'.conn.over_ = s.conn.over_ ∧ s'.conn.host = s.conn.host ∧
        s'.conn.kind = s.conn.kind ∧ s'.conn.port = s.conn.port → s'.Flows o run q t' :=
    fun hsniff hdown hup hseen hconn => h.turned hseen hconn (h.up.ended hsniff hup) (hkept hdown)
  have hsame : s.conn.protocol = s.conn.protocol ∧ s.conn.over_ = s.conn.over_ ∧ s.conn.host = s.conn.host ∧
      s.conn.kind = s.conn.kind ∧ s.conn.port = s.conn.port := ⟨rfl, rfl, rfl, rfl, rfl⟩
  unfold step_up at hstep
  split at hstep
  · next b hup =>
    split at hstep
    · cases hstep
    have htakes := h.up.takes hup b
    split at hstep
    · obtain rfl := some.inj hstep
      refine ⟨q.more b, h.reads b rfl ?_⟩
      unfold Tunnel.Takes at htakes
      unfold Tunnel.Up
      split
      · next sniff hsniff =>
        rw [hsniff] at htakes
        exact ⟨htakes.1, htakes.2.1, trivial⟩
      · next hnone =>
        rw [hnone] at htakes
        exact ⟨htakes.1, ⟨b, htakes.2⟩⟩
    · obtain rfl := some.inj hstep
      obtain ⟨htaken, hdown, hconn⟩ := take_up_flows (s := s.sees fun seen => seen.reads b) htakes h.same
      have hflows := h.reads b hdown htaken
      refine ⟨q.more b, hflows.turned ?_ ?_ hflows.up hflows.down⟩
      · rw [hconn]
      · rw [hconn]
        exact ⟨rfl, rfl, rfl, rfl, rfl⟩
  · split at hstep
    · obtain rfl := some.inj hstep
      exact ⟨q, hends rfl rfl (.inl rfl) rfl hsame⟩
    · split at hstep
      · obtain rfl := some.inj hstep
        exact ⟨q, h⟩
      · obtain rfl := some.inj hstep
        exact ⟨q, hends rfl rfl (.inl rfl) rfl hsame⟩
  · obtain rfl := some.inj hstep
    exact ⟨q, hends rfl rfl (.inl rfl) rfl hsame⟩
  · split at hstep
    · obtain rfl := some.inj hstep
      exact ⟨q, hends rfl rfl (.inr rfl) rfl hsame⟩
    · cases hstep
  · next data n ok hup =>
    obtain ⟨hsniff, hjudged, hsent⟩ := h.up.sends hup
    split at hstep
    · next hok =>
      obtain rfl := some.inj hstep
      refine ⟨q, h.asked, h.capped, h.made, h.request, h.same, ?_, hkept rfl, h.headed⟩
      have hall : s.conn.seen.passed ++ data.take data.length = q.rest := by
        rw [take_length, hsent]
      rw [hsniff]
      refine ⟨hjudged, ?_⟩
      unfold again
      split_ifs
      · exact ⟨[], by rw [append_nil]; exact hall⟩
      · exact hall
    · obtain rfl := some.inj hstep
      refine ⟨q, h.asked, h.capped, h.made, h.request, h.same, ?_, hkept rfl, h.headed⟩
      unfold Tunnel.Up
      dsimp only
      rw [hsniff]
      refine ⟨hjudged, ?_⟩
      -- what a write that failed took is a start of what it was to send
      rw [← hsent]
      exact prefix_append_right_inj _ |>.mpr (List.take_prefix _ _)
  · obtain rfl := some.inj hstep
    exact ⟨q, hends rfl rfl (.inl rfl) rfl hsame⟩
  · cases hstep

theorem step_down_flows (h : s.Flows o run q t) (hstep : step_down a t s = some p) : p.2.Flows o run q p.1 := by
  have hkept : ∀ {t' : Tunnel}, t'.up = t.up → t'.sniff = t.sniff → t'.Up run q s.conn.seen.passed := by
    intro t' hup hsniff
    have hbefore := h.up
    unfold Tunnel.Up at hbefore ⊢
    rwa [hup, hsniff]
  have hends : ∀ {t' : Tunnel} {s' : At}, t'.up = t.up → t'.sniff = t.sniff → t'.down = .done →
      s'.conn.seen = s.conn.seen →
      s'.conn.protocol = s.conn.protocol ∧ s'.conn.over_ = s.conn.over_ ∧ s'.conn.host = s.conn.host ∧
        s'.conn.kind = s.conn.kind ∧ s'.conn.port = s.conn.port → s'.Flows o run q t' :=
    fun hup hsniff hdown hseen hconn => h.turned hseen hconn (hkept hup hsniff) (h.down.ended hdown)
  have hsame : s.conn.protocol = s.conn.protocol ∧ s.conn.over_ = s.conn.over_ ∧ s.conn.host = s.conn.host ∧
      s.conn.kind = s.conn.kind ∧ s.conn.port = s.conn.port := ⟨rfl, rfl, rfl, rfl, rfl⟩
  have hbefore := h.down
  unfold step_down at hstep
  split at hstep
  · next b hdown =>
    split at hstep
    · cases hstep
    unfold Tunnel.Down at hbefore
    rw [hdown] at hbefore
    have hmore : q.far_rest run (s.conn.seen.far_received ++ b) = s.conn.seen.returned ++ b := by
      rw [Asked.far_rest_more b h.headed, hbefore]
    have hheaded : q.Headed run (s.conn.seen.far_received ++ b) := by
      intro hup
      obtain ⟨ends, hends⟩ := isSome_iff_exists.mp (h.headed hup)
      rw [(index_of_more hends b).1]
      rfl
    split at hstep
    · obtain rfl := some.inj hstep
      refine ⟨h.asked, h.capped, h.made, h.request, h.same, hkept rfl rfl, ?_, hheaded⟩
      show s.conn.seen.returned <+: q.far_rest run (s.conn.seen.far_received ++ b)
      rw [hmore]
      exact prefix_append _ _
    · obtain rfl := some.inj hstep
      exact ⟨h.asked, h.capped, h.made, h.request, h.same, hkept rfl rfl, hmore.symm, hheaded⟩
  · split at hstep
    · obtain rfl := some.inj hstep
      exact hends rfl rfl rfl rfl hsame
    · split at hstep
      · obtain rfl := some.inj hstep
        exact h
      · obtain rfl := some.inj hstep
        exact hends rfl rfl rfl rfl hsame
  · obtain rfl := some.inj hstep
    exact hends rfl rfl rfl rfl hsame
  · next data n ok hdown =>
    unfold Tunnel.Down at hbefore
    rw [hdown] at hbefore
    split at hstep
    · next hok =>
      obtain rfl := some.inj hstep
      refine ⟨h.asked, h.capped, h.made, h.request, h.same, hkept rfl rfl, ?_, h.headed⟩
      have hall : s.conn.seen.returned ++ data.take data.length = q.far_rest run s.conn.seen.far_received := by
        rwa [take_length]
      unfold again
      split_ifs
      · exact ⟨[], by rw [append_nil]; exact hall⟩
      · exact hall
    · obtain rfl := some.inj hstep
      refine ⟨h.asked, h.capped, h.made, h.request, h.same, hkept rfl rfl, ?_, h.headed⟩
      show s.conn.seen.returned ++ data.take _ <+: q.far_rest run s.conn.seen.far_received
      rw [← hbefore]
      exact (prefix_append_right_inj _).mpr (List.take_prefix _ _)
  · cases hstep

/-! ## A step -/

theorem stands_of {c : Conn} {phase : Phase} (h : c.Stands o run) (hphase : c.phase = phase) :
    ({ c with phase := phase } : Conn).Stands o run := by
  rwa [← hphase]

theorem sound_after_send {ok : Bool} {text : Bytes} {next : Next} (h : s.Sound o run)
    (hphase : s.conn.phase = .sending text next) : (after_send o run ok next s).Sound o run := by
  have hkeeps : s.Keeps o run := h.keeps
  have hstands := stands_of h.stands hphase
  cases next with
  | refuse why =>
    -- why a client is refused is never replied to after the reply it was sent
    unfold after_send
    exact ⟨hkeeps, trivial⟩
  | chosen rest =>
    obtain ⟨-, hidle, hprotocol, hgreeted⟩ := hstands
    unfold after_send
    dsimp only
    split
    · exact sound_chosen_method hkeeps hidle hprotocol hgreeted
    · exact sound_socks_unread hkeeps false 0 []
  | passed rest =>
    obtain ⟨-, hidle, hprotocol, hsocks, htoken⟩ := hstands
    unfold after_send
    dsimp only
    split
    · have hauth := authenticated_of hkeeps hidle (s.conn.seen.password.getD [])
      refine sound_request_begins ⟨hauth.keeps, hauth.idle, hauth.protocol.trans hprotocol, ?_⟩
      rw [hauth.received]
      exact ⟨_, hsocks, fun digest hdigest => ⟨_, rfl, htoken digest hdigest⟩⟩
    · exact sound_socks_unread hkeeps false 0 []
  | close => exact ⟨hkeeps, trivial⟩
  | tunnel =>
    obtain ⟨hmade, q, hdecided, hfirst, hheaded⟩ := hstands
    unfold after_send
    dsimp only
    split
    · exact sound_begin_tunnel hkeeps hmade hdecided hfirst hheaded
    · exact sound_finish hkeeps

theorem sound_read_data {b : Bytes} (h : s.Sound o run) (hstep : read_data o run b s = some s') : s'.Sound o run := by
  have hkeeps : s.Keeps o run := h.keeps
  have hreads := hkeeps.reads b
  unfold read_data at hstep
  split at hstep
  · next hphase =>
    obtain rfl := some.inj hstep
    obtain ⟨hidle, hreceived⟩ := stands_of h.stands hphase
    refine sound_sniffed hreads (hidle.reads b) ?_
    show s.conn.seen.received ++ b = b
    rw [hreceived, nil_append]
  · next reader all hphase =>
    obtain rfl := some.inj hstep
    obtain ⟨hidle, hprotocol, hreceived, hfed⟩ := stands_of h.stands hphase
    exact sound_head_fed hreads (hidle.reads b) hprotocol hfed (congrArg (· ++ b) hreceived)
  · next reader all hphase =>
    obtain rfl := some.inj hstep
    obtain ⟨hidle, hprotocol, hreceived, hfed⟩ := stands_of h.stands hphase
    exact sound_greeting_fed hreads (hidle.reads b) hprotocol hfed (congrArg (· ++ b) hreceived)
  · next reader fed hphase =>
    obtain ⟨digest, hdigest, rfl⟩ := map_eq_some_iff.mp hstep
    obtain ⟨hidle, hprotocol, -, hgreeted, hfed⟩ := stands_of h.stands hphase
    exact sound_auth_fed hreads (hidle.reads b) hprotocol hdigest (after_greeting_append hgreeted b) hfed
  · next reader held hphase =>
    obtain rfl := some.inj hstep
    obtain ⟨hidle, hprotocol, hfed, password, hsocks, hpresented⟩ := stands_of h.stands hphase
    exact sound_request_fed ⟨hreads, hidle.reads b, hprotocol, password, after_socks_append hsocks b, hpresented⟩ hfed
  · obtain rfl := some.inj hstep
    exact sound_finish hkeeps
  · obtain rfl := some.inj hstep
    split
    · exact sound_finish hreads
    · exact ⟨hreads, trivial⟩
  · cases hstep

theorem sound_read_nothing {why : Bytes} (h : s.Sound o run) (hstep : read_nothing o run why s = some s') :
    s'.Sound o run := by
  have hkeeps : s.Keeps o run := h.keeps
  unfold read_nothing at hstep
  split at hstep
  · obtain rfl := some.inj hstep
    exact ⟨hkeeps, trivial⟩
  · next hphase =>
    obtain rfl := some.inj hstep
    obtain ⟨hidle, hprotocol, -⟩ := stands_of h.stands hphase
    exact sound_head_unread hkeeps hidle hprotocol why
  · obtain rfl := some.inj hstep
    exact sound_socks_unread hkeeps _ _ _
  · obtain rfl := some.inj hstep
    exact sound_socks_unread hkeeps _ _ _
  · obtain rfl := some.inj hstep
    exact sound_socks_unread hkeeps _ _ _
  · obtain rfl := some.inj hstep
    exact sound_finish hkeeps
  · obtain rfl := some.inj hstep
    exact sound_not_through hkeeps _
  · cases hstep

/-- What every answer keeps of a connection. -/
theorem sound_step {up : Bool} (h : s.Sound o run) (hstep : step o run up a s = some s') : s'.Sound o run := by
  have hkeeps : s.Keeps o run := h.keeps
  unfold step at hstep
  split at hstep
  · cases hstep
  · obtain rfl := some.inj hstep
    exact sound_finish hkeeps
  · next a t hphase _ =>
    obtain ⟨hmade, q, hrequest, hsame, hup, hdown, hheaded⟩ := stands_of h.stands hphase
    have hflows : s.Flows o run q t := ⟨hkeeps.asked, hkeeps.capped, hmade, hrequest, hsame, hup, hdown, hheaded⟩
    obtain ⟨p, hp, rfl⟩ := map_eq_some_iff.mp hstep
    split at hp
    · obtain ⟨q', hflows'⟩ := step_up_flows hflows hp
      exact sound_settle hflows'
    · exact sound_settle (step_down_flows hflows hp)
  · next head b hphase =>
    split at hstep
    · cases hstep
    · obtain rfl := some.inj hstep
      obtain ⟨hfar, hmade, q, hdecided, hup⟩ := stands_of h.stands hphase
      exact sound_answer_data hkeeps hdecided hmade hfar hup b
  · split at hstep
    · cases hstep
    · exact sound_read_data h hstep
  · exact sound_read_nothing h hstep
  · next hphase =>
    obtain rfl := some.inj hstep
    exact sound_after_send h hphase
  · next hphase =>
    obtain rfl := some.inj hstep
    obtain ⟨hfar, hmade, q, hdecided, hup⟩ := stands_of h.stands hphase
    split
    · exact ⟨hkeeps, hfar, hmade, q, hdecided, hup⟩
    · exact sound_not_through hkeeps _
  · next answers hphase =>
    obtain rfl := some.inj hstep
    obtain ⟨hidle, q, hdecided, hdirect, hlooked⟩ := stands_of h.stands hphase
    refine sound_choose ⟨hkeeps, hidle, hdecided⟩ hdirect fun up hup addresses haddresses => ?_
    exact absurd ((hlooked up hup).symm.trans haddresses) nofun
  · obtain rfl := some.inj hstep
    exact sound_not_resolved hkeeps _
  · next hphase =>
    obtain rfl := some.inj hstep
    obtain ⟨hfar, q, hdecided, -⟩ := stands_of h.stands hphase
    exact sound_connected hkeeps hdecided hfar
  · next hphase =>
    obtain rfl := some.inj hstep
    obtain ⟨hfar, q, hdecided, hallows⟩ := stands_of h.stands hphase
    exact sound_not_connected hkeeps hdecided hfar (fun a ha => hallows a (mem_cons_of_mem _ ha)) _ _ _ _
  · cases hstep

end Cosmic.RelayServer
