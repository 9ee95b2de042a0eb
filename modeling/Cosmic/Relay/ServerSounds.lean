/-
Each step of a connection keeps what holds of it: `internal/relay_server.tl`.
-/
import Cosmic.Relay.ServerSound

set_option autoImplicit false

namespace Cosmic.RelayServer

open Cosmic.Base List Option Bool
open Cosmic.Wire
open Cosmic.RelayAddress (Answer)

variable {o : Outside} {run : Running} {s : At} {q : Asked}

/-- What holds of a connection whatever it waits for. -/
def At.Keeps (o : Outside) (run : Running) (s : At) : Prop :=
  RelayServer.Keeps o run s.conn.protocol s.conn.over_ s.conn.seen

def At.Sound (o : Outside) (run : Running) (s : At) : Prop := s.conn.Sound o run

/-! ## Ends -/

theorem sound_finish (h : s.Keeps o run) : (finish s).Sound o run := ⟨h, trivial⟩

theorem sound_reject (h : s.Keeps o run) {why : Refusal} (hwhy : why.socks ≠ .succeeded) (replied : Bool) :
    (reject why replied s).Sound o run := by
  unfold reject
  dsimp only
  split
  · split
    · split
      · next hok => exact ⟨h, connect_refusal_no_success hok⟩
      · exact sound_finish h
    · exact ⟨h, socks_reply_no_success hwhy⟩
  · exact ⟨h, trivial⟩

theorem sound_refused (h : s.Keeps o run) {reason : Bytes} {http : ℕ} {socks : SocksReply} (hsocks : socks ≠ .succeeded)
    (replied : Bool) : (reject ⟨reason, http, socks⟩ replied s).Sound o run := sound_reject h hsocks replied

theorem connect_failure_socks (address why : Bytes) : (connect_failure address why).socks ≠ .succeeded := by
  unfold connect_failure
  dsimp only
  split_ifs
  · exact nofun
  · exact nofun
  · exact nofun
  · exact nofun

/-! ## Connecting -/

theorem destination_port (hsame : q.host = s.conn.host ∧ q.kind = s.conn.kind ∧ q.port = s.conn.port) :
    (destination run s).2 = q.far_port run := by
  unfold destination Asked.far_port
  have hthrough : upstream_of run s = through run s.conn.host s.conn.port := rfl
  rw [hsame.1, hsame.2.2, hthrough]
  cases through run s.conn.host s.conn.port with
  | none => rfl
  | some up => rfl

theorem sound_ask_connector (h : s.Keeps o run) (hdecided : s.conn.Decided o run q) (hfar : s.conn.seen.far_received = [])
    {addresses : List Bytes} (hallows : ∀ a ∈ addresses, q.Allows run s.conn.seen.answers a (q.far_port run))
    (failures : List Bytes) : (ask_connector run failures addresses s).Sound o run := by
  cases addresses with
  | nil => exact sound_finish h
  | cons address left =>
    refine ⟨⟨?_, h.capped, h.told, h.passed, h.returned⟩, hfar, q, hdecided, hallows⟩
    intro a port hmem
    rcases mem_append.mp hmem with hmem | hmem
    · exact h.asked a port hmem
    · obtain ⟨rfl, rfl⟩ := Prod.mk.inj (mem_singleton.mp hmem)
      refine ⟨q, hdecided.1, ?_⟩
      rw [destination_port hdecided.2.1]
      exact hallows _ mem_cons_self

theorem sound_not_connected (h : s.Keeps o run) (hdecided : s.conn.Decided o run q)
    (hfar : s.conn.seen.far_received = []) {left : List Bytes}
    (hallows : ∀ a ∈ left, q.Allows run s.conn.seen.answers a (q.far_port run)) (address : Bytes)
    (failures : List Bytes) (why : Bytes) (late : Bool) :
    (not_connected run address left failures why late s).Sound o run := by
  have hlast : ∀ failures last, last.socks ≠ .succeeded → (none_answered run failures last s).socks ≠ .succeeded := by
    intro failures last hlast
    unfold none_answered
    dsimp only
    split
    · exact hlast
    · exact hlast
  unfold not_connected
  cases left with
  | nil => exact sound_reject h (hlast _ _ (connect_failure_socks _ _)) true
  | cons next left =>
    dsimp only
    split
    · exact sound_reject h (hlast _ _ (connect_failure_socks _ _)) true
    · exact sound_ask_connector h hdecided hfar hallows _

/-- Its request was decided, and nothing was asked for yet. -/
structure At.Asks (o : Outside) (run : Running) (q : Asked) (s : At) : Prop where
  keeps : s.Keeps o run
  idle : s.conn.seen.Idle
  decided : s.conn.Decided o run q

theorem At.Asks.answered (h : s.Asks o run q) (answers : List Answer) :
    (s.sees fun seen => { seen with answers := some answers }).Asks o run q where
  keeps := by
    refine ⟨?_, h.keeps.capped, h.keeps.told, h.keeps.passed, h.keeps.returned⟩
    intro address port hmem
    rw [show (s.sees fun seen => { seen with answers := some answers }).conn.seen.asked = [] from h.idle.asked] at hmem
    cases hmem
  idle := ⟨h.idle.asked, h.idle.passed, h.idle.returned, h.idle.far⟩
  decided := ⟨⟨h.decided.1.request, h.decided.1.presented, h.decided.1.capped, h.decided.1.granted⟩, h.decided.2⟩

theorem sound_choose (h : s.Asks o run q) (hdirect : through run q.host q.port = none → q.kind = .name)
    {answers : List Answer} (hgiven : ∀ up, through run q.host q.port = some up →
      ∀ addresses, up.addresses = some addresses → answers = given_answers addresses) :
    (choose run answers s).Sound o run := by
  have h' := h.answered answers
  unfold choose
  dsimp only
  split
  · exact sound_finish h'.keeps
  · exact sound_refused h'.keeps (by decide) true
  next allowed trouble hpermitted =>
  have hallows : ∀ a ∈ allowed.map Answer.address, q.Allows run (some answers) a (q.far_port run) := by
    intro a ha
    have hthrough : upstream_of run (s.sees fun seen => { seen with answers := some answers }) =
        through run q.host q.port := by
      rw [h.decided.2.1.1, h.decided.2.1.2.2]
      rfl
    rw [destination_port h'.decided.2.1, hthrough] at hpermitted
    unfold Asked.Allows
    unfold Asked.far_port at hpermitted ⊢
    cases hup : through run q.host q.port with
    | none =>
      rw [hup] at hpermitted
      exact ⟨rfl, .inr ⟨hdirect hup, answers, rfl, allowed, trouble, hpermitted, ha⟩⟩
    | some up =>
      rw [hup] at hpermitted
      exact ⟨rfl, answers, rfl, hgiven up hup, allowed, trouble, hpermitted, ha⟩
  exact sound_ask_connector h'.keeps h'.decided h'.idle.far hallows []

theorem sound_not_resolved (h : s.Keeps o run) (why : Bytes) : (not_resolved run why s).Sound o run := by
  unfold not_resolved
  dsimp only
  split
  · exact sound_refused h (by decide) true
  · exact sound_refused h (by decide) true

theorem sound_resolve (h : s.Asks o run q) (hdirect : through run q.host q.port = none → q.kind = .name) :
    (resolve run s).Sound o run := by
  have hthrough : upstream_of run s = through run q.host q.port := by
    rw [h.decided.2.1.1, h.decided.2.1.2.2]
    rfl
  unfold resolve
  dsimp only
  split
  · next addresses haddresses =>
    refine sound_choose h hdirect fun up hup given hgiven => ?_
    rw [hthrough, hup, bind_some, hgiven] at haddresses
    cases haddresses
    rfl
  · next hnone =>
    split
    · exact sound_refused h.keeps (by decide) true
    · split
      · exact sound_refused h.keeps (by decide) true
      · refine ⟨h.keeps, h.idle, q, h.decided, hdirect, fun up hup => ?_⟩
        rwa [hthrough, hup] at hnone

/-- What a request that is read is held to. -/
structure At.Reads (o : Outside) (run : Running) (q : Asked) (s : At) : Prop where
  keeps : s.Keeps o run
  idle : s.conn.seen.Idle
  request : request_of o run s.conn.protocol s.conn.seen.received = some q
  presented : q.Presented o run

theorem sound_decide_request (h : s.Reads o run q) (hsame : q.host = s.conn.host ∧ q.kind = s.conn.kind ∧ q.port = s.conn.port)
    (hrest : q.rest = s.conn.leftover) : (decide_request run s).Sound o run := by
  have hthrough : upstream_of run s = through run q.host q.port := by
    rw [hsame.1, hsame.2.2]
    rfl
  unfold decide_request
  split
  · exact sound_refused h.keeps (by decide) true
  next over_ hover =>
  split
  · exact sound_refused h.keeps (by decide) true
  next hcaps =>
  split
  · exact sound_refused h.keeps (by decide) true
  next hname =>
  split
  · exact sound_refused h.keeps (by decide) true
  next haddress =>
  -- the grants name it: nothing is asked of the resolver or the connector before
  have hgranted : q.Granted run := by
    unfold Asked.Granted
    rw [hsame.1, hsame.2.1, hsame.2.2]
    refine ⟨fun hkind => ?_, fun hkind => ?_⟩
    · exact eq_true_of_not_eq_false fun hnot => hname ⟨hkind, by rw [hnot]; decide⟩
    · exact eq_true_of_not_eq_false fun hnot => haddress ⟨hkind, by rw [hnot]; decide⟩
  have hcapped : Capped run s.conn.seen.admitted := h.keeps.capped (by rw [hover, not_not.mp hcaps])
  have hdecided : s.conn.Decided o run q :=
    ⟨⟨h.request, h.presented, hcapped, hgranted⟩, hsame, hrest, h.idle.passed, h.idle.returned⟩
  have hasks : s.Asks o run q := ⟨h.keeps, h.idle, hdecided⟩
  split
  · exact sound_refused h.keeps (by decide) true
  split
  · next hdirect =>
    rw [hthrough, isNone_iff_eq_none, ← hsame.2.1] at hdirect
    refine sound_ask_connector h.keeps hdecided h.idle.far (fun a ha => ?_) []
    obtain rfl := mem_singleton.mp ha
    unfold Asked.Allows Asked.far_port
    rw [hdirect.1]
    exact ⟨rfl, .inl ⟨hdirect.2, hsame.1.symm⟩⟩
  · next hdirect =>
    refine sound_resolve hasks fun hnone => ?_
    rw [hthrough, isNone_iff_eq_none, ← hsame.2.1] at hdirect
    exact not_not.mp fun hkind => hdirect ⟨hnone, hkind⟩

/-! ## Admission -/

theorem keeps_idle {protocol : Protocol} {over_ : Option Bytes} {seen : Seen} (hidle : seen.Idle)
    (hcapped : over_ = some [] → Capped run seen.admitted) (htold : seen.told = true → seen.made = true) :
    Keeps o run protocol over_ seen where
  asked := by
    intro address port hmem
    rw [hidle.asked] at hmem
    cases hmem
  capped := hcapped
  told := htold
  passed := .inl hidle.passed
  returned := .inl hidle.returned

theorem keeps_admitted (h : s.Keeps o run) (hidle : s.conn.seen.Idle) : (admit_conn run.limits s).Keeps o run := by
  have hidle' : (admit_conn run.limits s).conn.seen.Idle := ⟨hidle.asked, hidle.passed, hidle.returned, hidle.far⟩
  refine keeps_idle hidle' (fun hover => ?_) h.told
  obtain ⟨htotal, hopen⟩ := over_cap_empty (some.inj hover)
  exact ⟨_, _, rfl, hopen, htotal⟩

structure Authenticated (o : Outside) (run : Running) (password : Bytes) (s s' : At) : Prop where
  keeps : s'.Keeps o run
  idle : s'.conn.seen.Idle
  protocol : s'.conn.protocol = s.conn.protocol
  received : s'.conn.seen.received = s.conn.seen.received
  password : s'.conn.seen.password = some password

theorem authenticated_of (h : s.Keeps o run) (hidle : s.conn.seen.Idle) (password : Bytes) :
    Authenticated o run password s (authenticated run password s) := by
  let s' := s.sees fun seen => { seen with password := some password }
  have hidle' : s'.conn.seen.Idle := ⟨hidle.asked, hidle.passed, hidle.returned, hidle.far⟩
  have h' : s'.Keeps o run := keeps_idle hidle' h.capped h.told
  unfold authenticated
  cases s.conn.over_ with
  | none => exact ⟨keeps_admitted h' hidle', ⟨hidle.asked, hidle.passed, hidle.returned, hidle.far⟩, rfl, rfl, rfl⟩
  | some over_ => exact ⟨h', hidle', rfl, rfl, rfl⟩

/-! ## HTTP -/

/-- The head of a CONNECT connection: a refusal, or what its bytes say. -/
def At.Heads (s : At) (head : Connect) (rest : Bytes) : Prop :=
  head.status = .refused ∨
    head = connect_judge s.conn.seen.received ∧ head.status = .done ∧ rest = s.conn.seen.received.drop head.consumed

theorem sound_connect_asked (h : s.Keeps o run) (hidle : s.conn.seen.Idle) (hprotocol : s.conn.protocol = .connect)
    {head : Connect} {rest : Bytes} (hhead : s.Heads head rest) : (connect_asked o run head rest s).Sound o run := by
  unfold connect_asked
  split
  · exact sound_refused h (by decide) _
  next hstatus =>
  extract_lets asked
  -- the request as it is decided, of a client that presented the token
  have hasked : ∀ s' : At, s'.Keeps o run → s'.conn.seen.Idle → s'.conn.protocol = .connect →
      s'.conn.seen.received = s.conn.seen.received →
      (∀ digest, run.token_digest = some digest → ∃ password, (basic_password o head.authorization).toOption =
        some password ∧ is_token o digest password = true) → (asked s').Sound o run := by
    intro s' h' hidle' hprotocol' hreceived hpresented
    dsimp only [asked]
    split
    · next host kind port hhost hkind hport =>
      rcases hhead with hrefused | ⟨hjudge, hdone, hrest⟩
      · exact absurd hrefused hstatus
      have hrequest : request_of o run s'.conn.protocol s'.conn.seen.received =
          some ⟨host, kind, port, (basic_password o head.authorization).toOption, rest⟩ := by
        rw [hprotocol', hreceived]
        show http_asked o s.conn.seen.received = _
        unfold http_asked
        rw [← hjudge]
        dsimp only
        rw [hdone, hhost, hkind, hport, hrest]
      have hreads : (s'.asks host kind port rest).Reads o run
          ⟨host, kind, port, (basic_password o head.authorization).toOption, rest⟩ :=
        ⟨h', hidle', hrequest, hpresented⟩
      exact sound_decide_request hreads ⟨rfl, rfl, rfl⟩ rfl
    · exact sound_refused h' (by decide) true
  split
  · next hnone =>
    refine hasked s h hidle hprotocol rfl fun digest hdigest => ?_
    cases hnone.symm.trans hdigest
  next digest hdigest =>
  split
  · exact sound_refused h (by decide) true
  next password hpassword =>
  split
  · next htoken =>
    have hauth := authenticated_of h hidle password
    refine hasked _ hauth.keeps hauth.idle (hauth.protocol.trans hprotocol) hauth.received ?_
    intro digest' hdigest'
    obtain rfl := some.inj (hdigest.symm.trans hdigest')
    rw [hpassword]
    exact ⟨password, rfl, htoken⟩
  · exact sound_refused h (by decide) true

theorem At.Keeps.reads (h : s.Keeps o run) (b : Bytes) : (s.sees fun seen => seen.reads b).Keeps o run where
  asked := by
    intro address port hmem
    obtain ⟨q, hcleared, hallows⟩ := h.asked address port hmem
    exact ⟨q.more b, hcleared.more b, hallows⟩
  capped := h.capped
  told := h.told
  passed := by
    rcases h.passed with hnone | ⟨q, hrequest, hjudged, hpassed⟩
    · exact .inl hnone
    · exact .inr ⟨q.more b, asked_of_append hrequest b, hjudged.more b, hpassed.trans (prefix_append _ _)⟩
  returned := by
    rcases h.returned with hnone | ⟨q, hrequest, hreturned⟩
    · exact .inl hnone
    · exact .inr ⟨q.more b, asked_of_append hrequest b, hreturned⟩

theorem Seen.Idle.reads {seen : Seen} (h : seen.Idle) (b : Bytes) : (seen.reads b).Idle :=
  ⟨h.asked, h.passed, h.returned, h.far⟩

theorem sound_head_fed (h : s.Keeps o run) (hidle : s.conn.seen.Idle) (hprotocol : s.conn.protocol = .connect)
    {reader : Reading} {all data : Bytes} (hfed : connect_reader.Fed reader all)
    (hreceived : s.conn.seen.received = all ++ data) : (head_fed o run reader all data s).Sound o run := by
  obtain ⟨hanswer, hfed'⟩ := connect_reader_reads.feed_fed hfed data
  have hover : s.Heads (over_head run) [] := .inl rfl
  unfold head_fed
  dsimp only
  split
  · next hstatus => exact sound_connect_asked h hidle hprotocol (.inl hstatus)
  · next hstatus =>
    split
    · exact sound_connect_asked h hidle hprotocol hover
    · refine sound_connect_asked h hidle hprotocol (.inr ⟨?_, hstatus, ?_⟩)
      · rw [hanswer, hreceived]
      · rw [hreceived]
  · split
    · exact sound_connect_asked h hidle hprotocol hover
    · exact ⟨h, hidle, hprotocol, hreceived, hfed'⟩

theorem sound_head_unread (h : s.Keeps o run) (hidle : s.conn.seen.Idle) (hprotocol : s.conn.protocol = .connect)
    (why : Bytes) : (head_unread o run why s).Sound o run := by
  refine sound_connect_asked h hidle hprotocol (.inl ?_)
  split
  · rfl
  · rfl

/-! ## SOCKS5 -/

theorem read_request_reply (buf : Bytes) : (read_request buf).reply ≠ some .succeeded := by
  have hrefused : ∀ reply why, reply ≠ .succeeded → (socks_refused reply why).reply ≠ some .succeeded :=
    fun reply why hreply heq => hreply (some.inj heq)
  have hhost : ∀ answer, request_host buf = .error answer → answer.reply ≠ some .succeeded := by
    intro answer h
    unfold request_host at h
    dsimp only at h
    split_ifs at h
    · cases h
      exact nofun
    · cases h
      exact nofun
    · split at h
      · cases h
        exact hrefused _ _ nofun
      · cases h
    · cases h
      exact nofun
    · cases h
      exact hrefused _ _ nofun
    · cases h
      exact nofun
    · split at h
      · cases h
        exact hrefused _ _ nofun
      · cases h
    · cases h
      exact hrefused _ _ nofun
  unfold read_request
  dsimp only
  split_ifs
  · exact nofun
  · exact hrefused _ _ nofun
  · exact nofun
  · exact hrefused _ _ nofun
  · exact nofun
  · exact hrefused _ _ nofun
  · exact nofun
  · split
    · next answer hanswer => exact hhost answer hanswer
    · split_ifs
      · exact nofun
      · exact hrefused _ _ nofun
      · exact nofun

theorem sound_sends_refusal (h : s.Keeps o run) {text : Bytes} (htext : text.length = 2) (why : Refusal) :
    (s.wait (.sending text (.refuse why))).Sound o run := ⟨h, short_no_success htext⟩

/-- A request is to be read of what follows, where the password is already presented. -/
structure At.Greeted (o : Outside) (run : Running) (held : Bytes) (s : At) : Prop where
  keeps : s.Keeps o run
  idle : s.conn.seen.Idle
  protocol : s.conn.protocol = .socks5
  presented : ∃ password, after_socks run.token_digest.isSome s.conn.seen.received = some (password, held) ∧
    ∀ digest, run.token_digest = some digest → ∃ given, password = some given ∧ is_token o digest given = true

theorem sound_request_fed {reader : Held SocksRequest} {held data : Bytes} (h : s.Greeted o run (held ++ data))
    (hfed : socks_request_reader.Fed reader held) : (request_fed run reader held data s).Sound o run := by
  obtain ⟨hanswer, hfed'⟩ := socks_request_reader_reads.feed_fed hfed data
  obtain ⟨password, hsocks, hpresented⟩ := h.presented
  unfold request_fed
  dsimp only
  split
  · refine sound_reject h.keeps ?_ true
    rw [hanswer]
    have hreply := read_request_reply (held ++ data)
    cases hsome : (read_request (held ++ data)).reply with
    | none => exact nofun
    | some reply =>
      rw [hsome] at hreply
      exact fun heq => hreply (congrArg some heq)
  · next hstatus =>
    split
    · next host kind port hhost hkind hport =>
      rw [hanswer] at hstatus hhost hkind hport
      have hrequest : request_of o run s.conn.protocol s.conn.seen.received =
          some ⟨host, kind, port, password, (held ++ data).drop (read_request (held ++ data)).consumed⟩ := by
        unfold request_of asked_of
        rw [h.protocol]
        rw [hsocks, bind_some]
        unfold socks_asked
        dsimp only
        rw [hstatus, hhost, hkind, hport]
      rw [hanswer]
      have hreads : (s.asks host kind port ((held ++ data).drop (read_request (held ++ data)).consumed)).Reads o run _ :=
        ⟨h.keeps, h.idle, hrequest, hpresented⟩
      exact sound_decide_request hreads ⟨rfl, rfl, rfl⟩ rfl
    · exact sound_refused h.keeps (by decide) true
  · split
    · exact sound_refused h.keeps (by decide) true
    · exact ⟨h.keeps, h.idle, h.protocol, hfed', h.presented⟩

theorem sound_request_begins {rest : Bytes} (h : s.Greeted o run rest) : (request_begins run rest s).Sound o run := by
  unfold request_begins
  split
  · next hrest =>
    rw [hrest] at h
    exact ⟨h.keeps, h.idle, h.protocol, socks_request_reader.fed_start, h.presented⟩
  · exact sound_request_fed h socks_request_reader.fed_start

theorem sound_auth_fed (h : s.Keeps o run) (hidle : s.conn.seen.Idle) (hprotocol : s.conn.protocol = .socks5)
    {digest : Bytes} (hdigest : run.token_digest = some digest) {reader : Held SocksAuth} {fed data : Bytes}
    (hgreeted : after_greeting run.token_digest.isSome s.conn.seen.received = some (fed ++ data))
    (hfed : socks_auth_reader.Fed reader fed) : (auth_fed o digest reader fed data s).Sound o run := by
  obtain ⟨hanswer, hfed'⟩ := socks_auth_reader_reads.feed_fed hfed data
  have htoken : run.token_digest.isSome = true := by
    rw [hdigest]
    rfl
  unfold auth_fed
  dsimp only
  split
  · exact ⟨h, hidle, hprotocol, htoken, hgreeted, hfed'⟩
  · exact sound_sends_refusal h rfl _
  next hstatus =>
  rw [hanswer] at hstatus ⊢
  split
  · next hpassword =>
    have hidle' : ∀ password, ({ s.conn.seen with password } : Seen).Idle :=
      fun _ => ⟨hidle.asked, hidle.passed, hidle.returned, hidle.far⟩
    refine ⟨keeps_idle (hidle' _) h.capped h.told, short_no_success rfl, hidle' _, hprotocol, ?_, ?_⟩
    · show after_socks run.token_digest.isSome s.conn.seen.received = _
      unfold after_socks
      rw [hgreeted]
      dsimp only
      rw [if_pos htoken]
      unfold after_auth
      rw [if_pos hstatus]
      rfl
    · intro digest' hdigest'
      obtain rfl := some.inj (hdigest.symm.trans hdigest')
      exact hpassword
  · exact sound_sends_refusal h rfl _

theorem sound_chosen_method (h : s.Keeps o run) (hidle : s.conn.seen.Idle) (hprotocol : s.conn.protocol = .socks5)
    {rest : Bytes} (hgreeted : after_greeting run.token_digest.isSome s.conn.seen.received = some rest) :
    (chosen_method o run rest s).Sound o run := by
  unfold chosen_method
  split
  · next hnone =>
    refine sound_request_begins ⟨h, hidle, hprotocol, none, ?_, fun digest hdigest => ?_⟩
    · unfold after_socks
      rw [hgreeted]
      dsimp only
      rw [if_neg (by rw [hnone]; exact nofun)]
    · exact absurd (hnone.symm.trans hdigest) nofun
  · next digest hdigest =>
    split
    · next hrest =>
      rw [hrest] at hgreeted
      exact ⟨h, hidle, hprotocol, by rw [hdigest]; rfl, hgreeted, socks_auth_reader.fed_start⟩
    · exact sound_auth_fed h hidle hprotocol hdigest hgreeted socks_auth_reader.fed_start

theorem sound_greeting_fed (h : s.Keeps o run) (hidle : s.conn.seen.Idle) (hprotocol : s.conn.protocol = .socks5)
    {reader : Held SocksGreeting} {all data : Bytes}
    (hfed : (socks_greeting_reader run.token_digest.isSome).Fed reader all)
    (hreceived : s.conn.seen.received = all ++ data) : (greeting_fed run reader all data s).Sound o run := by
  obtain ⟨hanswer, hfed'⟩ := (socks_greeting_reader_reads run.token_digest.isSome).feed_fed hfed data
  unfold greeting_fed
  dsimp only
  split
  · split
    · exact sound_refused h (by decide) false
    · exact ⟨h, hidle, hprotocol, hreceived, hfed'⟩
  · split
    · exact sound_sends_refusal h rfl _
    · exact sound_refused h (by decide) false
  · next hstatus =>
    split
    · exact sound_sends_refusal h rfl _
    · rw [hanswer] at hstatus ⊢
      refine ⟨h, short_no_success rfl, hidle, hprotocol, ?_⟩
      show after_greeting run.token_digest.isSome s.conn.seen.received = _
      unfold after_greeting
      rw [hreceived, if_pos hstatus]

theorem sound_sniffed (h : s.Keeps o run) (hidle : s.conn.seen.Idle) {data : Bytes}
    (hreceived : s.conn.seen.received = data) : (sniffed o run data s).Sound o run := by
  unfold sniffed
  split
  · exact sound_greeting_fed (s := { s with conn := { s.conn with protocol := .socks5 } }) (keeps_idle hidle h.capped h.told)
      hidle rfl (Feeder.fed_start _) hreceived
  · exact sound_head_fed (s := { s with conn := { s.conn with protocol := .connect } }) (keeps_idle hidle h.capped h.told)
      hidle rfl (Feeder.fed_start _) hreceived

theorem sound_socks_unread (h : s.Keeps o run) (authing : Bool) (limit : ℤ) (why : Bytes) :
    (socks_unread authing limit why s).Sound o run := by
  unfold socks_unread
  exact sound_refused h (by decide) false

end Cosmic.RelayServer
