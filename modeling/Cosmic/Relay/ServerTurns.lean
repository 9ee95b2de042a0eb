/-
What each answer to a connection's wait leads to: `internal/relay_server.tl`.

The directions of a tunnel end one after the other once both of its sides are closed, and any other wait
is followed by one of a lower rank. A wait that has not ended can be answered, whatever the peers do.
-/
import Cosmic.Relay.ServerLeads

set_option autoImplicit false

namespace Cosmic.RelayServer

open Cosmic.Base Option Nat
open Cosmic.Wire

variable {o : Outside} {run : Running} {s s' : At} {r : ℕ ×ₗ ℕ}

/-! ## The tunnel -/

/-- Both sides are closed once the relay stops. -/
def At.Shut (s : At) : Prop := s.counts.stopping = true → s.conn.client_open = false ∧ s.conn.far_open = false

variable (run) in
theorem leads_settle {p : Tunnel × At} (hs : Live p.2) (hdown : p.1.down ≠ .alerting) (hshut : p.2.Shut) :
    Leads run (toLex (3, p.1.up.rank + p.1.down.rank)) p.2 (settle p) := by
  unfold settle
  split
  · exact leads_finish hs
  next hsome =>
  have hzero : ∀ pump : Pump, pump.rank = 0 → pump = .done := by
    intro pump hpump
    cases pump with
    | done => rfl
    | alerting => exact absurd hpump nofun
    | reading => exact absurd hpump nofun
    | sending data => exact absurd hpump nofun
  have hfresh : p.1.up.rank + p.1.down.rank ≠ 0 := by
    intro hboth
    obtain ⟨hup, hdone⟩ := Nat.add_eq_zero_iff.mp hboth
    exact hsome (hzero _ hup) (hzero _ hdone)
  exact leads_wait hs rfl ⟨hfresh, hdown⟩ hshut le_rfl

variable (run) in
theorem take_up_same (data : Bytes) (t : Tunnel) (s : At) : Same s (take_up run data t s).2 ∧
    (take_up run data t s).2.conn.phase = s.conn.phase ∧ (take_up run data t s).1.down = t.down ∧
    (s.Shut → (take_up run data t s).2.Shut) := by
  unfold take_up
  split
  · exact ⟨Same.refl s, rfl, rfl, id⟩
  dsimp only
  split
  · exact ⟨Same.refl s, rfl, rfl, id⟩
  · split
    · exact ⟨⟨rfl, rfl, rfl, rfl, rfl, rfl, rfl⟩, rfl, rfl, id⟩
    · exact ⟨Same.refl s, rfl, rfl, id⟩

theorem Pump.rank_le (p : Pump) : p.rank ≤ 3 := by
  cases p with
  | done => exact Nat.zero_le _
  | alerting => exact le_of_ble_eq_true rfl
  | reading => exact le_of_ble_eq_true rfl
  | sending data => exact le_rfl

theorem leads_begin_tunnel (hs : Live s) (hshut : s.Shut) : Leads run (toLex (3, 6)) s (begin_tunnel run s) := by
  have hdown : ∀ first : Bytes, (if first = [] then Pump.reading else Pump.sending first) ≠ .alerting := by
    intro first
    split
    · exact nofun
    · exact nofun
  have hsettle : ∀ p : Tunnel × At, Live p.2 → p.1.down ≠ .alerting → p.2.Shut →
      Leads run (toLex (3, 6)) p.2 (settle p) := by
    intro p hp hdown hshut
    refine (leads_settle run hp hdown hshut).le (Prod.Lex.le_iff.mpr (.inr ⟨rfl, ?_⟩))
    exact Nat.add_le_add (Pump.rank_le _) (Pump.rank_le _)
  unfold begin_tunnel
  dsimp only
  split
  · exact hsettle (_, s) hs (hdown _) hshut
  obtain ⟨hsame, hphase, hkept, hshut'⟩ := take_up_same run s.conn.leftover
    { up := .reading, down := if s.conn.first = [] then .reading else .sending s.conn.first
      sniff := some ⟨hello_reader.start, [], false⟩, flow_ended := false } s
  refine hsame.then (congrArg Phase.over hphase) (hsettle _ (hsame.live hs ?_) ?_ (hshut' hshut))
  · exact (congrArg Phase.over hphase).trans hs.on
  · exact fun halerting => hdown s.conn.first (hkept.symm.trans halerting)

/-- What one direction's answer leaves of the counts, and how much of the tunnel is left of it where both
sides are closed. -/
structure Turns (s : At) (t : Tunnel) (p : Tunnel × At) : Prop where
  same : Same s p.2
  phase : p.2.conn.phase = s.conn.phase
  down : t.down ≠ .alerting → p.1.down ≠ .alerting
  shut : s.Shut → p.2.Shut
  nearer : s.conn.client_open = false → s.conn.far_open = false →
    p.1.up.rank + p.1.down.rank < t.up.rank + t.down.rank

theorem shut_of_closed (hcounts : s'.counts = s.counts)
    (hclosed : s'.conn.client_open = false ∧ s'.conn.far_open = false ∨
      s'.conn.client_open = s.conn.client_open ∧ s'.conn.far_open = s.conn.far_open) : s.Shut → s'.Shut := by
  intro hshut hstopping
  rcases hclosed with hclosed | ⟨hclient, hfar⟩
  · exact hclosed
  · rw [hclient, hfar]
    rw [hcounts] at hstopping
    exact hshut hstopping

theorem again_rank (t : Tunnel) : (again t).rank < 3 := by
  unfold again
  split
  · exact zero_lt_succ _
  · exact Nat.lt_succ_self _

theorem again_alerting (t : Tunnel) : again t ≠ .alerting := by
  unfold again
  split
  · exact nofun
  · exact nofun

theorem step_up_turns {a : Reply} {t : Tunnel} {p : Tunnel × At} (h : step_up run a t s = some p) : Turns s t p := by
  have hread : s.conn.client_open = true → ∀ p' : Tunnel × At, s.conn.client_open = false → s.conn.far_open = false →
      p'.1.up.rank + p'.1.down.rank < t.up.rank + t.down.rank :=
    fun hopen _ hclosed => absurd (hopen.symm.trans hclosed) nofun
  unfold step_up at h
  split at h
  · split at h
    · cases h
    next hopen =>
    have hclient : s.conn.client_open = true := by
      cases hc : s.conn.client_open with
      | true => rfl
      | false => exact absurd (.inl hc) hopen
    split at h
    · cases h
      exact ⟨⟨rfl, rfl, rfl, rfl, rfl, rfl, rfl⟩, rfl, id, id, hread hclient _⟩
    cases h
    obtain ⟨hsame, hphase, hdown, hshut⟩ := take_up_same run _ t (s.sees fun seen => seen.reads _)
    refine ⟨⟨hsame.pending, hsame.open_, hsame.accepted, hsame.stopping, hsame.slot, hsame.over_, hsame.told⟩,
      hphase, ?_, hshut, hread hclient _⟩
    rw [hdown]
    exact id
  · next hup =>
    split at h
    · cases h
      refine ⟨Same.refl s, rfl, id, id, fun _ _ => ?_⟩
      rw [hup]
      simp [Pump.rank]
    · split at h
      · next hopen =>
        cases h
        exact ⟨Same.refl s, rfl, id, id, hread hopen.2 _⟩
      · cases h
        refine ⟨⟨rfl, rfl, rfl, rfl, rfl, rfl, rfl⟩, rfl, id, shut_of_closed rfl (.inl ⟨rfl, rfl⟩), fun _ _ => ?_⟩
        rw [hup]
        simp [Pump.rank]
  · next hup =>
    cases h
    refine ⟨⟨rfl, rfl, rfl, rfl, rfl, rfl, rfl⟩, rfl, id, shut_of_closed rfl (.inl ⟨rfl, rfl⟩), fun _ _ => ?_⟩
    rw [hup]
    simp [Pump.rank]
  · next hup =>
    split at h
    · cases h
      refine ⟨⟨rfl, rfl, rfl, rfl, rfl, rfl, rfl⟩, rfl, id, id, fun _ _ => ?_⟩
      rw [hup]
      simp [Pump.rank]
    · cases h
  · next hup =>
    split at h
    · cases h
      refine ⟨⟨rfl, rfl, rfl, rfl, rfl, rfl, rfl⟩, rfl, id, id, fun _ _ => ?_⟩
      rw [hup]
      exact Nat.add_lt_add_right (again_rank t) _
    · cases h
      refine ⟨⟨rfl, rfl, rfl, rfl, rfl, rfl, rfl⟩, rfl, id, shut_of_closed rfl (.inl ⟨rfl, rfl⟩), fun _ _ => ?_⟩
      rw [hup]
      simp [Pump.rank]
  · next hup =>
    cases h
    refine ⟨⟨rfl, rfl, rfl, rfl, rfl, rfl, rfl⟩, rfl, id, shut_of_closed rfl (.inl ⟨rfl, rfl⟩), fun _ _ => ?_⟩
    rw [hup]
    simp [Pump.rank]
  · cases h

theorem step_down_turns {a : Reply} {t : Tunnel} {p : Tunnel × At} (h : step_down a t s = some p) : Turns s t p := by
  have hread : s.conn.far_open = true → ∀ p' : Tunnel × At, s.conn.client_open = false → s.conn.far_open = false →
      p'.1.up.rank + p'.1.down.rank < t.up.rank + t.down.rank :=
    fun hopen _ _ hclosed => absurd (hopen.symm.trans hclosed) nofun
  have hdone : t.down ≠ .alerting → Pump.done ≠ .alerting := fun _ => nofun
  unfold step_down at h
  split at h
  · split at h
    · cases h
    next hopen =>
    have hfar : s.conn.far_open = true := by
      cases hc : s.conn.far_open with
      | true => rfl
      | false => exact absurd (.inl hc) hopen
    split at h
    · cases h
      exact ⟨⟨rfl, rfl, rfl, rfl, rfl, rfl, rfl⟩, rfl, hdone, id, hread hfar _⟩
    · cases h
      exact ⟨⟨rfl, rfl, rfl, rfl, rfl, rfl, rfl⟩, rfl, fun _ => nofun, id, hread hfar _⟩
  · next hdown =>
    split at h
    · cases h
      refine ⟨Same.refl s, rfl, hdone, id, fun _ _ => ?_⟩
      rw [hdown]
      simp [Pump.rank]
    · split at h
      · next hopen =>
        cases h
        exact ⟨Same.refl s, rfl, id, id, hread hopen.2 _⟩
      · cases h
        refine ⟨⟨rfl, rfl, rfl, rfl, rfl, rfl, rfl⟩, rfl, hdone, shut_of_closed rfl (.inl ⟨rfl, rfl⟩), fun _ _ => ?_⟩
        rw [hdown]
        simp [Pump.rank]
  · next hdown =>
    cases h
    refine ⟨⟨rfl, rfl, rfl, rfl, rfl, rfl, rfl⟩, rfl, hdone, shut_of_closed rfl (.inl ⟨rfl, rfl⟩), fun _ _ => ?_⟩
    rw [hdown]
    simp [Pump.rank]
  · next hdown =>
    split at h
    · cases h
      refine ⟨⟨rfl, rfl, rfl, rfl, rfl, rfl, rfl⟩, rfl, fun _ => again_alerting t, id, fun _ _ => ?_⟩
      rw [hdown]
      exact Nat.add_lt_add_left (again_rank t) _
    · cases h
      refine ⟨⟨rfl, rfl, rfl, rfl, rfl, rfl, rfl⟩, rfl, hdone, shut_of_closed rfl (.inl ⟨rfl, rfl⟩), fun _ _ => ?_⟩
      rw [hdown]
      simp [Pump.rank]
  · cases h

/-! ## A step -/

/-- A wait that is answered leads to one of a lower rank, that of a tunnel that is open apart. -/
def Steps (run : Running) (s s' : At) : Prop :=
  ∃ r, Leads run r s s' ∧ (s.counts.stopping = true → r < s.conn.rank run)

theorem Leads.steps {phase : Phase} (hphase : s.conn.phase = phase) (h : Leads run r s s')
    (hr : r < phase.rank run.limits.header_bytes) : Steps run s s' := by
  refine ⟨r, h, fun _ => ?_⟩
  rwa [Conn.rank, hphase]

theorem steps_finish (hs : Live s) : Steps run s (finish s) := by
  refine ⟨toLex (0, 0), leads_finish hs, fun _ => ?_⟩
  unfold Conn.rank
  have hon := hs.on
  cases hphase : s.conn.phase with
  | ended =>
    rw [hphase] at hon
    cases hon
  | sending text next =>
    cases next with
    | refuse why => exact stage_lt (by decide)
    | chosen rest => exact stage_lt (by decide)
    | passed rest => exact stage_lt (by decide)
    | close => exact stage_lt (by decide)
    | tunnel => exact stage_lt (by decide)
  | sniffing => exact stage_lt (by decide)
  | heading reader all => exact stage_lt (by decide)
  | greeting reader all => exact stage_lt (by decide)
  | authenticating reader fed => exact stage_lt (by decide)
  | requesting reader held => exact stage_lt (by decide)
  | closing reads => exact stage_lt (by decide)
  | looking cancelled => exact stage_lt (by decide)
  | connecting address left failures => exact stage_lt (by decide)
  | asking => exact stage_lt (by decide)
  | answering head => exact stage_lt (by decide)
  | tunnel t => exact stage_lt (by decide)

theorem steps_after_send {ok : Bool} {text : Bytes} {next : Next} (hs : Live s)
    (hphase : s.conn.phase = .sending text next) (hcalm : s.counts.stopping = true → s.conn.Calm) :
    Steps run s (after_send o run ok next s) := by
  have hfresh : s.conn.phase.Fresh := by
    rw [hphase]
    trivial
  unfold after_send
  split
  · exact (leads_reject hs _ false).steps hphase (left_lt Nat.zero_lt_one)
  · split
    · exact (leads_chosen_method hs _).steps hphase (stage_lt (by decide))
    · exact (leads_socks_unread hs false 0 []).steps hphase (stage_lt (by decide))
  · next rest =>
    split
    · have hbegins := leads_authenticated (f := request_begins run rest) hs hfresh hcalm
        (s.conn.seen.password.getD []) fun s₁ hs₁ _ => leads_request_begins hs₁ rest
      exact hbegins.steps hphase (stage_lt (by decide))
    · exact (leads_socks_unread hs false 0 []).steps hphase (stage_lt (by decide))
  · have hleads : Leads run (toLex (1, 2)) s (s.wait (.closing 2)) :=
      leads_wait hs rfl trivial (fun _ => trivial) le_rfl
    exact hleads.steps hphase (stage_lt (by decide))
  · split
    · have hshut : s.Shut := by
        intro hstopping
        have hcalm := hcalm hstopping
        rwa [Conn.Calm, hphase] at hcalm
      exact (leads_begin_tunnel hs hshut).steps hphase (stage_lt (by decide))
    · exact steps_finish hs

theorem steps_read_data {b : Bytes} (hs : Live s) (hfresh : s.conn.phase.Fresh)
    (hcalm : s.counts.stopping = true → s.conn.Calm) (hb : b ≠ []) (h : read_data o run b s = some s') :
    Steps run s s' := by
  -- what is read is kept beside before anything is done with it
  have hsees : ∀ {r s'}, Leads run r (s.sees fun seen => seen.reads b) s' → Leads run r s s' :=
    fun hleads => leads_sees hs (fun _ => hleads) fun _ => rfl
  have hlive : Live (s.sees fun seen => seen.reads b) := ⟨hs.on, hs.placed⟩
  unfold read_data at h
  split at h
  · next hphase =>
    cases h
    obtain ⟨r, hr, hleads⟩ := leads_sniffed run hlive hfresh hcalm hb
    exact (hsees hleads).steps hphase hr
  · next reader all hphase =>
    cases h
    obtain ⟨r, hr, hleads⟩ := leads_head_fed run hlive hfresh hcalm reader all hb
    exact (hsees hleads).steps hphase hr
  · next reader all hphase =>
    cases h
    obtain ⟨r, hr, hleads⟩ := leads_greeting_fed run hlive reader all hb
    exact (hsees hleads).steps hphase hr
  · next reader fed hphase =>
    obtain ⟨digest, -, rfl⟩ := map_eq_some_iff.mp h
    rw [hphase] at hfresh
    obtain ⟨r, hr, hleads⟩ := leads_auth_fed run hlive digest hfresh fed hb
    exact (hsees hleads).steps hphase hr
  · next reader held hphase =>
    cases h
    obtain ⟨r, hr, hleads⟩ := leads_request_fed run hlive reader held hb
    exact (hsees hleads).steps hphase hr
  · cases h
    exact steps_finish hs
  · next n hphase =>
    cases h
    split
    · have hleads : Leads run (toLex (0, 0)) _ (finish _) := leads_finish hlive
      exact (hsees hleads).steps hphase (stage_lt (by decide))
    · have hleads : Leads run (toLex (1, n)) (s.sees fun seen => seen.reads b) (At.wait _ (.closing n)) :=
        leads_wait hlive rfl trivial (fun _ => trivial) le_rfl
      exact (hsees hleads).steps hphase (left_lt (Nat.lt_succ_self n))
  · cases h

theorem steps_read_nothing {why : Bytes} (hs : Live s) (hfresh : s.conn.phase.Fresh)
    (hcalm : s.counts.stopping = true → s.conn.Calm) (h : read_nothing o run why s = some s') : Steps run s s' := by
  unfold read_nothing at h
  split at h
  · next hphase =>
    cases h
    have hsame : Same s s.refuses := ⟨rfl, rfl, rfl, rfl, rfl, rfl, rfl⟩
    have hleads : Leads run (toLex (1, 2)) s.refuses (s.refuses.wait (.closing 2)) :=
      leads_wait (hsame.live hs hs.on) rfl trivial (fun _ => trivial) le_rfl
    exact (hsame.then rfl hleads).steps hphase (stage_lt (by decide))
  · next hphase =>
    cases h
    exact (leads_connect_asked hs hfresh hcalm _ []).steps hphase (stage_lt (by decide))
  · next hphase =>
    cases h
    exact (leads_socks_unread hs _ _ _).steps hphase (stage_lt (by decide))
  · next hphase =>
    cases h
    exact (leads_socks_unread hs _ _ _).steps hphase (stage_lt (by decide))
  · next hphase =>
    cases h
    exact (leads_socks_unread hs _ _ _).steps hphase (stage_lt (by decide))
  · cases h
    exact steps_finish hs
  · next hphase =>
    cases h
    exact (leads_not_through hs _).steps hphase (stage_lt (by decide))
  · cases h

theorem steps_tunnel {t : Tunnel} {p : Tunnel × At} (hs : Live s) (hphase : s.conn.phase = .tunnel t)
    (hfresh : s.conn.phase.Fresh) (hcalm : s.counts.stopping = true → s.conn.Calm) (h : Turns s t p) :
    Steps run s (settle p) := by
  have hshut : s.Shut := by
    intro hstopping
    have hcalm := hcalm hstopping
    rwa [Conn.Calm, hphase] at hcalm
  rw [hphase] at hfresh
  have hover := congrArg Phase.over h.phase
  have hleads := leads_settle run (h.same.live hs (hover.trans hs.on)) (h.down hfresh.2) (h.shut hshut)
  refine ⟨_, h.same.then hover hleads, fun hstopping => ?_⟩
  obtain ⟨hclient, hfar⟩ := hshut hstopping
  rw [Conn.rank, hphase]
  exact left_lt (h.nearer hclient hfar)

/-- What an answer makes of a connection. -/
theorem steps_step {up : Bool} {a : Reply} (hs : Live s) (hfresh : s.conn.phase.Fresh)
    (hcalm : s.counts.stopping = true → s.conn.Calm) (h : step o run up a s = some s') : Steps run s s' := by
  unfold step at h
  split at h
  · cases h
  · cases h
    exact steps_finish hs
  · next a t hphase _ =>
    obtain ⟨p, hp, rfl⟩ := map_eq_some_iff.mp h
    split at hp
    · exact steps_tunnel hs hphase hfresh hcalm (step_up_turns hp)
    · exact steps_tunnel hs hphase hfresh hcalm (step_down_turns hp)
  · next head b hphase =>
    split at h
    · cases h
    · next hb =>
      cases h
      obtain ⟨r, hr, hleads⟩ := leads_answer_data run hs head (not_or.mp hb).2
      exact hleads.steps hphase hr
  · split at h
    · cases h
    · next hb => exact steps_read_data hs hfresh hcalm (not_or.mp hb).2 h
  · exact steps_read_nothing hs hfresh hcalm h
  · next hphase =>
    cases h
    exact steps_after_send hs hphase hcalm
  · next hphase =>
    cases h
    split
    · have hleads : Leads run (toLex (5, 16385)) s (s.wait (.answering [])) :=
        leads_wait hs rfl trivial (fun _ => trivial) le_rfl
      exact hleads.steps hphase (stage_lt (by decide))
    · exact (leads_not_through hs _).steps hphase (stage_lt (by decide))
  · next answers hphase =>
    cases h
    obtain ⟨r, hr, hleads⟩ := leads_choose run hs answers
    exact hleads.steps hphase hr
  · next hphase =>
    cases h
    exact (leads_not_resolved hs _).steps hphase (stage_lt (by decide))
  · next hphase =>
    cases h
    exact (leads_connected hs).steps hphase (stage_lt (by decide))
  · next hphase =>
    cases h
    obtain ⟨r, hr, hleads⟩ := leads_not_connected run hs _ _ _ _ _
    exact hleads.steps hphase hr
  · cases h

/-- What is answered to a wait by its own limit, by a peer that is gone or by a cancelled lookup. -/
def Reply.ends : Reply → Bool
  | .nothing _ => true
  | .sent _ ok => !ok
  | .lost _ => true
  | .trouble _ _ => true
  | .idle => true
  | _ => false

theorem step_nothing {why : Bytes} (h : read_nothing o run why s = some s') :
    step o run true (.nothing why) s = some s' := by
  have hread := h
  unfold read_nothing at h
  unfold step
  split at h
  · next hphase => rw [hphase]; exact hread
  · next hphase => rw [hphase]; exact hread
  · next hphase => rw [hphase]; exact hread
  · next hphase => rw [hphase]; exact hread
  · next hphase => rw [hphase]; exact hread
  · next hphase => rw [hphase]; exact hread
  · next hphase => rw [hphase]; exact hread
  · cases h

theorem step_tunnel {t : Tunnel} {up : Bool} {a : Reply} (hphase : s.conn.phase = .tunnel t) (hfault : a ≠ .fault) :
    step o run up a s = (if up then step_up run a t s else step_down a t s).map settle := by
  unfold step
  rw [hphase]
  cases a with
  | fault => exact absurd rfl hfault
  | _ => rfl

theorem tunnel_ends (run : Running) {t : Tunnel} (s : At) (hfresh : (Phase.tunnel t).Fresh) :
    ∃ (up : Bool) (a : Reply) (p : Tunnel × At), a.ends = true ∧ (if up then step_up run a t s else step_down a t s) = some p := by
  cases hup : t.up with
  | reading => exact ⟨true, .idle, _, rfl, (if_pos rfl).trans (by unfold step_up; rw [hup])⟩
  | sending data => exact ⟨true, .sent 0 false, _, rfl, (if_pos rfl).trans (by unfold step_up; rw [hup]; rfl)⟩
  | alerting => exact ⟨true, .sent 0 false, _, rfl, (if_pos rfl).trans (by unfold step_up; rw [hup])⟩
  | done =>
    cases hdown : t.down with
    | reading => exact ⟨false, .idle, _, rfl, (if_neg nofun).trans (by unfold step_down; rw [hdown])⟩
    | sending data => exact ⟨false, .sent 0 false, _, rfl, (if_neg nofun).trans (by unfold step_down; rw [hdown]; rfl)⟩
    | alerting => exact absurd hdown hfresh.2
    | done =>
      have hzero := hfresh.1
      rw [hup, hdown] at hzero
      exact absurd rfl hzero

/-- Every wait can end, whatever the peers do. -/
theorem step_ends (o : Outside) (run : Running) (hon : s.conn.phase.over = false) (hfresh : s.conn.phase.Fresh) :
    ∃ up a s', a.ends = true ∧ step o run up a s = some s' := by
  have hread : ∀ {s'}, read_nothing o run TIMEOUT s = some s' →
      ∃ up a s', a.ends = true ∧ step o run up a s = some s' :=
    fun h => ⟨true, .nothing TIMEOUT, _, rfl, step_nothing h⟩
  cases hphase : s.conn.phase with
  | ended =>
    rw [hphase] at hon
    cases hon
  | sending text next => exact ⟨true, .sent 0 false, _, rfl, by unfold step; rw [hphase]⟩
  | looking cancelled => exact ⟨true, .lost [], _, rfl, by unfold step; rw [hphase]⟩
  | connecting address left failures => exact ⟨true, .trouble [] true, _, rfl, by unfold step; rw [hphase]⟩
  | asking => exact ⟨true, .sent 0 false, _, rfl, by unfold step; rw [hphase]⟩
  | sniffing => exact hread (by rw [read_nothing, hphase])
  | heading reader all => exact hread (by rw [read_nothing, hphase])
  | greeting reader all => exact hread (by rw [read_nothing, hphase])
  | authenticating reader fed => exact hread (by rw [read_nothing, hphase])
  | requesting reader held => exact hread (by rw [read_nothing, hphase])
  | closing reads => exact hread (by rw [read_nothing, hphase])
  | answering head => exact hread (by rw [read_nothing, hphase])
  | tunnel t =>
    rw [hphase] at hfresh
    obtain ⟨up, a, p, hends, hp⟩ := tunnel_ends run s hfresh
    refine ⟨up, a, settle p, hends, ?_⟩
    rw [step_tunnel hphase (by rintro rfl; exact absurd hends nofun), hp]
    rfl

end Cosmic.RelayServer
