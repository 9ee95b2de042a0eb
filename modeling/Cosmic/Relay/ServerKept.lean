/-
What a running relay keeps: its counts and its caps, and what `stop` comes to.

The listeners of a relay with a token each test how many connections have not authenticated before they
wait, and count the one they take after it. So the cap on these holds in a run that takes each of them
below it, as one with a single listener does, and two listeners pass it. Everything else holds in every run.
-/
import Cosmic.Base.Fair
import Cosmic.Relay.ServerCounts

set_option autoImplicit false

namespace Cosmic.RelayServer

open Cosmic.Base List Option
open Cosmic.Wire

variable {o : Outside} {run : Running}

/-! ## One connection over a run -/

/-- Where a connection goes from the count it is in: it does not come back to one it left. -/
structure Leaves (c c' : Conn) : Prop where
  pending : c.is_pending = false → c'.is_pending = false
  over_ : c.over_.isSome = true → c'.over_ = c.over_
  ended : c.phase.over = true → c'.phase.over = true

theorem Leaves.refl (c : Conn) : Leaves c c := ⟨id, fun _ => rfl, id⟩

theorem leaves_answer {s s' : At} {r : ℕ ×ₗ ℕ} (hs : Live s) (hleads : Leads run r s s') : Leaves s.conn s'.conn where
  pending := by
    intro hpending
    rcases hs.placed with ⟨-, hslot⟩ | ⟨hsome, hslot⟩
    · rw [Conn.is_pending, hslot, hs.on] at hpending
      cases hpending
    · rcases hleads.admitted with ⟨-, hslot'⟩ | ⟨hnone, -⟩
      · rw [Conn.is_pending, hslot', hslot]
        rfl
      · rw [hnone] at hsome
        cases hsome
  over_ := by
    intro hsome
    rcases hleads.admitted with ⟨hover, -⟩ | ⟨hnone, -⟩
    · exact hover
    · rw [hnone] at hsome
      cases hsome
  ended := fun hover => absurd (hs.on.symm.trans hover) nofun

/-- The rank of the connection `i`, where it was taken. -/
def Sys.rank (run : Running) (i : ℕ) (s : Sys) : ℕ ×ₗ ℕ :=
  match s.conns[i]? with
  | some c => c.rank run
  | none => toLex (0, 0)

/-- Whether the event answers the wait of the connection `i`. -/
def Event.answers (i : ℕ) : Event → Prop
  | .answer j _ _ => j = i
  | _ => False

/-- What an event makes of a connection: it leaves no count twice, and once the relay stops it is told of
nothing new, and no wait of a higher rank follows. -/
structure Goes (run : Running) (i : ℕ) (s : Sys) (e : Event) (c c' : Conn) : Prop where
  leaves : Leaves c c'
  told : s.counts.stopping = true → c'.seen.told = c.seen.told
  rank : s.counts.stopping = true → c'.rank run ≤ c.rank run
  lower : s.counts.stopping = true → e.answers i → c'.rank run < c.rank run

theorem stopped_rank (c : Conn) : (stopped c).rank run = c.rank run := by
  unfold stopped Conn.rank
  cases c.phase with
  | looking cancelled => rfl
  | _ => rfl

theorem goes_stopped (i : ℕ) (s : Sys) (c : Conn) : Goes run i s .stop c (stopped c) where
  leaves := by
    refine ⟨fun h => ?_, fun _ => rfl, fun h => (stopped_over c).trans h⟩
    rwa [Conn.is_pending, stopped_over]
  told := fun _ => rfl
  rank := fun _ => (stopped_rank c).le
  lower := fun _ hanswers => absurd hanswers id

theorem step_goes {s s' : Sys} {e : Event} (h : Tracked run s) (hstep : s.step o run e = some s') {i : ℕ} {c : Conn}
    (hc : s.conns[i]? = some c) : ∃ c', s'.conns[i]? = some c' ∧ Goes run i s e c c' := by
  have hsame : ¬e.answers i → Goes run i s e c c := fun hnot =>
    ⟨Leaves.refl c, fun _ => rfl, fun _ => le_rfl, fun _ hanswers => absurd hanswers hnot⟩
  rcases step_cases hstep with ⟨j, protocol, loops, rfl, rfl⟩ | ⟨loops, hother, rfl⟩ | ⟨j, up, a, c₁, s₁, rfl, hc₁, hs₁, rfl⟩ |
    ⟨rfl, rfl⟩
  · exact ⟨c, getElem?_append_left (List.getElem?_eq_some_iff.mp hc).1 ▸ hc, hsame id⟩
  · refine ⟨c, hc, hsame ?_⟩
    cases e with
    | answer j up a => exact absurd rfl (hother j up a)
    | _ => exact id
  · by_cases hij : j = i
    · obtain rfl := hij
      obtain rfl := some.inj (hc.symm.trans hc₁)
      have hmem := mem_of_getElem? hc
      have hlive : Live ⟨s.counts, c⟩ := ⟨on_of_step hs₁, h.placed c hmem⟩
      obtain ⟨r, hleads, hless⟩ := steps_step hlive (h.fresh c hmem) (fun hstopping => h.calm hstopping c hmem) hs₁
      refine ⟨s₁.conn, getElem?_set_self (List.getElem?_eq_some_iff.mp hc).1, leaves_answer hlive hleads, ?_, ?_, ?_⟩
      · exact fun hstopping => (hleads.calm hstopping).2
      · exact fun hstopping => hleads.rank.trans (hless hstopping).le
      · exact fun hstopping _ => hleads.rank.trans_lt (hless hstopping)
    · exact ⟨c, (getElem?_set_ne hij).trans hc, hsame hij⟩
  · refine ⟨stopped c, ?_, goes_stopped i s c⟩
    rw [getElem?_map, hc]
    rfl

theorem step_untold {s s' : Sys} {e : Event} (h : Tracked run s) (hstep : s.step o run e = some s')
    (hstopping : s.counts.stopping = true) {i : ℕ} {c' : Conn} (hc' : s'.conns[i]? = some c')
    (htold : c'.seen.told = true) : ∃ c, s.conns[i]? = some c ∧ c.seen.told = true := by
  cases hc : s.conns[i]? with
  | some c =>
    obtain ⟨c'', hc'', hgoes⟩ := step_goes h hstep hc
    obtain rfl := some.inj (hc'.symm.trans hc'')
    exact ⟨c, rfl, (hgoes.told hstopping).symm.trans htold⟩
  | none =>
    have hnew : s.conns.length ≤ i := List.getElem?_eq_none_iff.mp hc
    rcases step_cases hstep with ⟨j, protocol, loops, -, rfl⟩ | ⟨loops, -, rfl⟩ | ⟨j, up, a, c₁, s₁, -, -, -, rfl⟩ |
      ⟨-, rfl⟩
    · rw [getElem?_append_right hnew] at hc'
      have hmem := mem_singleton.mp (mem_of_getElem? hc')
      have htaken : (take run protocol s.counts).conn.seen.told = false := by
        unfold take
        split
        · rfl
        · rfl
      rw [hmem, htaken] at htold
      cases htold
    · exact absurd (hc'.symm.trans hc) nofun
    · rw [getElem?_eq_none (by rw [length_set]; exact hnew)] at hc'
      cases hc'
    · rw [getElem?_eq_none (by rw [length_map]; exact hnew)] at hc'
      cases hc'

theorem step_stopping {s s' : Sys} {e : Event} (h : Tracked run s) (hstep : s.step o run e = some s')
    (hstopping : s.counts.stopping = true) : s'.counts.stopping = true := by
  rcases step_cases hstep with ⟨j, protocol, loops, -, rfl⟩ | ⟨loops, -, rfl⟩ | ⟨j, up, a, c, s₁, -, hc, hs₁, rfl⟩ |
    ⟨-, rfl⟩
  · unfold take
    split
    · exact hstopping
    · exact hstopping
  · exact hstopping
  · have hmem := mem_of_getElem? hc
    obtain ⟨r, hleads, -⟩ := steps_step ⟨on_of_step hs₁, h.placed c hmem⟩ (h.fresh c hmem)
      (fun hstopping => h.calm hstopping c hmem) hs₁
    exact hleads.stopping.trans hstopping
  · rfl

theorem ends_after_stop (g : Endless fun s e => Sys.step o run s e) {i n : ℕ} {c : Conn}
    (h : Tracked run (g.state n)) (hstopping : (g.state n).counts.stopping = true)
    (hfair : ∀ m c, (g.state m).conns[i]? = some c → c.phase.over = false → ∃ k, (g.event (m + k)).answers i)
    (hc : (g.state n).conns[i]? = some c) :
    ∃ k c', (g.state (n + k)).conns[i]? = some c' ∧ c'.phase.over = true := by
  -- what the run keeps once the relay stops; the rank of the connection's wait falls with each answer
  let Inv : Sys → Prop := fun s => Tracked run s ∧ s.counts.stopping = true ∧ ∃ c, s.conns[i]? = some c
  have hgoes : ∀ s e s', Inv s → s.step o run e = some s' → ∃ c c', s.conns[i]? = some c ∧ s'.conns[i]? = some c' ∧
      Goes run i s e c c' := by
    rintro s e s' ⟨htracked, -, c, hc⟩ hstep
    obtain ⟨c', hc', hgoes⟩ := step_goes htracked hstep hc
    exact ⟨c, c', hc, hc', hgoes⟩
  have hrank : ∀ {s : Sys} {c}, s.conns[i]? = some c → s.rank run i = c.rank run := by
    intro s c hc
    rw [Sys.rank, hc]
  refine g.done (Sys.rank run i) Inv (fun s => ∃ c, s.conns[i]? = some c ∧ c.phase.over = true) (Event.answers i)
    ?_ ?_ ?_ ?_ ⟨h, hstopping, c, hc⟩
  · intro s e s' hinv hstep
    obtain ⟨c, c', -, hc', -⟩ := hgoes s e s' hinv hstep
    exact ⟨tracked_step hinv.1 hstep, step_stopping hinv.1 hstep hinv.2.1, c', hc'⟩
  · intro s e s' hinv hstep
    obtain ⟨c, c', hc, hc', hgoes⟩ := hgoes s e s' hinv hstep
    rw [hrank hc, hrank hc']
    exact hgoes.rank hinv.2.1
  · intro s e s' hinv hanswers hstep
    obtain ⟨c, c', hc, hc', hgoes⟩ := hgoes s e s' hinv hstep
    rw [hrank hc, hrank hc']
    exact hgoes.lower hinv.2.1 hanswers
  · rintro m ⟨-, -, c, hc⟩ hdone
    refine hfair m c hc ?_
    cases hover : c.phase.over with
    | true => exact absurd ⟨c, hc, hover⟩ hdone
    | false => rfl

/-! ## What is kept -/

structure Stops (o : Outside) (run : Running) (s : Sys) : Prop where
  /-- Every lookup is cancelled, and every connection that was told of success closed. -/
  calm : ∀ c ∈ s.conns, c.Calm
  /-- No connection is served from here on. -/
  untold : ∀ e s', s.step o run e = some s' → ∀ (i : ℕ) c', s'.conns[i]? = some c' → c'.seen.told = true →
    ∃ c, s.conns[i]? = some c ∧ c.seen.told = true
  /-- Each wait can end by itself, and a connection whose waits are answered ends, one taken later too. -/
  waits : ∀ c ∈ s.conns, c.phase.over = false → ∃ up a s', a.ends = true ∧ step o run up a ⟨s.counts, c⟩ = some s'
  ends : ∀ g : Endless fun s e => Sys.step o run s e, g.state 0 = s → ∀ i,
    (∀ m c, (g.state m).conns[i]? = some c → c.phase.over = false → ∃ k, (g.event (m + k)).answers i) →
    ∀ n c, (g.state n).conns[i]? = some c → ∃ k c', (g.state (n + k)).conns[i]? = some c' ∧ c'.phase.over = true

/-- The counts and the caps of a running relay. -/
structure Kept (o : Outside) (run : Running) (s : Sys) : Prop where
  /-- The connections that have neither authenticated nor ended, and those admitted and not ended. -/
  pending : s.counts.pending = s.conns.countP Conn.is_pending
  open_ : s.counts.open_ = s.conns.countP Conn.is_open
  accepted : s.counts.accepted = s.conns.countP fun c => c.over_.isSome
  nonneg : 0 ≤ s.counts.pending ∧ 0 ≤ s.counts.open_
  placed : ∀ c ∈ s.conns, c.Placed
  tokenless : run.token_digest = none → ∀ c ∈ s.conns, c.over_.isSome = true
  /-- A connection leaves each count once. -/
  leaves : ∀ e s', s.step o run e = some s' → ∀ (i : ℕ) c, s.conns[i]? = some c →
    ∃ c', s'.conns[i]? = some c' ∧ Leaves c c'
  connections : (s.conns.countP Conn.is_served : ℤ) ≤ run.limits.connections
  total : (s.conns.countP Conn.was_served : ℤ) ≤ run.limits.total
  pre_auth : run.token_digest.isSome = true → (s.conns.countP Conn.is_pending : ℤ) ≤ run.limits.pre_auth
  /-- A task that ends closes both sockets, and `stop` closes all there are. -/
  ended : ∀ c ∈ s.conns, c.phase.over = true → c.client_open = false ∧ c.far_open = false
  stop : ∀ s', s.step o run .stop = some s' → s'.counts.stopping = true ∧
    ∀ c ∈ s'.conns, c.client_open = false ∧ c.far_open = false
  stops : s.counts.stopping = true → Stops o run s

/-- A loop takes a connection while fewer than `limits.pre_auth` have not authenticated, where there is a
token. -/
def Room (run : Running) (s : Sys) (e : Event) : Prop :=
  ∀ j, e = .accept j → run.token_digest.isSome = true → s.counts.pending < run.limits.pre_auth

/-! ## A run -/

variable {listeners : List Protocol} {meets : Sys → Event → Prop} {s : Sys}

theorem tracked_begin {spec : Spec} (hstart : Started o spec run) (listeners : List Protocol) :
    Tracked run (begin run listeners) := by
  -- nothing is taken yet
  have hnone : ∀ {P : Conn → Prop}, ∀ c ∈ (begin run listeners).conns, P c :=
    fun c hc => absurd hc not_mem_nil
  constructor
  · rfl
  · rfl
  · rfl
  · exact (Int.le_of_lt hstart.connections)
  · exact (Int.le_of_lt hstart.total)
  · exact hnone
  · exact hnone
  · exact hnone
  · exact fun _ => hnone
  · exact fun _ => hnone

theorem tracked_reached {spec : Spec} (hstart : Started o spec run) (h : Reached o run listeners meets s) :
    Tracked run s := by
  induction h with
  | begin => exact tracked_begin hstart listeners
  | step _ _ hstep ih => exact tracked_step ih hstep

theorem pending_reached {spec : Spec} (hstart : Started o spec run) (htoken : run.token_digest.isSome = true)
    (h : Reached o run listeners (Room run) s) : s.counts.pending ≤ run.limits.pre_auth := by
  induction h with
  | begin => exact Int.le_of_lt hstart.pre_auth
  | @step s s' e h hroom hstep ih =>
    rcases step_cases hstep with ⟨j, protocol, loops, rfl, rfl⟩ | ⟨loops, -, rfl⟩ | ⟨i, up, a, c, s₁, -, hc, hs₁, rfl⟩ |
      ⟨-, rfl⟩
    · rw [(take_pending htoken protocol _).1]
      exact hroom j rfl htoken
    · exact ih
    · -- a connection that authenticates or ends leaves the count, and none comes back to it
      have htracked := tracked_reached hstart h
      have hmem := mem_of_getElem? hc
      have hlive : Live ⟨s.counts, c⟩ := ⟨on_of_step hs₁, htracked.placed c hmem⟩
      obtain ⟨r, hleads, -⟩ := steps_step hlive (htracked.fresh c hmem)
        (fun hstopping => htracked.calm hstopping c hmem) hs₁
      have hchange := hleads.pending
      have hleaves := (leaves_answer hlive hleads).pending
      dsimp only at hchange hleaves ⊢
      unfold count_of at hchange
      cases hpending : c.is_pending with
      | true =>
        split at hchange
        · omega
        · omega
      | false =>
        rw [hpending, hleaves hpending] at hchange
        omega
    · exact ih

theorem stops_of_tracked {s : Sys} (h : Tracked run s) (hstopping : s.counts.stopping = true) : Stops o run s where
  calm := h.calm hstopping
  untold := fun _ _ hstep _ _ hc' htold => step_untold h hstep hstopping hc' htold
  waits := fun c hc hon => step_ends o run hon (h.fresh c hc)
  ends := by
    rintro g rfl i hfair n c hc
    -- what holds as it stops holds of every later state
    let Inv : Sys → Prop := fun s => Tracked run s ∧ s.counts.stopping = true
    have hkeep : ∀ s e s', Inv s → Sys.step o run s e = some s' → Inv s' :=
      fun s e s' hinv hstep => ⟨tracked_step hinv.1 hstep, step_stopping hinv.1 hstep hinv.2⟩
    have hinv : Inv (g.state n) := by
      have hlater := g.keeps hkeep ⟨h, hstopping⟩ n
      rwa [Nat.zero_add] at hlater
    exact ends_after_stop g hinv.1 hinv.2 hfair hc

/-! ## A relay that takes one connection at a time -/

/-- A spec whose relay takes one connection at a time that has not authenticated. -/
def one_at_a_time : Spec :=
  { grants := [], unresolved := none, own_addresses := [], upstream := none, tls_ports := none
    timeouts := ⟨none, none, none, none, none⟩
    limits := { connections := none, header_bytes := none, total := none, pre_auth := some 1 }
    token := some (lit "0123456789abcdef") }

/-- The hash of its token. -/
def its_digest : Bytes :=
  [159, 159, 81, 17, 247, 178, 122, 120, 31, 31, 29, 221, 229, 235, 194, 221, 43, 121, 107, 252, 115, 101, 201, 194, 139, 84, 142, 86, 65, 118, 146, 159]

def its_outside : Outside := { sha256 := fun given => if given = lit "0123456789abcdef" then its_digest else []
                               unbase64 := fun _ => none }

def its_relay : Running :=
  { spec := one_at_a_time, names := [], own := [], timeouts := DEFAULT_TIMEOUTS
    limits := { DEFAULT_LIMITS with pre_auth := 1 }, tls_ports := DEFAULT_TLS_PORTS, token_digest := some its_digest }

theorem one_at_a_time_starts : start its_outside one_at_a_time = .ok its_relay := by
  rfl

/-- The counts and the caps of a relay are kept in every run that takes each connection below the cap on
those that have not authenticated. -/
theorem counts_kept {spec : Spec} (hstart : start o spec = .ok run) (h : Reached o run listeners (Room run) s) :
    Kept o run s := by
  have hstarted := start_ok hstart
  have htracked := tracked_reached hstarted h
  constructor
  · exact htracked.pending
  · exact htracked.open_
  · exact htracked.accepted
  · rw [htracked.pending, htracked.open_]
    exact ⟨Int.natCast_nonneg _, Int.natCast_nonneg _⟩
  · exact htracked.placed
  · exact htracked.tokenless
  · intro e s' hstep i c hc
    obtain ⟨c', hc', hgoes⟩ := step_goes htracked hstep hc
    exact ⟨c', hc', hgoes.leaves⟩
  · exact htracked.connections
  · exact htracked.total
  · intro htoken
    rw [← htracked.pending]
    exact pending_reached hstarted htoken h
  · exact htracked.closed
  · intro s' hstep
    cases hstep
    refine ⟨rfl, fun c hc => ?_⟩
    obtain ⟨c', -, rfl⟩ := mem_map.mp hc
    exact ⟨rfl, rfl⟩
  · exact stops_of_tracked htracked

/-- One listener takes a connection, and the relay stops while its first byte is waited for. -/
theorem counts_kept_one : Kept its_outside its_relay
      ⟨{ stopping := true, pending := 1, open_ := 0, accepted := 0, refused := 0 }, [(.mixed, .delaying)],
        [{ arrived its_relay .mixed with slot := ⟨true, false⟩, client_open := false }]⟩ := by
  have htaken : Reached its_outside its_relay [.mixed] (Room its_relay) _ :=
    .step (e := .accept 0) .begin (fun _ _ _ => by decide) rfl
  exact counts_kept one_at_a_time_starts (.step (e := .stop) htaken (fun _ h => absurd h nofun) rfl)

/-- Two listeners are both in their accept, and each takes a connection. -/
def both_taken : Sys :=
  ⟨{ stopping := false, pending := 2, open_ := 0, accepted := 0, refused := 0 },
    [(.mixed, .delaying), (.mixed, .delaying)],
    [{ arrived its_relay .mixed with slot := ⟨true, false⟩ }, { arrived its_relay .mixed with slot := ⟨true, false⟩ }]⟩

/-- The cap on connections that have not authenticated is passed by one for each listener but the first. -/
theorem counts_not_kept_two : start its_outside one_at_a_time = .ok its_relay ∧
      Reached its_outside its_relay [.mixed, .mixed] (fun _ _ => True) both_taken ∧
      ¬Kept its_outside its_relay both_taken := by
  refine ⟨rfl, .step (e := .accept 1) (.step (e := .accept 0) .begin trivial rfl) trivial rfl, fun h => ?_⟩
  have hpassed : ((2 : ℕ) : ℤ) ≤ 1 := h.pre_auth rfl
  cases hpassed

end Cosmic.RelayServer
