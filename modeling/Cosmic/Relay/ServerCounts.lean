/-
The counts of a running relay are those of its connections, in every state a run reaches.

Each event keeps it: a loop counts the connection it takes, an answer moves one connection from the count
it is in to the next, and `stop` moves none. A connection is held to the caps as it is admitted, when it
is counted already.
-/
import Cosmic.Relay.ServerTurns

set_option autoImplicit false

namespace Cosmic.RelayServer

open Cosmic.Base List Option Bool
open Cosmic.Wire

variable {o : Outside} {run : Running}

def Conn.is_served (c : Conn) : Bool := c.over_ == some [] && !c.phase.over

def Conn.was_served (c : Conn) : Bool := c.over_ == some []

/-- What the counts are, and where each connection stands. -/
structure Tracked (run : Running) (s : Sys) : Prop where
  pending : s.counts.pending = s.conns.countP Conn.is_pending
  open_ : s.counts.open_ = s.conns.countP Conn.is_open
  accepted : s.counts.accepted = s.conns.countP fun c => c.over_.isSome
  connections : (s.conns.countP Conn.is_served : ℤ) ≤ run.limits.connections
  total : (s.conns.countP Conn.was_served : ℤ) ≤ run.limits.total
  placed : ∀ c ∈ s.conns, c.Placed
  fresh : ∀ c ∈ s.conns, c.phase.Fresh
  closed : ∀ c ∈ s.conns, c.phase.over = true → c.client_open = false ∧ c.far_open = false
  calm : s.counts.stopping = true → ∀ c ∈ s.conns, c.Calm
  tokenless : run.token_digest = none → ∀ c ∈ s.conns, c.over_.isSome = true

/-! ## Counting -/

variable {p : Conn → Bool} {l : List Conn} {i : ℕ} {c : Conn}

theorem count_set (h : l[i]? = some c) (c' : Conn) :
    ((l.set i c').countP p : ℤ) - count_of (p c') = l.countP p - count_of (p c) := by
  obtain ⟨hi, hc⟩ := List.getElem?_eq_some_iff.mp h
  have hset := countP_set (p := p) (l := l) (i := i) (a := c') hi
  have hpos : p c = true → 0 < l.countP p := fun hp =>
    countP_pos_iff.mpr ⟨c, mem_of_getElem? h, hp⟩
  rw [hc] at hset
  rw [hset]
  unfold count_of
  cases hp : p c with
  | true =>
    have hpos := hpos hp
    cases p c' with
    | true => simp; omega
    | false => simp; omega
  | false =>
    cases p c' with
    | true => simp
    | false => simp

theorem count_append (p : Conn → Bool) (l : List Conn) (c : Conn) :
    ((l ++ [c]).countP p : ℤ) = l.countP p + count_of (p c) := by
  rw [countP_append, countP_singleton]
  cases p c with
  | true => rfl
  | false => rfl

variable {c' : Conn}

theorem forall_set {P : Conn → Prop} (h : ∀ c ∈ l, P c) (hc' : P c') : ∀ c ∈ l.set i c', P c := by
  intro c hc
  rcases mem_or_eq_of_mem_set hc with hmem | rfl
  · exact h c hmem
  · exact hc'

theorem forall_append {P : Conn → Prop} (h : ∀ c ∈ l, P c) (hc' : P c') : ∀ c ∈ l ++ [c'], P c := by
  intro c hc
  rcases mem_append.mp hc with hmem | hmem
  · exact h c hmem
  · rwa [mem_singleton.mp hmem]

theorem Conn.Placed.open_of_served (h : c.Placed) (hserved : c.is_served = true) : c.is_open = true := by
  obtain ⟨hover, hon⟩ := and_eq_true_iff.mp hserved
  rcases h with ⟨hnone, -⟩ | ⟨-, hslot⟩
  · rw [hnone] at hover
    cases hover
  · rwa [Conn.is_open, hslot]

theorem Conn.some_of_served (h : c.was_served = true) : c.over_.isSome = true := by
  rw [eq_of_beq h]
  rfl

theorem served_le_open (h : ∀ c ∈ l, c.Placed) : l.countP Conn.is_served ≤ l.countP Conn.is_open :=
  countP_mono_left fun c hc => (h c hc).open_of_served

theorem served_le_accepted (l : List Conn) : l.countP Conn.was_served ≤ l.countP fun c => c.over_.isSome :=
  countP_mono_left fun _ _ => Conn.some_of_served

/-! ## One event -/

theorem first_phase_rest (run : Running) (protocol : Protocol) :
    (first_phase run protocol).over = false ∧ (first_phase run protocol).Fresh ∧
      ∀ c : Conn, c.phase = first_phase run protocol → c.Calm := by
  unfold Conn.Calm
  cases protocol with
  | mixed => exact ⟨rfl, trivial, fun c h => by rw [h]; trivial⟩
  | connect => exact ⟨rfl, trivial, fun c h => by rw [h]; trivial⟩
  | socks5 => exact ⟨rfl, trivial, fun c h => by rw [h]; trivial⟩

theorem take_pending (h : run.token_digest.isSome = true) (protocol : Protocol) (counts : Counts) :
    (take run protocol counts).counts = { counts with pending := counts.pending + 1 } ∧
      (take run protocol counts).conn = { arrived run protocol with slot := ⟨true, false⟩ } := by
  unfold take
  rw [if_pos h]
  exact ⟨rfl, rfl⟩

theorem take_open {protocol : Protocol} {counts : Counts} (h : ¬run.token_digest.isSome = true) :
    take run protocol counts = admit_conn run.limits ⟨counts, arrived run protocol⟩ := by
  unfold take
  rw [if_neg h]

variable {s : Sys}

theorem tracked_accept (h : Tracked run s) (protocol : Protocol) (loops : List (Protocol × LoopPhase)) :
    Tracked run ⟨(take run protocol s.counts).counts, loops, s.conns ++ [(take run protocol s.counts).conn]⟩ := by
  obtain ⟨hon, hfresh, hcalm⟩ := first_phase_rest run protocol
  by_cases htoken : run.token_digest.isSome = true
  · obtain ⟨hcounts, hconn⟩ := take_pending htoken protocol s.counts
    rw [hcounts, hconn]
    have hpending : Conn.is_pending { arrived run protocol with slot := ⟨true, false⟩ } = true := by
      show (true && !(first_phase run protocol).over) = true
      rw [hon]
      rfl
    constructor
    · rw [count_append, hpending, h.pending]
      rfl
    · rw [count_append, h.open_]
      exact (Int.add_zero _).symm
    · rw [count_append, h.accepted]
      exact (Int.add_zero _).symm
    · rw [count_append]
      exact (Int.add_zero _).le.trans h.connections
    · rw [count_append]
      exact (Int.add_zero _).le.trans h.total
    · exact forall_append h.placed (.inl ⟨rfl, rfl⟩)
    · exact forall_append h.fresh hfresh
    · exact forall_append h.closed fun hover => absurd (hon.symm.trans hover) nofun
    · exact fun hstopping => forall_append (h.calm hstopping) (hcalm _ rfl)
    · intro hnone
      rw [hnone] at htoken
      cases htoken
  · rw [take_open htoken]
    let s' := admit_conn run.limits ⟨s.counts, arrived run protocol⟩
    have hopen : s'.conn.is_open = true := by
      show (true && !(first_phase run protocol).over) = true
      rw [hon]
      rfl
    have hplaced : ∀ c ∈ s.conns ++ [s'.conn], c.Placed := forall_append h.placed (.inr ⟨rfl, rfl⟩)
    have hcounts : s'.counts.open_ = (s.conns ++ [s'.conn]).countP Conn.is_open := by
      rw [count_append, hopen, ← h.open_]
      rfl
    have haccepted : s'.counts.accepted = (s.conns ++ [s'.conn]).countP fun c => c.over_.isSome := by
      rw [count_append, ← h.accepted]
      rfl
    constructor
    · rw [count_append, ← h.pending]
      exact (Int.add_zero _).symm
    · exact hcounts
    · exact haccepted
    · show ((s.conns ++ [s'.conn]).countP Conn.is_served : ℤ) ≤ _
      cases hserved : s'.conn.is_served with
      | true =>
        -- it is within the caps, and every connection that is served is among the open ones
        obtain ⟨hover, -⟩ := and_eq_true_iff.mp hserved
        have hcaps := over_cap_empty (some.inj (eq_of_beq hover))
        have hle := served_le_open hplaced
        have hcap : s'.counts.open_ ≤ run.limits.connections := hcaps.2
        omega
      | false =>
        rw [count_append, hserved]
        exact (Int.add_zero _).le.trans h.connections
    · show ((s.conns ++ [s'.conn]).countP Conn.was_served : ℤ) ≤ _
      cases hserved : s'.conn.was_served with
      | true =>
        have hcaps := over_cap_empty (some.inj (eq_of_beq hserved))
        have hle := served_le_accepted (s.conns ++ [s'.conn])
        have hcap : s'.counts.accepted ≤ run.limits.total := hcaps.1
        omega
      | false =>
        rw [count_append, hserved]
        exact (Int.add_zero _).le.trans h.total
    · exact hplaced
    · exact forall_append h.fresh hfresh
    · exact forall_append h.closed fun hover => absurd (hon.symm.trans hover) nofun
    · exact fun hstopping => forall_append (h.calm hstopping) (hcalm _ rfl)
    · exact fun hnone => forall_append (h.tokenless hnone) rfl

theorem count_set_le {cap : ℤ} (hc : l[i]? = some c) (hp : p c' = true → p c = true) (hle : (l.countP p : ℤ) ≤ cap)
    : ((l.set i c').countP p : ℤ) ≤ cap := by
  have hcount := count_set (p := p) hc c'
  unfold count_of at hcount
  cases hc' : p c' with
  | true =>
    rw [hc', hp hc'] at hcount
    omega
  | false =>
    have hnonneg : 0 ≤ count_of (p c) := by
      unfold count_of
      split
      · exact Int.one_nonneg
      · exact le_rfl
    rw [hc'] at hcount
    have hzero : count_of false = 0 := rfl
    unfold count_of at hnonneg hzero
    omega

theorem tracked_answer {s' : At} {r : ℕ ×ₗ ℕ} (h : Tracked run s) (hc : s.conns[i]? = some c)
    (hon : c.phase.over = false) (hleads : Leads run r ⟨s.counts, c⟩ s') :
    Tracked run { s with counts := s'.counts, conns := s.conns.set i s'.conn } := by
  have hplaced : ∀ c ∈ s.conns.set i s'.conn, c.Placed := forall_set h.placed hleads.placed
  have hpending : s'.counts.pending = (s.conns.set i s'.conn).countP Conn.is_pending := by
    have hset := count_set (p := Conn.is_pending) hc s'.conn
    have hchange := hleads.pending
    have hbefore := h.pending
    dsimp only at hchange
    omega
  have hopen : s'.counts.open_ = (s.conns.set i s'.conn).countP Conn.is_open := by
    have hset := count_set (p := Conn.is_open) hc s'.conn
    have hchange := hleads.open_
    have hbefore := h.open_
    dsimp only at hchange
    omega
  have haccepted : s'.counts.accepted = (s.conns.set i s'.conn).countP fun c => c.over_.isSome := by
    have hset := count_set (p := fun c => c.over_.isSome) hc s'.conn
    have hchange := hleads.accepted
    have hbefore := h.accepted
    dsimp only at hchange hset
    omega
  have hsome : s'.conn.over_ = c.over_ ∨ ∃ why, s'.conn.over_ = some why := by
    rcases hleads.admitted with ⟨hover, -⟩ | ⟨-, why, hwhy, -⟩
    · exact .inl hover
    · exact .inr ⟨why, hwhy⟩
  refine ⟨hpending, hopen, haccepted, ?_, ?_, hplaced, forall_set h.fresh hleads.fresh,
    forall_set h.closed hleads.closed, ?_, ?_⟩
  · rcases hleads.admitted with ⟨hover, -⟩ | ⟨-, why, hwhy, hcaps⟩
    · refine count_set_le hc (fun hserved => ?_) h.connections
      obtain ⟨hover', -⟩ := and_eq_true_iff.mp hserved
      rw [hover] at hover'
      exact and_eq_true_iff.mpr ⟨hover', by rw [hon]; rfl⟩
    · by_cases hserved : s'.conn.is_served = true
      · -- it was admitted within the caps, and every connection that is served is among the open ones
        obtain ⟨hover, hon'⟩ := and_eq_true_iff.mp hserved
        rw [hwhy] at hover
        have hcap := (hcaps (some.inj (eq_of_beq hover))).2 ((not_eq_true' _).mp hon')
        have hle := served_le_open hplaced
        dsimp only at hopen ⊢
        omega
      · exact count_set_le hc (fun hserved' => absurd hserved' hserved) h.connections
  · rcases hleads.admitted with ⟨hover, -⟩ | ⟨-, why, hwhy, hcaps⟩
    · refine count_set_le hc (fun hserved => ?_) h.total
      rwa [Conn.was_served, hover] at hserved
    · by_cases hserved : s'.conn.was_served = true
      · have hover := eq_of_beq hserved
        rw [hwhy] at hover
        have hcap := (hcaps (some.inj hover)).1
        have hle := served_le_accepted (s.conns.set i s'.conn)
        dsimp only at haccepted ⊢
        omega
      · exact count_set_le hc (fun hserved' => absurd hserved' hserved) h.total
  · intro hstopping
    have hbefore := hleads.stopping.symm.trans hstopping
    exact forall_set (h.calm hbefore) (hleads.calm hbefore).1
  · intro hnone
    refine forall_set (h.tokenless hnone) ?_
    rcases hsome with hover | ⟨why, hwhy⟩
    · rw [hover]
      exact h.tokenless hnone c (mem_of_getElem? hc)
    · rw [hwhy]
      rfl

theorem stopped_over (c : Conn) : (stopped c).phase.over = c.phase.over := by
  unfold stopped
  cases c.phase with
  | looking cancelled => rfl
  | _ => rfl

theorem stopped_calm (c : Conn) : (stopped c).Calm := by
  unfold stopped Conn.Calm
  cases c.phase with
  | looking cancelled => rfl
  | sending text next =>
    cases next with
    | tunnel => exact ⟨rfl, rfl⟩
    | _ => trivial
  | tunnel t => exact ⟨rfl, rfl⟩
  | _ => trivial

theorem stopped_fresh (h : c.phase.Fresh) : (stopped c).phase.Fresh := by
  unfold stopped
  cases hphase : c.phase with
  | looking cancelled => trivial
  | _ =>
    rwa [hphase] at h

theorem count_stopped (h : ∀ c, p (stopped c) = p c) (l : List Conn) : (l.map stopped).countP p = l.countP p := by
  rw [countP_map]
  exact countP_congr fun c _ => by rw [Function.comp_apply, h]

theorem tracked_stop (h : Tracked run s) :
    Tracked run { s with counts := { s.counts with stopping := true }, conns := s.conns.map stopped } := by
  have hall : ∀ {P : Conn → Prop}, (∀ c ∈ s.conns, P (stopped c)) → ∀ c ∈ s.conns.map stopped, P c := by
    intro P hP c hc
    obtain ⟨c', hc', rfl⟩ := mem_map.mp hc
    exact hP c' hc'
  constructor
  · rw [count_stopped fun c => by rw [Conn.is_pending, Conn.is_pending, stopped_over]; rfl]
    exact h.pending
  · rw [count_stopped fun c => by rw [Conn.is_open, Conn.is_open, stopped_over]; rfl]
    exact h.open_
  · rw [count_stopped fun _ => rfl]
    exact h.accepted
  · rw [count_stopped fun c => by rw [Conn.is_served, Conn.is_served, stopped_over]; rfl]
    exact h.connections
  · rw [count_stopped fun _ => rfl]
    exact h.total
  · exact hall fun c hc => h.placed c hc
  · exact hall fun c hc => stopped_fresh (h.fresh c hc)
  · exact hall fun _ _ _ => ⟨rfl, rfl⟩
  · exact fun _ => hall fun c _ => stopped_calm c
  · exact fun hnone => hall fun c hc => h.tokenless hnone c hc

/-! ## A run -/

theorem step_cases {s' : Sys} {e : Event} (h : s.step o run e = some s') : (∃ j protocol loops, e = .accept j ∧
      s' = ⟨(take run protocol s.counts).counts, loops, s.conns ++ [(take run protocol s.counts).conn]⟩) ∨
    (∃ loops, (∀ i up a, e ≠ .answer i up a) ∧ s' = { s with loops }) ∨
    (∃ i up a c s₁, e = .answer i up a ∧ s.conns[i]? = some c ∧ step o run up a ⟨s.counts, c⟩ = some s₁ ∧
      s' = { s with counts := s₁.counts, conns := s.conns.set i s₁.conn }) ∨
    (e = .stop ∧ s' = { s with counts := { s.counts with stopping := true }, conns := s.conns.map stopped }) := by
  cases e with
  | accept j =>
    obtain ⟨⟨protocol, phase⟩, -, h⟩ := bind_eq_some_iff.mp h
    dsimp only at h
    split at h
    · exact .inl ⟨j, protocol, _, rfl, (some.inj h).symm⟩
    · cases h
  | accept_failed j cancelled =>
    obtain ⟨⟨protocol, phase⟩, -, h⟩ := bind_eq_some_iff.mp h
    dsimp only at h
    split at h
    · exact .inr (.inl ⟨_, fun _ _ _ => nofun, (some.inj h).symm⟩)
    · cases h
  | woken j ok =>
    obtain ⟨⟨protocol, phase⟩, -, h⟩ := bind_eq_some_iff.mp h
    dsimp only at h
    split at h
    · exact .inr (.inl ⟨_, fun _ _ _ => nofun, (some.inj h).symm⟩)
    · cases h
  | answer i up a =>
    obtain ⟨c, hc, h⟩ := bind_eq_some_iff.mp h
    obtain ⟨s₁, hs₁, h⟩ := bind_eq_some_iff.mp h
    exact .inr (.inr (.inl ⟨i, up, a, c, s₁, rfl, hc, hs₁, (some.inj h).symm⟩))
  | stop => exact .inr (.inr (.inr ⟨rfl, (some.inj h).symm⟩))

theorem on_of_step {up : Bool} {a : Reply} {s s' : At} (h : step o run up a s = some s') :
    s.conn.phase.over = false := by
  cases hphase : s.conn.phase with
  | ended =>
    unfold step at h
    rw [hphase] at h
    cases h
  | _ => rfl

theorem tracked_step {s' : Sys} {e : Event} (h : Tracked run s) (hstep : s.step o run e = some s') :
    Tracked run s' := by
  rcases step_cases hstep with ⟨j, protocol, loops, -, rfl⟩ | ⟨loops, -, rfl⟩ | ⟨i, up, a, c, s₁, -, hc, hs₁, rfl⟩ | ⟨-, rfl⟩
  · exact tracked_accept h protocol loops
  · exact ⟨h.pending, h.open_, h.accepted, h.connections, h.total, h.placed, h.fresh, h.closed, h.calm, h.tokenless⟩
  · have hmem := mem_of_getElem? hc
    have hon := on_of_step hs₁
    obtain ⟨r, hleads, -⟩ := steps_step ⟨hon, h.placed c hmem⟩ (h.fresh c hmem) (fun hstopping => h.calm hstopping c hmem) hs₁
    exact tracked_answer h hc hon hleads
  · exact tracked_stop h

end Cosmic.RelayServer
