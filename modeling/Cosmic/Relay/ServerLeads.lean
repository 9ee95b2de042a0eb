/-
What a connection's task does to the counts, and how far it still is from its end.

Whatever a wait's answer makes of a connection, the counts of the others stay, and it is admitted at most
once. The rank of its next wait is bounded by what was read: a wait before the tunnel is answered with a
lower one.
-/
import Cosmic.Relay.ServerStep
import Cosmic.Relay.SocksAgree
import Mathlib.Data.Prod.Lex

set_option autoImplicit false

namespace Cosmic.RelayServer

open Cosmic.Base List
open Cosmic.Wire
open Cosmic.RelayAddress (Answer)

/-! ## The counts -/

/-- The connection's task has ended. -/
def Phase.over : Phase → Bool
  | .ended => true
  | _ => false

/-- The connection is in the count of those that have not authenticated. -/
def Conn.is_pending (c : Conn) : Bool := c.slot.pre_auth && !c.phase.over

def Conn.is_open (c : Conn) : Bool := c.slot.admitted && !c.phase.over

def count_of (b : Bool) : ℤ := if b then 1 else 0

/-- A connection is in the count that its admission says. -/
def Conn.Placed (c : Conn) : Prop :=
  (c.over_ = none ∧ c.slot = ⟨true, false⟩) ∨ (c.over_.isSome = true ∧ c.slot = ⟨false, true⟩)

/-! ## The rank of a wait -/

def Pump.rank : Pump → ℕ
  | .done => 0
  | .alerting => 1
  | .reading => 2
  | .sending _ => 3

/-- How far a wait is from the connection's end: a stage, and what is left in it. -/
def Phase.rank (cap : ℤ) : Phase → ℕ ×ₗ ℕ
  | .sniffing => toLex (14, 0)
  | .greeting _ all => toLex (13, cap.toNat - all.length)
  | .sending _ (.chosen _) => toLex (12, 0)
  | .authenticating reader _ => toLex (11, 513 - reader.held.length)
  | .sending _ (.passed _) => toLex (10, 0)
  | .heading _ all => toLex (9, cap.toNat - all.length)
  | .requesting _ held => toLex (9, cap.toNat - held.length)
  | .looking _ => toLex (8, 0)
  | .connecting _ left _ => toLex (7, left.length)
  | .asking => toLex (6, 0)
  | .answering head => toLex (5, 16385 - head.length)
  | .sending _ .tunnel => toLex (4, 0)
  | .tunnel t => toLex (3, t.up.rank + t.down.rank)
  | .sending _ (.refuse _) => toLex (2, 1)
  | .sending _ .close => toLex (2, 0)
  | .closing reads => toLex (1, reads)
  | .ended => toLex (0, 0)

/-- The reader of a wait has decided nothing, and a direction of a tunnel waits. -/
def Phase.Fresh : Phase → Prop
  | .authenticating reader _ => reader.final = none
  | .tunnel t => t.up.rank + t.down.rank ≠ 0 ∧ t.down ≠ .alerting
  | _ => True

/-- How a relay that stops has each connection: its lookup cancelled, and closed where it is served. -/
def Conn.Calm (c : Conn) : Prop :=
  match c.phase with
  | .looking cancelled => cancelled = true
  | .sending _ .tunnel => c.client_open = false ∧ c.far_open = false
  | .tunnel _ => c.client_open = false ∧ c.far_open = false
  | _ => True

variable {run : Running} {s s' : At} {r : ℕ ×ₗ ℕ}

def Conn.rank (run : Running) (c : Conn) : ℕ ×ₗ ℕ := c.phase.rank run.limits.header_bytes

/-- What a connection's task does leaves the counts of the others as they are, admits it at most once,
within the caps where it is not refused, and leads to a wait of at most the rank. -/
structure Leads (run : Running) (r : ℕ ×ₗ ℕ) (s s' : At) : Prop where
  pending : s'.counts.pending - count_of s'.conn.is_pending = s.counts.pending - count_of s.conn.is_pending
  open_ : s'.counts.open_ - count_of s'.conn.is_open = s.counts.open_ - count_of s.conn.is_open
  accepted : s'.counts.accepted - count_of s'.conn.over_.isSome = s.counts.accepted - count_of s.conn.over_.isSome
  stopping : s'.counts.stopping = s.counts.stopping
  placed : s'.conn.Placed
  admitted : s'.conn.over_ = s.conn.over_ ∧ s'.conn.slot = s.conn.slot ∨
    s.conn.over_ = none ∧ ∃ why, s'.conn.over_ = some why ∧ (why = [] → s'.counts.accepted ≤ run.limits.total ∧
      (s'.conn.phase.over = false → s'.counts.open_ ≤ run.limits.connections))
  closed : s'.conn.phase.over = true → s'.conn.client_open = false ∧ s'.conn.far_open = false
  fresh : s'.conn.phase.Fresh
  calm : s.counts.stopping = true → s'.conn.Calm ∧ s'.conn.seen.told = s.conn.seen.told
  rank : s'.conn.rank run ≤ r

/-- A connection whose task has not ended, and that is in the count it is to be in. -/
structure Live (s : At) : Prop where
  on : s.conn.phase.over = false
  placed : s.conn.Placed

/-- Nothing of the counts or of where the connection stands in them is changed. -/
structure Same (s s' : At) : Prop where
  pending : s'.counts.pending = s.counts.pending
  open_ : s'.counts.open_ = s.counts.open_
  accepted : s'.counts.accepted = s.counts.accepted
  stopping : s'.counts.stopping = s.counts.stopping
  slot : s'.conn.slot = s.conn.slot
  over_ : s'.conn.over_ = s.conn.over_
  told : s'.conn.seen.told = s.conn.seen.told

theorem Same.refl (s : At) : Same s s := ⟨rfl, rfl, rfl, rfl, rfl, rfl, rfl⟩

theorem Same.live (h : Same s s') (hs : Live s) (hon : s'.conn.phase.over = false) : Live s' where
  on := hon
  placed := by
    unfold Conn.Placed
    rw [h.slot, h.over_]
    exact hs.placed

theorem Same.leads (h : Same s s') (hs : Live s) (hon : s'.conn.phase.over = false)
    (hfresh : s'.conn.phase.Fresh) (hcalm : s.counts.stopping = true → s'.conn.Calm)
    (hrank : s'.conn.rank run ≤ r) : Leads run r s s' where
  pending := by
    rw [h.pending, Conn.is_pending, Conn.is_pending, h.slot, hon, hs.on]
  open_ := by
    rw [h.open_, Conn.is_open, Conn.is_open, h.slot, hon, hs.on]
  accepted := by
    rw [h.accepted, h.over_]
  stopping := h.stopping
  placed := (h.live hs hon).placed
  admitted := .inl ⟨h.over_, h.slot⟩
  closed := fun hover => absurd (hon.symm.trans hover) nofun
  fresh := hfresh
  calm := fun hstopping => ⟨hcalm hstopping, h.told⟩
  rank := hrank

theorem Same.then {s₁ : At} (h : Same s s₁) (hon : s₁.conn.phase.over = s.conn.phase.over)
    (h' : Leads run r s₁ s') : Leads run r s s' where
  pending := by
    rw [h'.pending, h.pending, Conn.is_pending, Conn.is_pending, h.slot, hon]
  open_ := by
    rw [h'.open_, h.open_, Conn.is_open, Conn.is_open, h.slot, hon]
  accepted := by
    rw [h'.accepted, h.accepted, h.over_]
  stopping := h'.stopping.trans h.stopping
  placed := h'.placed
  admitted := by
    rw [← h.over_, ← h.slot]
    exact h'.admitted
  closed := h'.closed
  fresh := h'.fresh
  calm := by
    rw [← h.stopping, ← h.told]
    exact h'.calm
  rank := h'.rank

theorem Leads.le {r' : ℕ ×ₗ ℕ} (h : Leads run r s s') (hle : r ≤ r') : Leads run r' s s' :=
  { h with rank := h.rank.trans hle }

theorem leads_wait (hs : Live s) {phase : Phase} (hon : phase.over = false) (hfresh : phase.Fresh)
    (hcalm : s.counts.stopping = true → (s.wait phase).conn.Calm)
    (hrank : phase.rank run.limits.header_bytes ≤ r) : Leads run r s (s.wait phase) :=
  Same.leads ⟨rfl, rfl, rfl, rfl, rfl, rfl, rfl⟩ hs hon hfresh hcalm hrank

theorem stage_le {m n i j : ℕ} (h : m < n) : toLex (m, i) ≤ toLex (n, j) := Prod.Lex.le_iff.mpr (.inl h)

theorem stage_lt {m n i j : ℕ} (h : m < n) : toLex (m, i) < toLex (n, j) := Prod.Lex.lt_iff.mpr (.inl h)

theorem left_lt {n i j : ℕ} (h : i < j) : toLex (n, i) < toLex (n, j) := Prod.Lex.lt_iff.mpr (.inr ⟨rfl, h⟩)

theorem rank_zero_le : toLex (0, 0) ≤ r := by
  refine Prod.Lex.le_iff.mpr ?_
  rcases Nat.eq_zero_or_pos (ofLex r).1 with h | h
  · exact .inr ⟨h.symm, Nat.zero_le _⟩
  · exact .inl h

theorem leads_finish (hs : Live s) : Leads run r s (finish s) := by
  have hnot : (finish s).conn.is_pending = false ∧ (finish s).conn.is_open = false :=
    ⟨Bool.and_false _, Bool.and_false _⟩
  refine ⟨?_, ?_, ?_, ?_, hs.placed, .inl ⟨rfl, rfl⟩, fun _ => ⟨rfl, rfl⟩, trivial,
    fun _ => ⟨trivial, rfl⟩, rank_zero_le⟩
  · rw [hnot.1, Conn.is_pending, hs.on]
    unfold finish
    rcases hs.placed with ⟨-, hslot⟩ | ⟨-, hslot⟩
    · rw [hslot]
      exact Int.sub_zero _
    · rw [hslot]
      rfl
  · rw [hnot.2, Conn.is_open, hs.on]
    unfold finish
    rcases hs.placed with ⟨-, hslot⟩ | ⟨-, hslot⟩
    · rw [hslot]
      rfl
    · rw [hslot]
      exact Int.sub_zero _
  · unfold finish
    rcases hs.placed with ⟨-, hslot⟩ | ⟨-, hslot⟩
    · rw [hslot]
      rfl
    · rw [hslot]
      rfl
  · unfold finish
    rcases hs.placed with ⟨-, hslot⟩ | ⟨-, hslot⟩
    · rw [hslot]
      rfl
    · rw [hslot]
      rfl

theorem leads_reject (hs : Live s) (why : Refusal) (replied : Bool) :
    Leads run (toLex (2, 0)) s (reject why replied s) := by
  have hsame : Same s s.refuses := ⟨rfl, rfl, rfl, rfl, rfl, rfl, rfl⟩
  refine hsame.then rfl ?_
  have hlive := hsame.live hs hs.on
  unfold reject
  dsimp only
  split
  · split
    · split
      · exact leads_wait hlive rfl trivial (fun _ => trivial) le_rfl
      · exact leads_finish hlive
    · exact leads_wait hlive rfl trivial (fun _ => trivial) le_rfl
  · exact leads_wait hlive rfl trivial (fun _ => trivial) (stage_le Nat.one_lt_two)

theorem Leads.trans {s₁ : At} {r₁ : ℕ ×ₗ ℕ} (h : Leads run r₁ s s₁) (hlive : Live s₁) (h' : Leads run r s₁ s') :
    Leads run r s s' where
  pending := h'.pending.trans h.pending
  open_ := h'.open_.trans h.open_
  accepted := h'.accepted.trans h.accepted
  stopping := h'.stopping.trans h.stopping
  placed := h'.placed
  admitted := by
    rcases h'.admitted with ⟨hover, hslot⟩ | ⟨hnone, hlater⟩
    · rcases h.admitted with ⟨hover', hslot'⟩ | ⟨hnone, why, hwhy, hcaps⟩
      · exact .inl ⟨hover.trans hover', hslot.trans hslot'⟩
      refine .inr ⟨hnone, why, hover.trans hwhy, fun hempty => ?_⟩
      obtain ⟨htotal, hopen⟩ := hcaps hempty
      have haccepted := h'.accepted
      rw [hover] at haccepted
      refine ⟨by omega, fun hon => ?_⟩
      have hsame := h'.open_
      rw [Conn.is_open, Conn.is_open, hslot, hon, hlive.on] at hsame
      have hle := hopen hlive.on
      omega
    · rcases h.admitted with ⟨hover', -⟩ | ⟨-, why, hwhy, -⟩
      · exact .inr ⟨hover'.symm.trans hnone, hlater⟩
      · exact absurd (hwhy.symm.trans hnone) nofun
  closed := h'.closed
  fresh := h'.fresh
  calm := by
    intro hstopping
    obtain ⟨hcalm, htold⟩ := h'.calm (h.stopping.trans hstopping)
    exact ⟨hcalm, htold.trans (h.calm hstopping).2⟩
  rank := h'.rank

/-! ## Admission -/

theorem over_cap_empty {limits : HeldLimits} {counts : Counts} (h : over_cap limits counts = []) :
    counts.accepted ≤ limits.total ∧ counts.open_ ≤ limits.connections := by
  unfold over_cap at h
  split at h
  · cases h
  · next htotal =>
    split at h
    · cases h
    · next hopen => exact ⟨not_lt.mp htotal, not_lt.mp hopen⟩

variable (run) in
theorem leads_admitted (hs : Live s) (hfresh : s.conn.phase.Fresh) (hcalm : s.counts.stopping = true → s.conn.Calm)
    (hover : s.conn.over_ = none) :
    Leads run (s.conn.rank run) s (admit_conn run.limits s) ∧ Live (admit_conn run.limits s) := by
  have hslot : s.conn.slot = ⟨true, false⟩ := by
    rcases hs.placed with ⟨-, hslot⟩ | ⟨hsome, -⟩
    · exact hslot
    · rw [hover] at hsome
      cases hsome
  have hplaced : (admit_conn run.limits s).conn.Placed := .inr ⟨rfl, rfl⟩
  have hon : (admit_conn run.limits s).conn.phase.over = false := hs.on
  refine ⟨⟨?_, ?_, ?_, rfl, hplaced, .inr ⟨hover, _, rfl, fun hempty => ?_⟩, ?_, hfresh,
    fun hstopping => ⟨hcalm hstopping, rfl⟩, le_rfl⟩, hon, hplaced⟩
  · have hcounts : (admit_conn run.limits s).counts.pending = s.counts.pending - 1 := by
      unfold admit_conn
      rw [hslot]
      rfl
    have hout : (admit_conn run.limits s).conn.is_pending = false := Bool.false_and _
    rw [hcounts, hout, Conn.is_pending, hslot, hs.on]
    exact Int.sub_zero _
  · have hout : (admit_conn run.limits s).conn.is_open = true := by
      rw [Conn.is_open, hon]
      rfl
    rw [hout, Conn.is_open, hslot, hs.on]
    show s.counts.open_ + 1 - 1 = s.counts.open_ - 0
    omega
  · rw [hover]
    show s.counts.accepted + 1 - 1 = s.counts.accepted - 0
    omega
  · obtain ⟨htotal, hopen⟩ := over_cap_empty hempty
    exact ⟨htotal, fun _ => hopen⟩
  · intro hended
    exact absurd (hon.symm.trans hended) nofun

theorem leads_authenticated {f : At → At} (hs : Live s) (hfresh : s.conn.phase.Fresh)
    (hcalm : s.counts.stopping = true → s.conn.Calm) (password : Bytes)
    (h : ∀ s₁, Live s₁ → s₁.conn.phase = s.conn.phase → Leads run r s₁ (f s₁)) :
    Leads run r s (f (authenticated run password s)) := by
  have hsame : Same s (s.sees fun seen => { seen with password := some password }) :=
    ⟨rfl, rfl, rfl, rfl, rfl, rfl, rfl⟩
  have hlive := hsame.live hs hs.on
  unfold authenticated
  cases hover : s.conn.over_ with
  | none =>
    obtain ⟨hleads, hlive'⟩ := leads_admitted run hlive hfresh hcalm hover
    exact hsame.then rfl (hleads.trans hlive' (h _ hlive' rfl))
  | some why => exact hsame.then rfl (h _ hlive rfl)

/-! ## Connecting -/

theorem leads_ask_connector (hs : Live s) (failures addresses : List Bytes) :
    Leads run (toLex (7, addresses.length - 1)) s (ask_connector run failures addresses s) := by
  cases addresses with
  | nil => exact leads_finish hs
  | cons address left => exact Same.leads ⟨rfl, rfl, rfl, rfl, rfl, rfl, rfl⟩ hs rfl trivial (fun _ => trivial) le_rfl

variable (run) in
theorem leads_not_connected (hs : Live s) (address : Bytes) (left failures : List Bytes) (why : Bytes) (late : Bool) :
    ∃ r < toLex (7, left.length), Leads run r s (not_connected run address left failures why late s) := by
  unfold not_connected
  cases left with
  | nil => exact ⟨toLex (2, 0), stage_lt (by decide), leads_reject hs _ true⟩
  | cons next left =>
    dsimp only
    split
    · exact ⟨toLex (2, 0), stage_lt (by decide), leads_reject hs _ true⟩
    · exact ⟨toLex (7, left.length), left_lt (Nat.lt_succ_self _), leads_ask_connector hs _ (next :: left)⟩

variable (run) in
theorem leads_choose (hs : Live s) (answers : List Answer) :
    ∃ r < toLex (8, 0), Leads run r s (choose run answers s) := by
  have hsame : Same s (s.sees fun seen => { seen with answers := some answers }) := ⟨rfl, rfl, rfl, rfl, rfl, rfl, rfl⟩
  have hlive := hsame.live hs hs.on
  unfold choose
  dsimp only
  split
  · exact ⟨toLex (0, 0), stage_lt (by decide), hsame.then rfl (leads_finish hlive)⟩
  · exact ⟨toLex (2, 0), stage_lt (by decide), hsame.then rfl (leads_reject hlive _ true)⟩
  · exact ⟨_, stage_lt (by decide), hsame.then rfl (leads_ask_connector hlive _ _)⟩

theorem leads_not_resolved (hs : Live s) (why : Bytes) : Leads run (toLex (2, 0)) s (not_resolved run why s) := by
  unfold not_resolved
  dsimp only
  split
  · exact leads_reject hs _ true
  · exact leads_reject hs _ true

theorem leads_resolve (hs : Live s) : Leads run (toLex (8, 0)) s (resolve run s) := by
  have hreject : ∀ why, Leads run (toLex (8, 0)) s (reject why true s) :=
    fun why => (leads_reject hs why true).le (stage_le (by decide))
  unfold resolve
  dsimp only
  split
  · obtain ⟨r, hr, hleads⟩ := leads_choose run hs _
    exact hleads.le hr.le
  · split
    · exact hreject _
    · split
      · exact hreject _
      · next hrunning => exact leads_wait hs rfl trivial (fun hstopping => absurd hstopping hrunning) le_rfl

theorem leads_decide_request (hs : Live s) : Leads run (toLex (8, 0)) s (decide_request run s) := by
  have hreject : ∀ why, Leads run (toLex (8, 0)) s (reject why true s) :=
    fun why => (leads_reject hs why true).le (stage_le (by decide))
  unfold decide_request
  split
  · exact hreject _
  split
  · exact hreject _
  split
  · exact hreject _
  split
  · exact hreject _
  · split
    · exact hreject _
    · split
      · exact (leads_ask_connector hs _ _).le (stage_le (by decide))
      · exact leads_resolve hs

theorem leads_refused {n i : ℕ} (hs : Live s) (why : Refusal) (replied : Bool) (hn : 2 < n) :
    Leads run (toLex (n, i)) s (reject why replied s) :=
  (leads_reject hs why replied).le (stage_le hn)

theorem leads_serve (hs : Live s) (first : Bytes) : Leads run (toLex (4, 0)) s (serve first s) := by
  unfold serve
  split
  · exact leads_finish hs
  · next hrunning =>
    have hcalm : ∀ {p : Prop}, s.counts.stopping = true → p := fun hstopping => absurd hstopping hrunning
    have hwait : ∀ text, Leads run (toLex (4, 0)) s (s.wait (.sending text .tunnel)) :=
      fun _ => leads_wait hs rfl trivial hcalm le_rfl
    exact { hwait _ with calm := hcalm }

theorem leads_connected (hs : Live s) : Leads run (toLex (6, 0)) s (connected run s) := by
  let s₁ : At := { (s.sees fun seen => { seen with made := true }) with
    conn := { (s.sees fun seen => { seen with made := true }).conn with far_open := true } }
  have hsame : Same s s₁ := ⟨rfl, rfl, rfl, rfl, rfl, rfl, rfl⟩
  have hlive : Live s₁ := hsame.live hs hs.on
  refine hsame.then rfl ?_
  unfold connected
  dsimp only
  split
  · exact (leads_serve hlive []).le (stage_le (by decide))
  · exact leads_wait hlive rfl trivial (fun _ => trivial) le_rfl

theorem leads_not_through (hs : Live s) (why : Bytes) : Leads run (toLex (2, 0)) s (not_through why s) := by
  have hsame : Same s { s with conn := { s.conn with far_open := false } } := ⟨rfl, rfl, rfl, rfl, rfl, rfl, rfl⟩
  exact hsame.then rfl (leads_reject (hsame.live hs hs.on) _ true)

theorem leads_sees {f : Seen → Seen} (hs : Live s) (h : Live (s.sees f) → Leads run r (s.sees f) s')
    (htold : ∀ seen, (f seen).told = seen.told) : Leads run r s s' := by
  have hsame : Same s (s.sees f) := ⟨rfl, rfl, rfl, rfl, rfl, rfl, htold _⟩
  exact hsame.then rfl (h (hsame.live hs hs.on))

variable (run) in
/-- Every read of an upstream's answer comes nearer to its end. -/
theorem leads_answer_data (hs : Live s) (head : Bytes) {b : Bytes} (hb : b ≠ []) :
    ∃ r < toLex (5, 16385 - head.length), Leads run r s (answer_data head b s) := by
  have hpos := length_pos_of_ne_nil hb
  unfold answer_data
  split
  · next hmore =>
    have hshort : (head ++ b).length ≤ 16384 := by
      unfold upstream_answer at hmore
      split at hmore
      · split at hmore
        · cases hmore
        · split at hmore
          · cases hmore
          · cases hmore
      · split at hmore
        · cases hmore
        · omega
    rw [length_append] at hshort
    refine ⟨toLex (5, 16385 - (head ++ b).length), left_lt ?_, leads_sees hs (fun hs => leads_wait hs rfl trivial (fun _ => trivial) le_rfl) fun _ => rfl⟩
    rw [length_append]
    omega
  · exact ⟨toLex (2, 0), stage_lt (by decide), leads_sees hs (fun hs => leads_not_through hs _) fun _ => rfl⟩
  · exact ⟨toLex (4, 0), stage_lt (by decide), leads_sees hs (fun hs => leads_serve hs _) fun _ => rfl⟩

/-! ## Requests -/

variable {o : Outside}

theorem leads_asks (hs : Live s) (host : Bytes) (kind : Kind) (port : ℕ) (rest : Bytes) :
    Leads run (toLex (8, 0)) s (decide_request run (s.asks host kind port rest)) := by
  have hsame : Same s (s.asks host kind port rest) := ⟨rfl, rfl, rfl, rfl, rfl, rfl, rfl⟩
  exact hsame.then rfl (leads_decide_request (hsame.live hs hs.on))

theorem leads_connect_asked (hs : Live s) (hfresh : s.conn.phase.Fresh)
    (hcalm : s.counts.stopping = true → s.conn.Calm) (head : Connect) (rest : Bytes) :
    Leads run (toLex (8, 0)) s (connect_asked o run head rest s) := by
  unfold connect_asked
  split
  · exact leads_refused hs _ _ (by decide)
  extract_lets asked
  have hasked : ∀ s, Live s → Leads run (toLex (8, 0)) s (asked s) := by
    intro s hs
    dsimp only [asked]
    split
    · exact leads_asks hs _ _ _ rest
    · exact leads_refused hs _ true (by decide)
  split
  · exact hasked s hs
  split
  · exact leads_refused hs _ true (by decide)
  split
  · exact leads_authenticated hs hfresh hcalm _ fun s₁ hs₁ _ => hasked s₁ hs₁
  · exact leads_refused hs _ true (by decide)

variable (run) in
theorem leads_head_fed (hs : Live s) (hfresh : s.conn.phase.Fresh) (hcalm : s.counts.stopping = true → s.conn.Calm)
    (reader : Reading) (all : Bytes) {data : Bytes} (hdata : data ≠ []) : ∃ r < toLex (9, run.limits.header_bytes.toNat - all.length),
      Leads run r s (head_fed o run reader all data s) := by
  have hpos := length_pos_of_ne_nil hdata
  have hasked : ∀ head rest, ∃ r < toLex (9, run.limits.header_bytes.toNat - all.length),
      Leads run r s (connect_asked o run head rest s) :=
    fun head rest => ⟨_, stage_lt (by decide), leads_connect_asked hs hfresh hcalm head rest⟩
  unfold head_fed
  dsimp only
  split
  · exact hasked _ _
  · split
    · exact hasked _ _
    · exact hasked _ _
  · split
    · exact hasked _ _
    · next hroom =>
      refine ⟨toLex (9, run.limits.header_bytes.toNat - (all ++ data).length), left_lt ?_,
        leads_wait hs rfl trivial (fun _ => trivial) le_rfl⟩
      rw [length_append] at hroom ⊢
      omega

theorem leads_socks_unread (hs : Live s) (authing : Bool) (limit : ℤ) (why : Bytes) :
    Leads run (toLex (2, 0)) s (socks_unread authing limit why s) := by
  unfold socks_unread
  exact leads_reject hs _ false

variable (run) in
theorem leads_request_fed (hs : Live s) (reader : Held SocksRequest) (held : Bytes) {data : Bytes} (hdata : data ≠ []) :
    ∃ r < toLex (9, run.limits.header_bytes.toNat - held.length), Leads run r s (request_fed run reader held data s) := by
  have hpos := length_pos_of_ne_nil hdata
  have hreject : ∀ why, ∃ r < toLex (9, run.limits.header_bytes.toNat - held.length),
      Leads run r s (reject why true s) :=
    fun why => ⟨_, stage_lt (by decide), leads_reject hs why true⟩
  unfold request_fed
  dsimp only
  split
  · exact hreject _
  · split
    · exact ⟨_, stage_lt (by decide), leads_asks hs _ _ _ _⟩
    · exact hreject _
  · split
    · exact hreject _
    · next hroom =>
      refine ⟨toLex (9, run.limits.header_bytes.toNat - (held ++ data).length), left_lt ?_,
        leads_wait hs rfl trivial (fun _ => trivial) le_rfl⟩
      rw [length_append] at hroom ⊢
      omega

theorem leads_request_begins (hs : Live s) (rest : Bytes) :
    Leads run (toLex (9, run.limits.header_bytes.toNat)) s (request_begins run rest s) := by
  unfold request_begins
  split
  · exact leads_wait hs rfl trivial (fun _ => trivial) le_rfl
  · next hrest =>
    obtain ⟨r, hr, hleads⟩ := leads_request_fed run hs socks_request_reader.start [] hrest
    exact hleads.le hr.le

theorem read_auth_more {buf : Bytes} (h : (read_auth buf).status = .more) : buf.length < 513 := by
  have hbyte : ∀ k, (Wire.byte_at buf k).toNat < 256 := fun k => UInt8.toNat_lt _
  have h₁ := hbyte 2
  have h₂ := hbyte (3 + (Wire.byte_at buf 2).toNat)
  unfold read_auth at h
  dsimp only at h
  split at h
  · omega
  split at h
  · cases h
  split at h
  · omega
  split at h
  · cases h
  split at h
  · omega
  split at h
  · cases h
  split at h
  · omega
  · cases h

theorem auth_reader_more {reader : Held SocksAuth} {data : Bytes} (hfinal : reader.final = none)
    (h : (socks_auth_reader.feed reader data).2.status = .more) :
    (socks_auth_reader.feed reader data).1.held = reader.held ++ data ∧
      (socks_auth_reader.feed reader data).1.final = none ∧ (reader.held ++ data).length < 513 := by
  have hfeed : socks_auth_reader.feed reader data =
      if (read_auth (reader.held ++ data)).status != .more then
        (⟨[], some (read_auth (reader.held ++ data))⟩, read_auth (reader.held ++ data))
      else ({ reader with held := reader.held ++ data }, read_auth (reader.held ++ data)) := by
    unfold socks_auth_reader small_reader
    dsimp only
    rw [hfinal]
  rw [hfeed] at h ⊢
  split at h
  · next hdecided => exact absurd h (bne_iff_ne.mp hdecided)
  · next hmore =>
    rw [if_neg hmore]
    exact ⟨rfl, hfinal, read_auth_more h⟩

variable (run) in
theorem leads_auth_fed (hs : Live s) (digest : Bytes) {reader : Held SocksAuth} (hfinal : reader.final = none)
    (fed : Bytes) {data : Bytes} (hdata : data ≠ []) :
    ∃ r < toLex (11, 513 - reader.held.length), Leads run r s (auth_fed o digest reader fed data s) := by
  have hpos := length_pos_of_ne_nil hdata
  unfold auth_fed
  dsimp only
  split
  · next hmore =>
    obtain ⟨hheld, hfresh, hshort⟩ := auth_reader_more hfinal hmore
    refine ⟨toLex (11, 513 - (reader.held ++ data).length), left_lt ?_, leads_wait hs rfl hfresh (fun _ => trivial) ?_⟩
    · rw [length_append] at hshort ⊢
      omega
    · show toLex (11, 513 - (socks_auth_reader.feed reader data).1.held.length) ≤ _
      rw [hheld]
  · exact ⟨toLex (2, 1), stage_lt (by decide), leads_wait hs rfl trivial (fun _ => trivial) le_rfl⟩
  · split
    · exact ⟨toLex (10, 0), stage_lt (by decide), leads_sees hs (fun hs => leads_wait hs rfl trivial (fun _ => trivial) le_rfl) fun _ => rfl⟩
    · exact ⟨toLex (2, 1), stage_lt (by decide), leads_wait hs rfl trivial (fun _ => trivial) le_rfl⟩

theorem leads_chosen_method (hs : Live s) (rest : Bytes) :
    Leads run (toLex (11, 513)) s (chosen_method o run rest s) := by
  unfold chosen_method
  split
  · exact (leads_request_begins hs rest).le (stage_le (by decide))
  · split
    · exact leads_wait hs rfl rfl (fun _ => trivial) le_rfl
    · next hrest =>
      obtain ⟨r, hr, hleads⟩ := leads_auth_fed run hs _ (rfl : socks_auth_reader.start.final = none) [] hrest
      exact hleads.le hr.le

variable (run) in
theorem leads_greeting_fed (hs : Live s) (reader : Held SocksGreeting) (all : Bytes) {data : Bytes} (hdata : data ≠ []) :
    ∃ r < toLex (13, run.limits.header_bytes.toNat - all.length), Leads run r s (greeting_fed run reader all data s) := by
  have hpos := length_pos_of_ne_nil hdata
  have hreject : ∀ why, ∃ r < toLex (13, run.limits.header_bytes.toNat - all.length),
      Leads run r s (reject why false s) :=
    fun why => ⟨_, stage_lt (by decide), leads_reject hs why false⟩
  have hrefuse : ∀ text why, ∃ r < toLex (13, run.limits.header_bytes.toNat - all.length),
      Leads run r s (s.wait (.sending text (.refuse why))) :=
    fun text why => ⟨toLex (2, 1), stage_lt (by decide), leads_wait hs rfl trivial (fun _ => trivial) le_rfl⟩
  unfold greeting_fed
  dsimp only
  split
  · split
    · exact hreject _
    · next hroom =>
      refine ⟨toLex (13, run.limits.header_bytes.toNat - (all ++ data).length), left_lt ?_,
        leads_wait hs rfl trivial (fun _ => trivial) le_rfl⟩
      rw [length_append] at hroom ⊢
      omega
  · split
    · exact hrefuse _ _
    · exact hreject _
  · split
    · exact hrefuse _ _
    · exact ⟨toLex (12, 0), stage_lt (by decide), leads_wait hs rfl trivial (fun _ => trivial) le_rfl⟩

variable (run) in
theorem leads_sniffed (hs : Live s) (hfresh : s.conn.phase.Fresh) (hcalm : s.counts.stopping = true → s.conn.Calm)
    {data : Bytes} (hdata : data ≠ []) :
    ∃ r < toLex (14, 0), Leads run r s (sniffed o run data s) := by
  have hsame : ∀ protocol, Same s { s with conn := { s.conn with protocol } } :=
    fun _ => ⟨rfl, rfl, rfl, rfl, rfl, rfl, rfl⟩
  unfold sniffed
  split
  · obtain ⟨r, hr, hleads⟩ := leads_greeting_fed run ((hsame .socks5).live hs hs.on)
      (socks_greeting_reader run.token_digest.isSome).start [] hdata
    exact ⟨r, hr.trans (stage_lt (by decide)), (hsame .socks5).then rfl hleads⟩
  · obtain ⟨r, hr, hleads⟩ := leads_head_fed run ((hsame .connect).live hs hs.on) hfresh hcalm
      connect_reader.start [] hdata
    exact ⟨r, hr.trans (stage_lt (by decide)), (hsame .connect).then rfl hleads⟩

end Cosmic.RelayServer
