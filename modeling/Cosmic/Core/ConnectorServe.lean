/-
The connects in flight at a wake.

They are a list whose settled entries are taken out by moving the last into their place, while it is
scanned downward by the poll array taken before. The scan settles those that are due, each by its own
outcome, and leaves the others.
-/
import Cosmic.Core.ConnectorAuthority
import Mathlib.Data.List.Forall2
import Mathlib.Data.List.Perm.Basic

set_option autoImplicit false

namespace Cosmic.Connector

open Cosmic.Base List

/-! ## The connects in flight -/

theorem swap_remove {α : Type} (s : List α) (a d : α) (t : List α) :
    ∃ t', (((s ++ a :: t).set s.length ((s ++ a :: t).getLastD d)).dropLast = s ++ t') ∧ t'.Perm t := by
  rcases eq_nil_or_concat t with rfl | ⟨u, b, rfl⟩
  · refine ⟨[], ?_, List.Perm.refl _⟩
    rw [set_append_right _ _ le_rfl, Nat.sub_self, set_cons_zero, dropLast_concat, append_nil]
  rw [concat_eq_append]
  refine ⟨b :: u, ?_, (perm_append_singleton b u).symm⟩
  have hlast : (s ++ a :: (u ++ [b])).getLastD d = b := by
    rw [show s ++ a :: (u ++ [b]) = (s ++ a :: u) ++ [b] by simp, getLastD_concat]
  rw [hlast, set_append_right _ _ le_rfl, Nat.sub_self, set_cons_zero,
    show s ++ b :: (u ++ [b]) = (s ++ b :: u) ++ [b] by simp, dropLast_concat]

/-- A connect in flight that a wake finds ready or past its deadline. -/
def due (w : Wake) (f : Flight) : Bool := w.ready f.fd || w.after < 0 || f.deadline ≤ w.after

/-- What a connect that is due comes to. -/
def outcome (w : Wake) (f : Flight) : ℕ :=
  if w.ready f.fd then w.so_error f.fd else if w.after < 0 then EIO else ETIMEDOUT

def settled (w : Wake) (f : Flight) : Reply :=
  connector_reply f.tag (outcome w f) (if outcome w f ≠ 0 then -1 else f.fd)

/-- Its events. -/
def settles (w : Wake) (f : Flight) : List Did := [.reply (settled w f), .close f.fd]

/-- The poll array of connects in flight. -/
def waits (w : Wake) (flights : List Flight) : List Waited := flights.map fun f => ⟨f.fd, w.ready f.fd⟩

section

variable {w : Wake} {st st' : State} {f : Flight} {s t flights : List Flight} {did : List Did}

theorem connector_settle_spec (hflight : st.flight = s ++ f :: t) (failure : ℕ) (taken : Bool) :
    (connector_settle st s.length failure taken = .error [.close f.fd]) ∨
      ∃ t', connector_settle st s.length failure taken = .ok ({ st with flight := s ++ t' },
          [.reply (connector_reply f.tag failure (if failure ≠ 0 then -1 else f.fd)), .close f.fd]) ∧
        t'.Perm t := by
  obtain ⟨t', hmoved, hperm⟩ := swap_remove s f f t
  unfold connector_settle
  rw [hflight, getElem?_append_right le_rfl, Nat.sub_self, getElem?_cons_zero]
  dsimp only
  rw [hmoved]
  cases taken with
  | false => exact .inl rfl
  | true => exact .inr ⟨t', rfl, hperm⟩

theorem settle_round_spec {s' : List Flight} (hpolled : flights = s ++ f :: s') (hflight : st.flight = s ++ f :: t) :
    (due w f = true → settle_round w (waits w flights) st s.length = .error [.close f.fd] ∨
      ∃ t', settle_round w (waits w flights) st s.length =
        .ok ({ st with flight := s ++ t' }, settles w f) ∧ t'.Perm t) ∧
    (due w f = false → settle_round w (waits w flights) st s.length = .ok (st, [])) := by
  have hwaited : (waits w flights)[s.length]? = some ⟨f.fd, w.ready f.fd⟩ := by
    unfold waits
    rw [hpolled, map_append, map_cons, getElem?_append_right (by rw [length_map]),
      length_map, Nat.sub_self, getElem?_cons_zero]
  have hflying : st.flight[s.length]? = some f := by
    rw [hflight, getElem?_append_right le_rfl, Nat.sub_self, getElem?_cons_zero]
  unfold settle_round
  rw [hwaited, hflying]
  dsimp only
  unfold due settles settled outcome
  by_cases hready : w.ready f.fd = true
  · rw [if_pos hready, if_pos hready, hready, Bool.true_or, Bool.true_or]
    exact ⟨fun _ => connector_settle_spec hflight _ _, nofun⟩
  rw [if_neg hready, if_neg hready, Bool.eq_false_iff.mpr hready, Bool.false_or, Bool.or_eq_true,
    decide_eq_true_eq, decide_eq_true_eq, Bool.or_eq_false_iff, decide_eq_false_iff_not,
    decide_eq_false_iff_not, ← not_or]
  constructor
  · intro hpast
    rw [if_pos hpast]
    exact connector_settle_spec hflight _ _
  · intro hpast
    rw [if_neg hpast]

theorem settle_loop_spec {s' : List Flight} (hpolled : flights = s ++ s') (hflight : st.flight = s ++ t) :
    (∃ left, settle_loop w (waits w flights) s.length st =
        .ok ({ st with flight := left }, (s.filter (due w)).reverse.flatMap (settles w)) ∧
      left.Perm (s.filter (fun f => !due w f) ++ t)) ∨
    ∃ u f v, (s.filter (due w)).reverse = u ++ f :: v ∧
      settle_loop w (waits w flights) s.length st = .error (u.flatMap (settles w) ++ [.close f.fd]) := by
  induction s using reverseRecOn generalizing st t s' with
  | nil => exact .inl ⟨st.flight, rfl, hflight ▸ List.Perm.refl _⟩
  | append_singleton s f ih =>
    rw [append_assoc, singleton_append] at hpolled hflight
    obtain ⟨hdue, hstays⟩ := settle_round_spec hpolled hflight
    rw [length_append, length_singleton, settle_loop]
    cases hf : due w f with
    | false =>
      rw [hstays hf]
      dsimp only
      have hfilter : (s ++ [f]).filter (due w) = s.filter (due w) := by
        rw [filter_append, filter_cons_of_neg (by simp [hf]), filter_nil, append_nil]
      have hleft : (s ++ [f]).filter (fun f => !due w f) = s.filter (fun f => !due w f) ++ [f] := by
        rw [filter_append, filter_cons_of_pos (by simp [hf]), filter_nil]
      rw [hfilter, hleft, append_assoc, singleton_append]
      obtain ⟨left, hloop, hperm⟩ | ⟨u, f', v, hu, hloop⟩ := ih hpolled hflight
      · rw [hloop]
        exact .inl ⟨left, rfl, hperm⟩
      · rw [hloop]
        exact .inr ⟨u, f', v, hu, rfl⟩
    | true =>
      have hfilter : ((s ++ [f]).filter (due w)).reverse = f :: (s.filter (due w)).reverse := by
        rw [filter_append, filter_cons_of_pos hf, filter_nil, reverse_append]
        rfl
      have hleft : (s ++ [f]).filter (fun f => !due w f) = s.filter (fun f => !due w f) := by
        rw [filter_append, filter_cons_of_neg (by simp [hf]), filter_nil, append_nil]
      rw [hfilter, hleft]
      obtain hexit | ⟨t', hround, hperm'⟩ := hdue hf
      · rw [hexit]
        exact .inr ⟨[], f, _, rfl, rfl⟩
      rw [hround]
      dsimp only
      obtain ⟨left, hloop, hperm⟩ | ⟨u, f', v, hu, hloop⟩ := ih hpolled
        (show (State.mk (s ++ t') st.held st.memory).flight = s ++ t' from rfl)
      · rw [hloop]
        exact .inl ⟨left, rfl, hperm.trans (hperm'.append_left _)⟩
      · rw [hloop]
        exact .inr ⟨f :: u, f', v, by rw [hu, cons_append], rfl⟩

/-- The scan of all the connects in flight. -/
theorem settle_scan_spec (w : Wake) (st : State) : (∃ left, settle_loop w (waits w st.flight) st.flight.length st =
        .ok ({ st with flight := left }, (st.flight.filter (due w)).reverse.flatMap (settles w)) ∧
      left.Perm (st.flight.filter (fun f => !due w f))) ∨
    ∃ u f v, (st.flight.filter (due w)).reverse = u ++ f :: v ∧
      settle_loop w (waits w st.flight) st.flight.length st = .error (u.flatMap (settles w) ++ [.close f.fd]) := by
  have hwhole : st.flight = st.flight ++ [] := (append_nil _).symm
  have hscan := settle_loop_spec (w := w) hwhole hwhole
  rwa [append_nil] at hscan

end

/-!
What the connector's loop serves.

A run keeps a matching of the requests read with the replies given and the connects in flight: each
request has one of either. A descriptor that is passed, and one in flight, is that of a connect made for
its own request, which the request authorises.
-/

/-! ## Requests read and answered -/

def Asks (s : Bytes) (r : Request) : Prop :=
  ∃ blocks b, s = List.flatten blocks ++ b ∧ (∀ b' ∈ blocks, b'.length = CONNECTOR_REQUEST_BYTES) ∧
    b.length = CONNECTOR_REQUEST_BYTES ∧ r = connector_decode b

/-- The bytes are those of the requests, one after another, and the start of another. -/
def Asked (s : Bytes) (requests : List Request) (held : Bytes) : Prop :=
  ∃ blocks, s = List.flatten blocks ++ held ∧ (∀ b ∈ blocks, b.length = CONNECTOR_REQUEST_BYTES) ∧
    held.length < CONNECTOR_REQUEST_BYTES ∧ requests = blocks.map connector_decode

variable (plan : Plan) (endpoints : List Endpoint)

/-- Every connect is one that the request just read authorises. -/
def Within (did : List Did) : Prop :=
  ∀ pre fd p a post, did = pre ++ Did.connect fd p a :: post →
    ∃ r, Asks (reads pre) r ∧ Authorised plan endpoints r p a

/-- The descriptor was connected for the request. -/
def Made (did : List Did) (r : Request) (fd : ℤ) : Prop :=
  ∃ pre p a post, did = pre ++ Did.connect fd p a :: post ∧ Asks (reads pre) r ∧ Authorised plan endpoints r p a

/-- A reply to a request: its tag, and no descriptor but one connected for it. -/
def Replies (did : List Did) (r : Request) (a : Reply) : Prop :=
  a.tag = r.tag ∧ ∀ fd, a.fd = some fd → Made plan endpoints did r fd

def Flies (did : List Did) (r : Request) (f : Flight) : Prop :=
  f.tag = r.tag ∧ 0 ≤ f.deadline ∧ (0 ≤ f.fd → Made plan endpoints did r f.fd)

/-- Of the requests, each has a reply of its own or is one of the rest. -/
def Answered (did : List Did) (requests rest : List Request) : Prop :=
  ∃ done : List (Request × Reply), requests.Perm (done.map Prod.fst ++ rest) ∧
    (done.map Prod.snd).Perm (replies did) ∧ ∀ x ∈ done, Replies plan endpoints did x.1 x.2

/-- What holds while the loop serves: the requests read are answered, but for those whose connects are
in flight. -/
def Serves (did : List Did) (st : State) : Prop :=
  st.flight.length ≤ CONNECTOR_FLIGHT ∧ ∃ requests rest, Asked (reads did) requests st.held ∧
    Answered plan endpoints did requests rest ∧ Forall₂ (Flies plan endpoints did) rest st.flight

/-- What holds where it has ended: no request has more than a reply. -/
def Served (did : List Did) : Prop :=
  ∃ requests held rest, Asked (reads did) requests held ∧ Answered plan endpoints did requests rest

variable {plan endpoints} {did did' : List Did} {r : Request} {requests rest rest' : List Request}

theorem Made.more {fd : ℤ} (h : Made plan endpoints did r fd) (did' : List Did) :
    Made plan endpoints (did ++ did') r fd := by
  obtain ⟨pre, p, a, post, rfl, hasks, hauth⟩ := h
  exact ⟨pre, p, a, post ++ did', by simp, hasks, hauth⟩

theorem Replies.more {a : Reply} (h : Replies plan endpoints did r a) (did' : List Did) :
    Replies plan endpoints (did ++ did') r a :=
  ⟨h.1, fun fd hfd => (h.2 fd hfd).more did'⟩

theorem Flies.more {f : Flight} (h : Flies plan endpoints did r f) (did' : List Did) :
    Flies plan endpoints (did ++ did') r f :=
  ⟨h.1, h.2.1, fun hfd => (h.2.2 hfd).more did'⟩

theorem Flies.deadline {f : Flight} (h : Flies plan endpoints did r f) : 0 ≤ f.deadline := h.2.1

theorem Answered.more (h : Answered plan endpoints did requests rest) (news : List (Request × Reply))
    (hrest : rest.Perm (news.map Prod.fst ++ rest'))
    (hreplies : (news.map Prod.snd).Perm (replies did'))
    (hnews : ∀ x ∈ news, Replies plan endpoints (did ++ did') x.1 x.2) :
    Answered plan endpoints (did ++ did') requests rest' := by
  obtain ⟨done, hperm, hdone, hall⟩ := h
  refine ⟨done ++ news, ?_, ?_, ?_⟩
  · rw [map_append, append_assoc]
    exact hperm.trans (hrest.append_left _)
  · rw [map_append, replies_append]
    exact hdone.append hreplies
  · intro x hx
    rcases mem_append.mp hx with hx | hx
    · exact (hall x hx).more did'
    · exact hnews x hx

theorem Within.more (h : Within plan endpoints did)
    (h' : ∀ pre fd p a post, did' = pre ++ Did.connect fd p a :: post →
      ∃ r, Asks (reads did ++ reads pre) r ∧ Authorised plan endpoints r p a) :
    Within plan endpoints (did ++ did') := by
  intro pre fd p a post heq
  rcases append_eq_append_iff.mp heq with ⟨mid, rfl, hmid⟩ | ⟨mid, hmid, hpost⟩
  · rw [reads_append]
    exact h' mid fd p a post hmid
  cases mid with
  | nil =>
    rw [append_nil] at hmid
    obtain ⟨r, hasks, hauth⟩ := h' [] fd p a post hpost.symm
    have hnil : reads [] = [] := rfl
    rw [hnil, append_nil, hmid] at hasks
    exact ⟨r, hasks, hauth⟩
  | cons d mid =>
    obtain ⟨rfl, -⟩ := List.cons.inj hpost
    exact h pre fd p a mid hmid

def Calm (did : List Did) : Prop := ∀ fd p a, Did.connect fd p a ∉ did

theorem Within.calm (h : Within plan endpoints did) (h' : Calm did') : Within plan endpoints (did ++ did') := by
  apply h.more
  intro pre fd p a post heq
  refine absurd ?_ (h' fd p a)
  rw [heq]
  exact mem_append_right _ mem_cons_self

/-! ## The connects that a wake settles -/

theorem replies_reply {fd : ℤ} (h : 0 ≤ fd → Made plan endpoints did r fd) (failure : ℕ) :
    Replies plan endpoints did r (connector_reply r.tag failure fd) := by
  refine ⟨rfl, fun fd' hfd => ?_⟩
  unfold connector_reply at hfd
  by_cases hp : failure ≠ 0 ∨ fd < 0
  · rw [if_pos hp] at hfd
    cases hfd
  · rw [if_neg hp] at hfd
    rw [← Option.some.inj hfd]
    exact h (by omega)

theorem settled_replies {w : Wake} {u : List Flight} (h : Forall₂ (Flies plan endpoints did) rest u) :
    ∃ news : List (Request × Reply), news.map Prod.fst = rest ∧ news.map Prod.snd = u.map (settled w) ∧
      ∀ x ∈ news, Replies plan endpoints did x.1 x.2 := by
  induction h with
  | nil => exact ⟨[], rfl, rfl, nofun⟩
  | @cons r f rest u hflies hrest ih =>
    obtain ⟨news, hfst, hsnd, hall⟩ := ih
    refine ⟨(r, settled w f) :: news, by rw [map_cons, hfst], by
      rw [map_cons, map_cons, hsnd], ?_⟩
    intro x hx
    rcases mem_cons.mp hx with rfl | hx
    · obtain ⟨htag, -, hmade⟩ := hflies
      unfold settled
      rw [htag]
      apply replies_reply
      intro hfd
      by_cases hout : outcome w f = 0
      · rw [if_neg (not_not.mpr hout)] at hfd ⊢
        exact hmade hfd
      · rw [if_pos hout] at hfd
        cases hfd
    · exact hall x hx

theorem forall₂_split {α β : Type} {R : α → β → Prop} {u v : List α} {t : List β} (h : Forall₂ R (u ++ v) t) :
    ∃ t₁ t₂, t = t₁ ++ t₂ ∧ Forall₂ R u t₁ ∧ Forall₂ R v t₂ :=
  ⟨t.take u.length, t.drop u.length, (take_append_drop _ _).symm,
    (forall₂_take_append _ _ _ h.flip).flip, (forall₂_drop_append _ _ _ h.flip).flip⟩

/-- Of the connects in flight, `u` are settled and `v` stay. -/
theorem Answered.settle {w : Wake} {flights u v : List Flight} (h : Answered plan endpoints did requests rest)
    (hflies : Forall₂ (Flies plan endpoints did) rest flights) (hperm : (u ++ v).Perm flights)
    (hreplies : replies did' = u.map (settled w)) :
    ∃ rest', Answered plan endpoints (did ++ did') requests rest' ∧
      Forall₂ (Flies plan endpoints (did ++ did')) rest' v := by
  obtain ⟨rest₀, hrest₀, hperm₀⟩ := perm_comp_forall₂ hperm hflies.flip
  obtain ⟨rest₁, rest₂, rfl, h₁, h₂⟩ := forall₂_split hrest₀
  obtain ⟨news, hfst, hsnd, hnews⟩ := settled_replies h₁.flip
  refine ⟨rest₂, h.more news ?_ ?_ ?_, ?_⟩
  · rw [hfst]
    exact hperm₀.symm
  · rw [hsnd, hreplies]
  · exact fun x hx => (hnews x hx).more did'
  · exact h₂.flip.imp fun r f hf => Flies.more hf did'

/-! ## A request that is served -/

theorem Asked.take {s held got : Bytes} (h : Asked s requests held)
    (hlength : (held ++ got).length < CONNECTOR_REQUEST_BYTES) :
    Asked (s ++ got) requests (held ++ got) := by
  obtain ⟨blocks, rfl, hblocks, -, hrequests⟩ := h
  exact ⟨blocks, append_assoc _ _ _, hblocks, hlength, hrequests⟩

theorem Asked.whole {s held got : Bytes} (h : Asked s requests held)
    (hlength : (held ++ got).length = CONNECTOR_REQUEST_BYTES) :
    Asked (s ++ got) (requests ++ [connector_decode (held ++ got)]) [] ∧
      Asks (s ++ got) (connector_decode (held ++ got)) := by
  obtain ⟨blocks, rfl, hblocks, -, rfl⟩ := h
  refine ⟨⟨blocks ++ [held ++ got], by simp, fun b hb => ?_, by decide, by simp⟩, ?_⟩
  · rcases mem_append.mp hb with hb | hb
    · exact hblocks b hb
    · rwa [mem_singleton.mp hb]
  · exact ⟨blocks, held ++ got, append_assoc _ _ _, hblocks, hlength, rfl⟩

theorem connector_decode_address {bytes : Bytes} (h : bytes.length = CONNECTOR_REQUEST_BYTES) :
    (connector_decode bytes).address.length = 16 := by
  have hbytes : CONNECTOR_REQUEST_BYTES = 36 := rfl
  unfold connector_decode
  rw [length_take, length_drop]
  omega

theorem Within.dials (h : Within plan endpoints did) (hasks : Asks (reads did) r)
    (h' : Dials (Authorised plan endpoints r) did') : Within plan endpoints (did ++ did') := by
  apply h.more
  intro pre fd p a post heq
  have hreads := h'.reads
  rw [heq, reads_append] at hreads
  refine ⟨r, ?_, h'.connects fd p a ?_⟩
  · rwa [(append_eq_nil_iff.mp hreads).1, append_nil]
  · rw [heq]
    exact mem_append_right _ mem_cons_self

/-- A live connector: what it serves, what it has connected to, and its table as it was made. -/
structure Serving (plan : Plan) (endpoints : List Endpoint) (low high : ℕ) (did : List Did)
    (st : State) : Prop where
  serves : Serves plan endpoints did st
  within : Within plan endpoints did
  table : Forall₂ (Range.Serves low high st.memory) plan.ranges endpoints

structure Ended (plan : Plan) (endpoints : List Endpoint) (did : List Did) : Prop where
  served : Served plan endpoints did
  within : Within plan endpoints did

/-- What a step comes to after the events `did`. -/
def Goes (plan : Plan) (endpoints : List Endpoint) (low high : ℕ) (did : List Did)
    (step : Except (List Did) (State × List Did)) : Prop :=
  (∀ st did', step = .ok (st, did') → Serving plan endpoints low high (did ++ did') st) ∧
    ∀ did', step = .error did' → Ended plan endpoints (did ++ did')

variable {low high : ℕ} {st : State}

theorem step_ok {P : State → List Did → Prop} {Q : List Did → Prop} (h : P st did) :
    (∀ st' did', (Except.ok (st, did) : Except (List Did) (State × List Did)) = .ok (st', did') → P st' did') ∧
      ∀ did', (Except.ok (st, did) : Except (List Did) (State × List Did)) = .error did' → Q did' := by
  refine ⟨fun st' did' heq => ?_, nofun⟩
  cases heq
  exact h

theorem step_error {P : State → List Did → Prop} {Q : List Did → Prop} (h : Q did) :
    (∀ st did', (Except.error did : Except (List Did) (State × List Did)) = .ok (st, did') → P st did') ∧
      ∀ did', (Except.error did : Except (List Did) (State × List Did)) = .error did' → Q did' := by
  refine ⟨nofun, fun did' heq => ?_⟩
  rwa [← Except.error.inj heq]

theorem Goes.ok {pre : List Did} {step : Except (List Did) (State × List Did)} {p : State × List Did}
    (h : Goes plan endpoints low high (did ++ pre) step) (hstep : step = .ok p) :
    Serving plan endpoints low high (did ++ (pre ++ p.2)) p.1 := by
  rw [← append_assoc]
  exact h.1 p.1 p.2 hstep

theorem Goes.error {pre did' : List Did} {step : Except (List Did) (State × List Did)}
    (h : Goes plan endpoints low high (did ++ pre) step) (hstep : step = .error did') :
    Ended plan endpoints (did ++ (pre ++ did')) := by
  rw [← append_assoc]
  exact h.2 did' hstep

/-- Events that are neither a byte read nor a reply nor a connect. -/
structure Still (did : List Did) : Prop where
  reads : reads did = []
  replies : replies did = []
  calm : Calm did

theorem Answered.still (h : Answered plan endpoints did requests rest) (h' : Still did') :
    Answered plan endpoints (did ++ did') requests rest :=
  h.more [] (List.Perm.refl _) (by rw [h'.replies]; exact List.Perm.refl _) nofun

theorem Serving.still (h : Serving plan endpoints low high did st) (h' : Still did') :
    Serving plan endpoints low high (did ++ did') st := by
  obtain ⟨⟨hlength, requests, rest, hasked, hanswered, hflies⟩, hwithin, htable⟩ := h
  refine ⟨⟨hlength, requests, rest, ?_, hanswered.still h', ?_⟩, hwithin.calm h'.calm, htable⟩
  · rwa [reads_append, h'.reads, append_nil]
  · exact hflies.imp fun r f hf => Flies.more hf did'

theorem Serving.ended (h : Serving plan endpoints low high did st) : Ended plan endpoints did := by
  obtain ⟨⟨-, requests, rest, hasked, hanswered, -⟩, hwithin, -⟩ := h
  exact ⟨⟨requests, st.held, rest, hasked, hanswered⟩, hwithin⟩

/-! ## A request that is served -/

/-- A request whose bytes are whole, and which is not yet answered. -/
structure Asking (plan : Plan) (endpoints : List Endpoint) (low high : ℕ) (did : List Did) (st : State)
    (r : Request) : Prop where
  asks : Asks (reads did) r
  flight : st.flight.length ≤ CONNECTOR_FLIGHT
  answered : ∃ requests rest, Asked (reads did) requests st.held ∧
    Answered plan endpoints did requests (rest ++ [r]) ∧ Forall₂ (Flies plan endpoints did) rest st.flight
  within : Within plan endpoints did
  table : Forall₂ (Range.Serves low high st.memory) plan.ranges endpoints

theorem Asking.dials (h : Asking plan endpoints low high did st r) (h' : Dials (Authorised plan endpoints r) did') :
    Asking plan endpoints low high (did ++ did') st r := by
  obtain ⟨hasks, hflight, ⟨requests, rest, hasked, hanswered, hflies⟩, hwithin, htable⟩ := h
  refine ⟨?_, hflight, ⟨requests, rest, ?_, ?_, ?_⟩, hwithin.dials hasks h', htable⟩
  · rwa [reads_append, h'.reads, append_nil]
  · rwa [reads_append, h'.reads, append_nil]
  · apply hanswered.more [] (List.Perm.refl _)
    · rw [h'.replies]
      exact List.Perm.refl _
    · exact nofun
  · exact hflies.imp fun r f hf => Flies.more hf _

theorem Asking.ended (h : Asking plan endpoints low high did st r) : Ended plan endpoints did := by
  obtain ⟨-, -, ⟨requests, rest, hasked, hanswered, -⟩, hwithin, -⟩ := h
  exact ⟨⟨requests, st.held, rest ++ [r], hasked, hanswered⟩, hwithin⟩

theorem Ended.still (h : Ended plan endpoints did) (h' : Still did') : Ended plan endpoints (did ++ did') := by
  obtain ⟨⟨requests, held, rest, hasked, hanswered⟩, hwithin⟩ := h
  refine ⟨⟨requests, held, rest, ?_, hanswered.still h'⟩, hwithin.calm h'.calm⟩
  rwa [reads_append, h'.reads, append_nil]

theorem Still.dials {P : ℕ → Bytes → Prop} (h : Still did) : Dials P did :=
  ⟨h.reads, h.replies, fun fd p a hmem => absurd hmem (h.calm fd p a)⟩

theorem still_close (fd : ℤ) : Still [.close fd] :=
  ⟨rfl, rfl, fun fd' p a hmem => absurd (mem_singleton.mp hmem) (by simp)⟩

theorem still_closed (fd : ℤ) : Still (if fd ≥ 0 then [Did.close fd] else []) := by
  by_cases h : fd ≥ 0
  · rw [if_pos h]
    exact still_close fd
  · rw [if_neg h]
    exact ⟨rfl, rfl, nofun⟩

theorem Asking.replied {a : Reply} (h : Asking plan endpoints low high did st r)
    (ha : Replies plan endpoints did r a) :
    Serving plan endpoints low high (did ++ [.reply a]) st := by
  obtain ⟨-, hflight, ⟨requests, rest, hasked, hanswered, hflies⟩, hwithin, htable⟩ := h
  have hreads : reads [Did.reply a] = [] := rfl
  refine ⟨⟨hflight, requests, rest, ?_, ?_, ?_⟩, hwithin.calm ?_, htable⟩
  · rwa [reads_append, hreads, append_nil]
  · apply hanswered.more [(r, a)]
    · exact perm_append_comm
    · exact List.Perm.refl _
    · intro x hx
      rw [mem_singleton.mp hx]
      exact ha.more _
  · exact hflies.imp fun r f hf => Flies.more hf _
  · intro fd p b hmem
    exact absurd (mem_singleton.mp hmem) (by simp)

end Cosmic.Connector
