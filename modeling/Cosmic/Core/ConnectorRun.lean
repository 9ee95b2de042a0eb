/-
A run of the connector's loop.

Every wake keeps what the connector serves, and so does a run of them, whatever the kernel answers. A
wake settles the connects in flight that are due, each by its own outcome, and adds one at most.
-/
import Cosmic.Core.ConnectorServe

set_option autoImplicit false

namespace Cosmic.Connector

open Cosmic.Base List

variable {plan : Plan} {endpoints : List Endpoint} {low high : ℕ} {did : List Did} {st : State}

/-! ## The scan -/

theorem replies_settles (w : Wake) (u : List Flight) : replies (u.flatMap (settles w)) = u.map (settled w) := by
  induction u with
  | nil => rfl
  | cons f u ih =>
    rw [flatMap_cons, replies_append, ih]
    rfl

theorem settled_split (w : Wake) (flights : List Flight) :
    ((flights.filter (due w)).reverse ++ flights.filter (fun f => !due w f)).Perm flights :=
  ((reverse_perm _).append_right _).trans (filter_append_perm _ _)

/-- What serving adds: a reply, or a connect in flight, which the connector's own wait bounds; nothing
where the process ends. -/
def Adds (plan : Plan) (st : State) (w : Wake) (step : Except (List Did) (State × List Did)) : Prop :=
  (∀ st' did', step = .ok (st', did') → ∃ begun, st'.flight = st.flight ++ begun ∧
    begun.length + (replies did').length ≤ 1 ∧ ∀ f ∈ begun, f.deadline ≤ w.dial.now + plan.timeout.toNat) ∧
    ∀ did', step = .error did' → replies did' = []

theorem adds_none {w : Wake} {did' : List Did} {st' : State} (hflight : st'.flight = st.flight)
    (h : (replies did').length ≤ 1) : Adds plan st w (.ok (st', did')) := by
  apply step_ok
  refine ⟨[], by rw [hflight, append_nil], ?_, nofun⟩
  rwa [length_nil, Nat.zero_add]

theorem adds_error {w : Wake} {did' : List Did} (h : replies did' = []) : Adds plan st w (.error did') := step_error h

theorem connector_end_adds {w : Wake} {st' : State} {tag : UInt32} {failure : ℕ} {fd : ℤ}
    {did' : List Did} (hflight : st'.flight = st.flight) (h : replies did' = []) :
    Adds plan st w (connector_end st' w tag failure fd did') := by
  have hclosed := (still_closed fd).replies
  unfold connector_end
  by_cases htakes : w.takes_served
  · rw [if_pos htakes]
    apply adds_none hflight
    rw [replies_append, h, nil_append]
    show (connector_reply tag failure fd :: replies (if fd ≥ 0 then [Did.close fd] else [])).length ≤ 1
    rw [hclosed]
    exact Nat.le_refl 1
  · rw [if_neg htakes]
    apply adds_error
    rw [replies_append, h, hclosed, append_nil]

theorem connector_serve_adds {bytes : Bytes} (w : Wake) (hhigh : high ≤ 2 ^ 64)
    (hbytes : bytes.length = CONNECTOR_REQUEST_BYTES)
    (htable : Forall₂ (Range.Serves low high st.memory) plan.ranges endpoints) :
    Adds plan st w (connector_serve plan st bytes w) := by
  obtain ⟨hcomes, -⟩ := connector_answer_comes (decide (st.flight.length < CONNECTOR_FLIGHT)) htable
    hhigh (connector_decode_address hbytes) w.dial
  have hreplies := hcomes.dials.replies
  unfold connector_serve
  dsimp only
  generalize connector_answer plan st.memory (connector_decode bytes) _ w.dial = answer at *
  obtain ⟨⟨⟨failure, fd⟩, did'⟩, m⟩ := answer
  by_cases hgoes : failure = EINPROGRESS
  · rw [if_pos hgoes]
    by_cases hnow : w.dial.now ≥ 0
    · rw [if_pos hnow]
      apply step_ok
      refine ⟨_, rfl, by rw [hreplies]; exact Nat.le_refl 1, fun f hf => ?_⟩
      rw [mem_singleton.mp hf]
      -- the wait asked for is taken only where the connector's own is no shorter
      by_cases hwait : (connector_decode bytes).wait = 0 ∨ (connector_decode bytes).wait > plan.timeout
      · rw [if_pos hwait]
      · rw [if_neg hwait]
        obtain ⟨-, hle⟩ := not_or.mp hwait
        have hle' := UInt32.le_iff_toNat_le.mp (UInt32.not_lt.mp hle)
        dsimp only
        omega
    · rw [if_neg hnow]
      apply connector_end_adds rfl
      rw [replies_append, hreplies]
      rfl
  · rw [if_neg hgoes]
    exact connector_end_adds rfl hreplies

theorem connector_take_adds (w : Wake) (hhigh : high ≤ 2 ^ 64)
    (htable : Forall₂ (Range.Serves low high st.memory) plan.ranges endpoints) :
    Adds plan st w (connector_take plan st w) := by
  unfold connector_take
  cases w.read with
  | interrupted => exact adds_none rfl (by decide)
  | failed => exact adds_error rfl
  | bytes s =>
    dsimp only
    generalize s.take (CONNECTOR_REQUEST_BYTES - st.held.length) = got
    by_cases hend : got = []
    · rw [if_pos hend]
      exact adds_error rfl
    rw [if_neg hend]
    by_cases hwhole : (st.held ++ got).length = CONNECTOR_REQUEST_BYTES
    · rw [if_pos hwhole]
      obtain ⟨hok, herror⟩ : Adds plan { st with held := [] } w
          (connector_serve plan { st with held := [] } (st.held ++ got) w) :=
        connector_serve_adds w hhigh hwhole htable
      cases hstep : connector_serve plan { st with held := [] } (st.held ++ got) w with
      | error did' => exact adds_error (herror did' hstep)
      | ok p => exact step_ok (hok p.1 p.2 hstep)
    · rw [if_neg hwhole]
      exact adds_none rfl (Nat.zero_le 1)

/-- What a wake settles: connects in flight that are due, each with its own reply, and all of them
unless it is interrupted. It adds a connect in flight or a reply, and not both. -/
def Settles (plan : Plan) (w : Wake) (st st' : State) (did : List Did) : Prop :=
  ∃ (gone left begun : List Flight) (answers : List Reply), (gone ++ left).Perm st.flight ∧ st'.flight.Perm (left ++ begun) ∧
    replies did = gone.map (settled w) ++ answers ∧ begun.length + answers.length ≤ 1 ∧
      (∀ f ∈ begun, f.deadline ≤ w.dial.now + plan.timeout.toNat) ∧ (∀ f ∈ gone, due w f) ∧
        ∀ f ∈ left, due w f → w.poll = .interrupted

/-- Where it ends the process, it replies to connects in flight that are due. -/
def Stops (w : Wake) (st : State) (did : List Did) : Prop :=
  ∃ gone left : List Flight, (gone ++ left).Perm st.flight ∧ replies did = gone.map (settled w) ∧ ∀ f ∈ gone, due w f

theorem due_of_mem {w : Wake} {flights : List Flight} {f : Flight}
    (h : f ∈ (flights.filter (due w)).reverse) : due w f :=
  (List.mem_filter.mp (mem_reverse.mp h)).2

theorem not_due_of_mem {w : Wake} {flights left : List Flight} {f : Flight}
    (hperm : left.Perm (flights.filter (fun f => !due w f))) (h : f ∈ left) : ¬due w f := by
  simpa using (List.mem_filter.mp (hperm.mem_iff.mp h)).2

theorem connector_wake_settles (w : Wake) (hhigh : high ≤ 2 ^ 64)
    (htable : Forall₂ (Range.Serves low high st.memory) plan.ranges endpoints) :
    (∀ st' did', connector_wake plan st w = .ok (st', did') → Settles plan w st st' did') ∧
      ∀ did', connector_wake plan st w = .error did' → Stops w st did' := by
  have hstops : Stops w st [.poll (wait_left st.flight w.now)] := ⟨[], st.flight, List.Perm.refl _, rfl, nofun⟩
  unfold connector_wake
  cases hpoll : w.poll with
  | interrupted =>
    apply step_ok
    exact ⟨[], st.flight, [], [], List.Perm.refl _, by rw [append_nil], rfl, by simp, by simp,
      by simp, fun f _ _ => hpoll⟩
  | failed =>
    apply step_error
    exact hstops
  | woke broken readable =>
    dsimp only
    by_cases hbroken : broken
    · rw [if_pos hbroken]
      apply step_error
      exact hstops
    rw [if_neg hbroken]
    have hsplit := settled_split w st.flight
    obtain ⟨left, hloop, hperm⟩ | ⟨u, f, v, hu, hloop⟩ := settle_scan_spec w st
    · unfold waits at hloop
      rw [hloop]
      dsimp only
      have hgone := (hperm.append_left _).trans hsplit
      by_cases hreadable : readable
      · rw [if_neg (not_not.mpr hreadable)]
        obtain ⟨hok, herror⟩ : Adds plan { st with flight := left } w
            (connector_take plan { st with flight := left } w) := connector_take_adds w hhigh htable
        cases hstep : connector_take plan { st with flight := left } w with
        | error did'' =>
          apply step_error
          refine ⟨_, left, hgone, ?_, fun f hf => due_of_mem hf⟩
          show replies (_ ++ did'') = _
          rw [replies_append, replies_settles, herror did'' hstep, append_nil]
        | ok p =>
          apply step_ok
          obtain ⟨begun, hflight, hone, hbegun⟩ := hok p.1 p.2 hstep
          refine ⟨_, left, begun, replies p.2, hgone, by rw [hflight], ?_, hone, hbegun,
            fun f hf => due_of_mem hf, fun f hf hdue => absurd hdue (not_due_of_mem hperm hf)⟩
          show replies (_ ++ p.2) = _
          rw [replies_append, replies_settles]
      · rw [if_pos hreadable]
        apply step_ok
        refine ⟨_, left, [], [], hgone, by rw [append_nil], ?_, by simp, by simp,
          fun f hf => due_of_mem hf, fun f hf hdue => absurd hdue (not_due_of_mem hperm hf)⟩
        rw [append_nil]
        exact replies_settles w _
    · unfold waits at hloop
      rw [hloop]
      apply step_error
      refine ⟨u, f :: v ++ st.flight.filter (fun f => !due w f), ?_, ?_, fun f' hf' => ?_⟩
      · rwa [hu, append_assoc] at hsplit
      · show replies (_ ++ [Did.close f.fd]) = _
        rw [replies_append, replies_settles]
        exact append_nil _
      · apply due_of_mem
        rw [hu]
        exact mem_append_left _ hf'

/-! ## Waiting -/

theorem foldl_nearest (flights : List Flight) (hflights : ∀ f ∈ flights, 0 ≤ f.deadline) {start : ℤ}
    (hstart : 0 ≤ start) :
    let found := flights.foldl (fun nearest f =>
      if nearest < 0 ∨ f.deadline < nearest then f.deadline else nearest) start
    0 ≤ found ∧ found ≤ start ∧ ∀ f ∈ flights, found ≤ f.deadline := by
  induction flights generalizing start with
  | nil => exact ⟨hstart, le_refl start, nofun⟩
  | cons g flights ih =>
    have hg := hflights g mem_cons_self
    have hrest : ∀ f ∈ flights, 0 ≤ f.deadline := fun f hf => hflights f (mem_cons_of_mem g hf)
    rw [foldl_cons]
    by_cases hless : start < 0 ∨ g.deadline < start
    · rw [if_pos hless]
      obtain ⟨hpositive, hle, hall⟩ := ih hrest hg
      refine ⟨hpositive, by omega, fun f hf => ?_⟩
      rcases mem_cons.mp hf with rfl | hf
      · exact hle
      · exact hall f hf
    · rw [if_neg hless]
      obtain ⟨hpositive, hle, hall⟩ := ih hrest hstart
      refine ⟨hpositive, hle, fun f hf => ?_⟩
      rcases mem_cons.mp hf with rfl | hf
      · omega
      · exact hall f hf

theorem wait_left_le {flights : List Flight} (hflights : ∀ f ∈ flights, 0 ≤ f.deadline) (now : ℤ)
    {f : Flight} (hf : f ∈ flights) :
    ∃ left, wait_left flights now = some left ∧ (left = 0 ∨ 0 ≤ now ∧ now + left ≤ f.deadline) := by
  have hnearest : 0 ≤ nearest flights ∧ nearest flights ≤ f.deadline := by
    cases flights with
    | nil => cases hf
    | cons g flights =>
      obtain ⟨hpositive, hle, hall⟩ := foldl_nearest flights
        (fun f hf => hflights f (mem_cons_of_mem g hf)) (hflights g mem_cons_self)
      unfold nearest
      rw [foldl_cons, if_pos (.inl (by decide))]
      refine ⟨hpositive, ?_⟩
      rcases mem_cons.mp hf with rfl | hf
      · exact hle
      · exact hall f hf
  unfold wait_left
  rw [if_neg (not_lt.mpr hnearest.1)]
  by_cases hnow : 0 ≤ now ∧ now < nearest flights
  · rw [if_pos hnow]
    exact ⟨_, rfl, .inr ⟨hnow.1, by omega⟩⟩
  · rw [if_neg hnow]
    exact ⟨0, rfl, .inl rfl⟩

/-! ## The loop -/

/-- What a wake does to a live connector: it waits no longer than to the deadline of a connect in
flight, and settles those that are due. -/
structure Woken (plan : Plan) (st : State) (w : Wake) : Prop where
  waits : ∀ f ∈ st.flight, ∃ left, wait_left st.flight w.now = some left ∧
    (left = 0 ∨ 0 ≤ w.now ∧ w.now + left ≤ f.deadline)
  settles : ∀ st' did', connector_wake plan st w = .ok (st', did') → Settles plan w st st' did'
  stops : ∀ did', connector_wake plan st w = .error did' → Stops w st did'

theorem Serving.woken (h : Serving plan endpoints low high did st) (hhigh : high ≤ 2 ^ 64) (w : Wake) :
    Woken plan st w := by
  obtain ⟨hsettles, hstops⟩ := connector_wake_settles w hhigh h.table
  refine ⟨fun f hf => wait_left_le ?_ w.now hf, hsettles, hstops⟩
  intro g hg
  obtain ⟨-, requests, rest, -, -, hflies⟩ := h.serves
  obtain ⟨i, hi⟩ := mem_iff_getElem?.mp hg
  obtain ⟨r, -, hr⟩ := forall₂_getElem? hflies.flip hi
  exact Flies.deadline hr

end Cosmic.Connector
