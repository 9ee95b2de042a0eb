/-
The requests of a connection: heads and bodies read in turn, as `cosmic/http/wire.tl` has a server read
them.

A plan says what a server asks of one request: whether it waits for bytes first, and the sizes of the
reads of the body before it drains the rest. What a connection holds is a matter of its bytes, whatever
the cuts they come in and the plans.
-/
import Cosmic.Http.BodyFramed
import Cosmic.Http.BodyPiece

set_option autoImplicit false

namespace Cosmic.Http

open Cosmic.Base List Bool

/-- What is asked of one request. -/
structure Plan where
  filled : Bool
  sizes : List (Option ℕ+)

/-- What one request gave: a refusal, or its head, the bytes read of its body, whether a read answered that
there are no more, how the body stands once drained and why, and what is still to be taken. -/
inductive Exchange where
  | refused (refused : Refused)
  | served (head : Head) (bytes : Bytes) (ended : Bool) (state : BodyState) (failure rest : Bytes)

/-- The bytes read of a request's body. -/
def Exchange.bytes : Exchange → Bytes
  | .refused _ => []
  | .served _ bytes _ _ _ _ => bytes

/-- The bytes read of a body, and whether a read answered that there are no more. -/
def BodyReader.reads : List (Option ℕ+) → BodyReader → Option (Bytes × Bool × BodyReader)
  | [], self => some ([], false, self)
  | size :: sizes, self =>
    match self.read size with
    | none => none
    | some (.error _, self) => (BodyReader.reads sizes self).map fun r => (r.1, true, r.2.2)
    | some (.ok piece, self) => (BodyReader.reads sizes self).map fun r => (piece ++ r.1, r.2)

/-- One request. -/
def exchange (limits : Limits) (plan : Plan) (input : Input) : Option (Exchange × Input) :=
  match read_head (if plan.filled then input.fill.2 else input) limits with
  | none => none
  | some (.error refused, input) => some (.refused refused, input)
  | some (.ok head, input) =>
    match (body input head limits).reads plan.sizes with
    | none => none
    | some (bytes, ended, self) =>
      match self.drain with
      | none => none
      | some (_, self) =>
        some (.served head bytes ended self.state self.failure self.input.pending, self.input)

/-- Whether another request may follow. -/
def Exchange.goes_on : Exchange → Bool
  | .refused _ => false
  | .served _ _ _ state _ _ => state = .done

/-- The requests of a connection, to one that no other may follow or the end of the plans. -/
def session (limits : Limits) : List Plan → Input → Option (List Exchange)
  | [], _ => some []
  | plan :: plans, input =>
    match exchange limits plan input with
    | none => none
    | some (x, input) => if x.goes_on then (session limits plans input).map (x :: ·) else some [x]

/-! ## What a stream holds -/

/-- A request of a stream: refused, or served with its whole body. -/
inductive Held where
  | refused (refused : Refused)
  | served (head : Head) (d : Decoded)

/-- `rest` is what follows the framing of a request that `s` starts with, read in the one way it can be. -/
structure Follows (head : Head) (s body rest : Bytes) : Prop where
  framed : ∃ h b, HeadLines h ∧ Framing head b body ∧ s = h ++ (b ++ rest)
  only : ∀ h b body' rest', HeadLines h → Framing head b body' → s = h ++ (b ++ rest') → body' = body ∧ rest' = rest

theorem follows {head : Head} {h b body rest : Bytes} (hh : HeadLines h) (hb : Framing head b body) :
    Follows head (h ++ (b ++ rest)) body rest := by
  refine ⟨⟨h, b, hh, hb, rfl⟩, ?_⟩
  intro h' b' body' rest' hh' hb' heq
  obtain ⟨rfl, hrest⟩ := hh.unique hh' heq
  obtain ⟨-, hbody, hrest'⟩ := hb.unique hb' hrest
  exact ⟨hbody.symm, hrest'.symm⟩

/-- Requests that a stream holds, each from the byte after the framing of the one before. -/
inductive Bounds : Bytes → List Held → Prop
  | nil {s : Bytes} : Bounds s []
  | refused {s : Bytes} {refused : Refused} : Bounds s [.refused refused]
  | failed {s : Bytes} {head : Head} {d : Decoded} (hfailed : d.state ≠ .done) : Bounds s [.served head d]
  | done {s : Bytes} {head : Head} {d : Decoded} {more : List Held} (hdone : d.state = .done)
      (hfollows : Follows head s d.bytes d.rest) (hrest : Bounds d.rest more) : Bounds s (.served head d :: more)

/-- What a plan finds of a request that is held: of a body, the first of its bytes, and all of them where a
read answers that there are no more, as one does at the latest once each byte had a read of its own. -/
inductive Met (plan : Plan) : Held → Exchange → Prop
  | refused {refused : Refused} : Met plan (.refused refused) (.refused refused)
  | served {head : Head} {d : Decoded} {bytes rest : Bytes} {ended : Bool} (hbytes : bytes <+: d.bytes)
      (hwhole : ended = true → bytes = d.bytes) (hended : d.bytes.length < plan.sizes.length → ended = true)
      (hrest : d.state = .done → rest = d.rest) :
      Met plan (.served head d) (.served head bytes ended d.state d.failure rest)

inductive Meets : List Plan → List Held → List Exchange → Prop
  | nil {plans : List Plan} : Meets plans [] []
  | cons {plan : Plan} {plans : List Plan} {held : Held} {more : List Held} {x : Exchange} {xs : List Exchange}
      (hmet : Met plan held x) (hmore : Meets plans more xs) : Meets (plan :: plans) (held :: more) (x :: xs)

/-! ## Reads -/

namespace BodyReader

variable {self : BodyReader}

end BodyReader

/-! ## Requests -/

section

variable {a b : Input} {head : Head} {limits : Limits} {d : Decoded}

theorem Alike.comes (h : Alike a b) (hd : (body a head limits).Comes d) : (body b head limits).Comes d := by
  unfold BodyReader.Comes BodyReader.Holds BodyReader.ended at hd ⊢
  dsimp only [body, BodyReader.core] at hd ⊢
  rwa [← h.pending, ← h.ending]

theorem Alike.filled (h : Alike a b) (plan : Plan) : Alike (if plan.filled then a.fill.2 else a) b := by
  split
  · obtain ⟨-, hending, hpending⟩ := (Input.fill_spec a).1
    exact ⟨hpending.trans h.pending, hending.trans h.ending⟩
  · exact h

theorem Alike.read_head {p : Except Refused Head × Input} (h : Alike a b) (hb : read_head b limits = some p) :
    ∃ a', read_head a limits = some (p.1, a') ∧ ∀ head, p.1 = .ok head → Alike a' p.2 := by
  obtain ⟨⟨answer, a'⟩, q, ha, hq, hsame, halike⟩ := read_head_agrees limits h
  obtain rfl := Option.some.inj (hq.symm.trans hb)
  subst hsame
  exact ⟨a', ha, halike⟩

end

end Cosmic.Http
