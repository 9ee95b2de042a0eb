/-
The reads of a request's body: what they give comes to what the bytes pending hold of it.
-/
import Cosmic.Http.BodyRead

set_option autoImplicit false

namespace Cosmic.Http

open Cosmic.Base List

namespace BodyReader

variable {self : BodyReader} {most : ℕ}

structure Done (now : BodyReader) : Prop where
  closed : now.closed = false
  failure : now.failure = []
  state : now.state = .done

def Comes (self : BodyReader) (d : Decoded) : Prop :=
  if self.state = .opened then self.Holds d else d = self.ended

theorem Opened.comes (h : self.Opened) (d : Decoded) : self.Comes d ↔ self.Holds d := by
  unfold Comes
  rw [if_pos h.state]

theorem comes_ended (h : self.state ≠ .opened) (d : Decoded) : self.Comes d ↔ d = self.ended := by
  unfold Comes
  rw [if_neg h]

theorem Done.ended (h : self.Done) : self.ended = ⟨[], .done, [], self.input.pending⟩ := by
  unfold BodyReader.ended
  rw [if_pos h.state, h.state, h.failure]

/-- A piece of the body that `before` reads leaves `now`. -/
structure Piece (before : BodyReader) (piece : Bytes) (now : BodyReader) : Prop where
  some_ : piece ≠ []
  ready : now.Opened ∨ now.Done
  limits : now.limits = before.limits
  ending : now.input.source.ending = before.input.source.ending
  less : now.input.pending.length < before.input.pending.length
  comes : ∀ d, now.Comes d → before.Holds { d with bytes := piece ++ d.bytes }

/-- What a read of the body of `before` answers: a piece, or how the body ends. -/
def Gives (before : BodyReader) (answer : Except Bytes Bytes × BodyReader) : Prop :=
  (∃ piece, answer.1 = .ok piece ∧ Piece before piece answer.2) ∨
    (answer.1 = .error answer.2.failure ∧ Ends before answer.2)

/-- A reader that took `piece`. -/
def taken (self : BodyReader) (piece : Bytes) (input : Input) : BodyReader :=
  { self with input, left := self.left - piece.length, total := self.total + piece.length }

structure Taken (before : BodyReader) (piece : Bytes) (input : Input) : Prop where
  piece_ : piece ≠ []
  le : piece.length ≤ before.left
  pending : before.input.pending = piece ++ input.pending
  ending : input.source.ending = before.input.source.ending

theorem Taken.less {piece : Bytes} {input : Input} (h : Taken self piece input) :
    input.pending.length < self.input.pending.length := by
  have hpos := length_pos_iff.mpr h.piece_
  rw [h.pending, length_append]
  omega

variable {piece : Bytes} {input : Input}

def Goes (round : Option (Round BodyReader (Except Bytes Bytes × BodyReader))) (before : BodyReader) : Prop :=
  (∃ now, round = some (.next now) ∧ From before now ∧ now.Opened ∧
    now.input.pending.length < before.input.pending.length) ∨
  ∃ answer, round = some (.done answer) ∧ Gives before answer

structure Over (now : BodyReader) : Prop where
  closed : now.closed = false
  state : now.state ≠ .opened
  failed : now.state ≠ .done → now.failure ≠ []

def Sound (self : BodyReader) : Prop := self.state = .opened ∨ self.state = .done

/-- A reading of the body of `before` gave `bytes` and left `now`. -/
structure Leads (before : BodyReader) (bytes : Bytes) (now : BodyReader) : Prop where
  ready : now.Opened ∨ now.Over
  sound : now.Sound → before.Sound ∧ now.input.source.ending = before.input.source.ending
  comes : ∀ d, now.Comes d → before.Comes { d with bytes := bytes ++ d.bytes }

theorem Done.over (h : self.Done) : self.Over := ⟨h.closed, by rw [h.state]; decide, fun hnot => absurd h.state hnot⟩

theorem Ends.over {now : BodyReader} (h : Ends self now) : now.Over := ⟨h.closed, h.state, h.failed⟩

theorem Leads.refl (h : self.Opened ∨ self.Over) : Leads self [] self := ⟨h, fun h => ⟨h, rfl⟩, fun _ hd => hd⟩

theorem Leads.trans {now later : BodyReader} {bytes bytes' : Bytes} (h : Leads self bytes now)
    (h' : Leads now bytes' later) : Leads self (bytes ++ bytes') later := by
  refine ⟨h'.ready, fun hlater => ?_, fun d hd => ?_⟩
  · obtain ⟨hnow, hending'⟩ := h'.sound hlater
    obtain ⟨hself, hending⟩ := h.sound hnow
    exact ⟨hself, hending'.trans hending⟩
  · rw [append_assoc]
    exact h.comes _ (h'.comes d hd)

theorem Comes.unique {d d' : Decoded} (h : self.Comes d) (h' : self.Comes d') : d = d' := by
  unfold Comes at h h'
  by_cases hstate : self.state = .opened
  · rw [if_pos hstate] at h h'
    exact Decodes.unique h h'
  · rw [if_neg hstate] at h h'
    exact h.trans h'.symm

theorem Over.comes (h : self.Over) : self.Comes self.ended := (comes_ended h.state _).mpr rfl

end BodyReader

end Cosmic.Http
