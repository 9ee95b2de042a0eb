/-
`Stream.lines`: lines of a stream that is read a chunk at a time, and the stream after them.

What is held back is the start of what is left: the parts of a line, the chunk they end in and what the source still
has. A read takes one line off it, whatever the chunks, and a read that raises takes nothing.
-/
import Cosmic.Http.Input
import Mathlib.Data.List.TakeWhile

set_option autoImplicit false

namespace Cosmic.Stream

open Cosmic.Base List Option
open Cosmic.Http (Source line_cases findIdx?_lf findIdx?_no_lf drop_line)

/-! ## Readers -/

/-- A source, and which of its next reads raise. -/
structure Reader where
  source : Source
  raises : List Bool

/-- What a read answers, nothing where it raises. -/
def Reader.read (r : Reader) (max_bytes : ℕ) : Option (Except Bytes Bytes) × Reader :=
  if r.raises.head? = some true then (none, { r with raises := r.raises.tail })
  else
    match r.source.read max_bytes with
    | .error why => (some (.error why), { r with raises := r.raises.tail })
    | .ok (chunk, source) => (some (.ok chunk), { source, raises := r.raises.tail })

def chunk_size : ℕ := 2 ^ 16

def closed_reader : Bytes := lit "stream: the reader is closed"

/-- What `rest` reads from once it has given what was read ahead: the source, or how it ended. -/
inductive Under where
  | source (r : Reader)
  | spent (why : Bytes)

def Under.read : Under → ℕ → Option (Except Bytes Bytes) × Under
  | .source r, max_bytes => ((r.read max_bytes).1, .source (r.read max_bytes).2)
  | .spent why, _ => (some (.error why), .spent why)

/-- `PrependReader` -/
structure Prepend where
  front : Bytes
  under : Under
  at_ : ℕ
  closed : Bool

def prepend (front : Bytes) (under : Under) : Prepend := { front, under, at_ := 1, closed := false }

def Prepend.read (p : Prepend) (max_bytes : ℕ) : Option (Except Bytes Bytes) × Prepend :=
  if p.closed then (some (.error closed_reader), p)
  else if p.at_ ≤ p.front.length then
    if max_bytes = 0 then (some (.error []), p)
    else
      let chunk := (p.front.drop (p.at_ - 1)).take max_bytes
      (some (.ok chunk), { p with at_ := p.at_ + chunk.length })
  else ((p.under.read max_bytes).1, { p with under := (p.under.read max_bytes).2 })

/-! ## Lines -/

structure LineReader where
  source : Reader
  limit : ℕ+
  chunk : Bytes
  at_ : ℕ
  parts : List Bytes
  held : ℕ
  ended : Bool
  failed : Bytes
  rested : Bool

/-- `Stream.lines(reader, max_bytes)`, where `max_bytes` is no less than 1. -/
def lines (source : Reader) (limit : ℕ+) : LineReader where
  source := source
  limit := limit
  chunk := []
  at_ := 1
  parts := []
  held := 0
  ended := false
  failed := []
  rested := false

def too_long (limit : ℕ+) : Bytes :=
  lit "stream: a line is longer than " ++ tostring limit ++ (if (limit : ℕ) = 1 then lit " byte" else lit " bytes")

namespace LineReader

def fail (r : LineReader) (why : Bytes) : Option (Except Bytes Bytes) × LineReader :=
  (some (.error why), { r with failed := why, chunk := [], at_ := 1, parts := [], held := 0 })

/-- The line ends at the offset `i` of what is ahead. -/
def take_line (r : LineReader) (ahead : Bytes) (i : ℕ) : Option (Except Bytes Bytes) × LineReader :=
  if r.held + i > r.limit then r.fail (too_long r.limit)
  else
    let line := ahead.take i
    let r := { r with at_ := r.at_ + i + 1 }
    if r.held > 0 then (some (.ok (r.parts ++ [line]).flatten), { r with parts := [], held := 0 }) else (some (.ok line), r)

def hold (r : LineReader) (ahead : Bytes) : LineReader :=
  if ahead = [] then r else { r with held := r.held + ahead.length, parts := r.parts ++ [ahead] }

/-- The end, or another chunk. -/
def refill (r : LineReader) : Round LineReader (Option (Except Bytes Bytes) × LineReader) :=
  let r := { r with chunk := [], at_ := 1 }
  if r.ended then
    if r.held = 0 then .done (some (.error []), r)
    else .done (some (.ok r.parts.flatten), { r with parts := [], held := 0 })
  else
    match r.source.read chunk_size with
    | (none, source) => .done (none, { r with source })
    | (some (.error why), source) =>
      if why ≠ [] then .done ({ r with source }.fail why) else .next { r with source, ended := true }
    | (some (.ok chunk), source) => .next { r with source, chunk }

/-- One chunk searched for the line's end. -/
def round (r : LineReader) : Option (Round LineReader (Option (Except Bytes Bytes) × LineReader)) :=
  let ahead := r.chunk.drop (r.at_ - 1)
  match ahead.findIdx? (· == 10) with
  | some i => some (.done (r.take_line ahead i))
  | none =>
    if ahead ≠ [] ∧ (r.hold ahead).held > r.limit then some (.done ((r.hold ahead).fail (too_long r.limit)))
    else some (r.hold ahead).refill

def read (r : LineReader) : Option (Option (Except Bytes Bytes) × LineReader) :=
  if r.rested then some (none, r)
  else if r.failed ≠ [] then some (some (.error r.failed), r)
  else loop round (r.source.source.rest.length + 2) r

def rest (r : LineReader) : Prepend :=
  prepend (r.parts.flatten ++ r.chunk.drop (r.at_ - 1))
    (if r.failed ≠ [] ∨ r.ended then .spent r.failed else .source r.source)

/-- What the next `calls` reads answer, those that raise left out. -/
def run : ℕ → LineReader → Option (List (Except Bytes Bytes) × LineReader)
  | 0, r => some ([], r)
  | calls + 1, r => r.read.bind fun (answer, r) => (run calls r).map fun (answers, r) => (answer.toList ++ answers, r)

end LineReader

/-- What reads of `sizes` answer, those that raise left out. -/
def Prepend.run : List ℕ+ → Prepend → List (Except Bytes Bytes) × Prepend
  | [], p => ([], p)
  | size :: sizes, p =>
    let (answer, p) := p.read size
    let (answers, p) := Prepend.run sizes p
    (answer.toList ++ answers, p)

/-! ## What is left -/

/-- What is left of a text, and why nothing more of it is given. -/
structure Left where
  text : Bytes
  outcome : Option Bytes

/-- The next piece up to a line feed, or the end: none is longer than `limit`. -/
def Left.next (limit : ℕ+) (ending : Bytes) (l : Left) : Except Bytes Bytes × Left :=
  match l.outcome with
  | some why => (.error why, l)
  | none =>
    let piece := l.text.takeWhile (· != 10)
    if piece.length > limit then (.error (too_long limit), ⟨[], some (too_long limit)⟩)
    else if piece.length < l.text.length then (.ok piece, ⟨l.text.drop (piece.length + 1), none⟩)
    else if ending ≠ [] then (.error ending, ⟨[], some ending⟩)
    else if piece = [] then (.error [], l)
    else (.ok piece, ⟨[], none⟩)

def Left.run (limit : ℕ+) (ending : Bytes) : ℕ → Left → List (Except Bytes Bytes) × Left
  | 0, l => ([], l)
  | n + 1, l =>
    let (answer, l) := l.next limit ending
    let (answers, l) := Left.run limit ending n l
    (answer :: answers, l)

/-- A reader of lines that has `l` left. -/
structure Holds (limit : ℕ+) (ending : Bytes) (r : LineReader) (l : Left) : Prop where
  bound : r.limit = limit
  pos : 1 ≤ r.at_
  held : r.held = r.parts.flatten.length
  line : 10 ∉ r.parts.flatten
  within : r.held ≤ limit
  ends : r.source.source.ending = ending
  rested : r.rested = false
  failed : r.failed = l.outcome.getD []
  outcome : ∀ why ∈ l.outcome, why ≠ [] ∧ l.text = [] ∧ r.parts = [] ∧ r.chunk = []
  ended : r.ended → r.source.source.rest = [] ∧ ending = []
  left : l.outcome = none → l.text = r.parts.flatten ++ (r.chunk.drop (r.at_ - 1) ++ r.source.source.rest)

section

variable {limit : ℕ+} {ending : Bytes} {r : LineReader} {l : Left}

theorem takeWhile_lf {s t : Bytes} (h : 10 ∉ s) : (s ++ 10 :: t).takeWhile (· != 10) = s := by
  rw [takeWhile_append_of_pos fun _ hb => bne_iff_ne.mpr ?_]
  · rw [takeWhile_cons_of_neg (by decide), append_nil]
  · rintro rfl
    exact h hb

theorem Holds.fail (h : Holds limit ending r l) {why : Bytes} (hwhy : why ≠ []) : Holds limit ending (r.fail why).2 ⟨[], some why⟩ where
  bound := h.bound
  pos := le_rfl
  held := rfl
  line := not_mem_nil
  within := Nat.zero_le _
  ends := h.ends
  rested := h.rested
  failed := rfl
  outcome why' h' := by
    cases h'
    exact ⟨hwhy, rfl, rfl, rfl⟩
  ended := h.ended
  left h' := by cases h'

/-- What a read of a reader leaves: what it had, where it raised, or one piece less. -/
def Reads (limit : ℕ+) (ending : Bytes) (r : LineReader) (l : Left) (answered : Option (Except Bytes Bytes) × LineReader) : Prop :=
  (answered.1 = none ∧ Holds limit ending answered.2 l ∧ answered.2.source.raises.count true < r.source.raises.count true) ∨
    (answered.1 = some (l.next limit ending).1 ∧ Holds limit ending answered.2 (l.next limit ending).2 ∧
      answered.2.source.raises.count true ≤ r.source.raises.count true)

theorem next_line {piece t : Bytes} (h : 10 ∉ piece) : Left.next limit ending ⟨piece ++ 10 :: t, none⟩ =
    if piece.length > limit then (.error (too_long limit), ⟨[], some (too_long limit)⟩) else (.ok piece, ⟨t, none⟩) := by
  unfold Left.next
  simp only [takeWhile_lf h, drop_line]
  rw [if_pos (show piece.length < (piece ++ 10 :: t).length by
    rw [length_append, length_cons]
    omega)]

def Under.rest : Under → Bytes
  | .source r => r.source.rest
  | .spent _ => []

def Under.why : Under → Bytes
  | .source r => r.source.ending
  | .spent why => why

/-- How many reads may raise. -/
def Under.raises : Under → ℕ
  | .source r => r.raises.count true
  | .spent _ => 0

/-- The reader given by `rest`, where `left` is to come and then `why`. -/
structure Gives (why : Bytes) (p : Prepend) (left : Bytes) : Prop where
  pos : 1 ≤ p.at_
  closed : p.closed = false
  left : left = p.front.drop (p.at_ - 1) ++ p.under.rest
  why : why = p.under.why

/-- What was read of `left`: pieces from its start, and `why` where no more of it is left. -/
def Read (why : Bytes) : Bytes → List (Except Bytes Bytes) → Prop
  | _, [] => True
  | left, .error why' :: answers => left = [] ∧ why' = why ∧ Read why left answers
  | left, .ok chunk :: answers => chunk ≠ [] ∧ ∃ left', left = chunk ++ left' ∧ Read why left' answers

end

end Cosmic.Stream
