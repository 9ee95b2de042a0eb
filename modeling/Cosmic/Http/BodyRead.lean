/-
A request's body, decoded as it is read: `BodyReader` and `wire.body` of `cosmic/http/wire.tl`.

A read size is a number from 1, or none for the reader's own; the source raises on any other. What the
server does at a body's first read, which is no reading, is left out.
-/
import Cosmic.Http.HeadRead

set_option autoImplicit false

namespace Cosmic.Http

open Cosmic.Base
open Cosmic.Wire (isSpecial isLineBlank)

inductive BodyState where
  | opened
  | done
  | over
  | bad
  | failed
  deriving DecidableEq, Repr

inductive Phase where
  | size
  | data
  | data_end
  | trailers
  deriving DecidableEq, Repr

/-- A body that is read: its head's bytes, `spent`, grow with what a chunked one spends of them. -/
structure BodyReader where
  input : Input
  limits : Limits
  chunked : Bool
  spent : ℕ
  left : ℕ
  phase : Phase
  total : ℕ
  failure : Bytes
  closed : Bool
  touched : Bool
  state : BodyState

def EARLY : Bytes := lit "http: the request body ended early"

def META_OVER : Bytes := lit "http: a chunked body's extensions and trailers pass limits.head_bytes"

def BODY_OVER : Bytes := lit "http: the body is longer than limits.body_bytes"

/-- What a chunk size line's `^(%x+)(.*)$` captures. -/
def size_parts (text : Bytes) : Option (Bytes × Bytes) :=
  if text.takeWhile isHex = [] then none else some (text.takeWhile isHex, text.dropWhile isHex)

/-- Whether `rest` is what may follow a chunk's size. -/
def is_extension (rest : Bytes) : Bool :=
  rest = [] ∨ ((rest.dropWhile isLineBlank).head? = some 59 ∧ ¬rest.any isSpecial)

namespace BodyReader

def fail {α : Type} (self : BodyReader) (state : BodyState) (why : Bytes) : Except Bytes α × BodyReader :=
  (.error why, { self with state, failure := why })

/-- A chunked body's next line, ended by CRLF. -/
def meta_line (self : BodyReader) : Option (Except Bytes Bytes × BodyReader) :=
  match self.input.line self.limits.head_bytes with
  | none => none
  | some (.error why, input) =>
    let self := { self with input }
    some (if input.long then self.fail .over META_OVER
      else self.fail .failed (if why ≠ [] then why else EARLY))
  | some (.ok text, input) =>
    let self := { self with input }
    if text.getLast? ≠ some 13 then
      some (self.fail .bad (lit "http: a chunked body's line ends in a bare LF"))
    else
      match without_cr text with
      | none => some (self.fail .bad (lit "http: a chunked body holds a bare CR"))
      | some bare => some (.ok bare, self)

def chunk_size (self : BodyReader) (text : Bytes) : Except Bytes Unit × BodyReader :=
  match size_parts text with
  | none => self.fail .bad (lit "http: a chunk's size is not hex")
  | some (hex, rest) =>
    if ¬is_extension rest then self.fail .bad (lit "http: a chunk's extension is malformed")
    else
      let digits := hex.length
      let hex := hex.dropWhile (· == 48)
      let self := { self with spent := self.spent + rest.length + (digits - hex.length - 1) }
      if (self.spent : ℤ) > self.limits.head_bytes then self.fail .over META_OVER
      else if hex.length > 15 then self.fail .over BODY_OVER
      else
        let size := digits_value 16 hex
        if size = 0 then (.ok (), { self with phase := .trailers })
        else if (size : ℤ) > self.limits.body_bytes - self.total then self.fail .over BODY_OVER
        else (.ok (), { self with left := size, phase := .data })

def next_chunk (self : BodyReader) : Option (Except Bytes Unit × BodyReader) :=
  match self.meta_line with
  | none => none
  | some (.error why, self) => some (.error why, self)
  | some (.ok text, self) => some (self.chunk_size text)

/-- One trailer, or the blank line after them. -/
def trailer_round (self : BodyReader) : Option (Round BodyReader (Except Bytes Unit × BodyReader)) :=
  match self.meta_line with
  | none => none
  | some (.error why, self) => some (.done (.error why, self))
  | some (.ok text, self) =>
    if text = [] then some (.done (.ok (), { self with state := .done }))
    else
      let self := { self with spent := self.spent + text.length + 2 }
      if (self.spent : ℤ) > self.limits.head_bytes then some (.done (self.fail .over META_OVER))
      else
        match field text with
        | .error why => some (.done (self.fail .bad (lit "http: a trailer is malformed: " ++ why)))
        | .ok _ => some (.next self)

/-- Reads a chunked body's trailers, checked as header lines and dropped. -/
def trailers (self : BodyReader) : Option (Except Bytes Unit × BodyReader) :=
  loop trailer_round (self.input.pending.length + 1) self

def take_data (self : BodyReader) (most : ℕ) : Except Bytes Bytes × BodyReader :=
  match self.input.take (min most self.left) with
  | (.error why, input) => { self with input }.fail .failed (if why ≠ [] then why else EARLY)
  | (.ok piece, input) =>
    (.ok piece, { self with input, left := self.left - piece.length, total := self.total + piece.length })

/-- One phase of a chunked body, by a read of `most` bytes. -/
def read_round (most : ℕ) (self : BodyReader) : Option (Round BodyReader (Except Bytes Bytes × BodyReader)) :=
  match self.phase with
  | .size =>
    match self.next_chunk with
    | none => none
    | some (.error why, self) => some (.done (.error why, self))
    | some (.ok (), self) => some (.next self)
  | .data =>
    match self.take_data most with
    | (.error why, self) => some (.done (.error why, self))
    | (.ok piece, self) =>
      some (.done (.ok piece, if self.left = 0 then { self with phase := .data_end } else self))
  | .data_end =>
    match self.meta_line with
    | none => none
    | some (.error why, self) => some (.done (.error why, self))
    | some (.ok text, self) =>
      if text ≠ [] then some (.done (self.fail .bad (lit "http: a chunk's data runs past its size")))
      else some (.next { self with phase := .size })
  | .trailers =>
    match self.trailers with
    | none => none
    | some (.error why, self) => some (.done (.error why, self))
    | some (.ok (), self) => some (.done (.error [], self))

def read (self : BodyReader) (max_bytes : Option ℕ+) : Option (Except Bytes Bytes × BodyReader) :=
  if self.closed then some (.error (lit "http: the request body is closed"), self)
  else if self.failure ≠ [] then some (.error self.failure, self)
  else if self.state = .done then some (.error [], self)
  else
    let most : ℕ := (max_bytes.map PNat.val).getD CHUNK
    let self := { self with touched := true }
    if ¬self.chunked then
      if self.left = 0 then some (.error [], { self with state := .done })
      else
        match self.take_data most with
        | (.error why, self) => some (.error why, self)
        | (.ok piece, self) => some (.ok piece, if self.left = 0 then { self with state := .done } else self)
    else loop (read_round most) (self.input.pending.length + 1) self

def close (self : BodyReader) : BodyReader := { self with closed := true }

def drain_round (self : BodyReader) : Option (Round BodyReader BodyReader) :=
  if self.state ≠ .opened then some (.done self)
  else
    match self.read none with
    | none => none
    | some (.error _, self) => some (.done self)
    | some (.ok _, self) => some (.next self)

/-- Reads to the end, discarding, past a close: whether the body is done. -/
def drain (self : BodyReader) : Option (Bool × BodyReader) :=
  match loop drain_round (self.input.pending.length + 1) { self with closed := false } with
  | none => none
  | some r => some (decide (r.state = .done), { r with closed := self.closed })

end BodyReader

/-- The body of the request `head` describes. -/
def body (input : Input) (head : Head) (limits : Limits) : BodyReader :=
  { input, limits, chunked := head.chunked, spent := head.spent, left := head.length.getD 0
    phase := .size, total := 0, failure := [], closed := false, touched := false
    state := if ¬head.chunked ∧ head.length.getD 0 = 0 then .done else .opened }

end Cosmic.Http

/-!
A request's body, read of an input whatever the cuts of its source and the sizes of its reads.

What a body holds is a matter of the bytes pending: a step over them takes a line of its framing, or all
the data of a chunk. A read takes such steps, and some of the data of one, so that the reads of a body
come to what the steps do.
-/

namespace Cosmic.Http

open Cosmic.Base

/-! ## Steps over bytes -/

/-- How far a body is decoded. -/
structure Core where
  chunked : Bool
  phase : Phase
  left : ℕ
  total : ℕ
  spent : ℕ

/-- What a body holds: its bytes, how it ends and why, and what follows one that is done. -/
structure Decoded where
  bytes : Bytes
  state : BodyState
  failure : Bytes
  rest : Bytes

def failing (state : BodyState) (why : Bytes) : Decoded := ⟨[], state, why, []⟩

/-- One step over the bytes of a body, or its end. -/
inductive Advance where
  | next (core : Core) (rest out : Bytes)
  | stop (d : Decoded)

/-- Why a body fails where the stream ends. -/
def early (ending : Bytes) : Bytes := if ending ≠ [] then ending else EARLY

section

variable (limits : Limits) (ending : Bytes)

def meta_of (s : Bytes) : Except (BodyState × Bytes) (Bytes × Bytes) :=
  match line_of s limits.head_bytes with
  | .long => .error (.over, META_OVER)
  | .ended => .error (.failed, early ending)
  | .got text rest =>
    if text.getLast? ≠ some 13 then .error (.bad, lit "http: a chunked body's line ends in a bare LF")
    else
      match without_cr text with
      | none => .error (.bad, lit "http: a chunked body holds a bare CR")
      | some bare => .ok (bare, rest)

/-- A chunk's size line. -/
def size_of (core : Core) (text : Bytes) : Except (BodyState × Bytes) Core :=
  match size_parts text with
  | none => .error (.bad, lit "http: a chunk's size is not hex")
  | some (hex, rest) =>
    if ¬is_extension rest then .error (.bad, lit "http: a chunk's extension is malformed")
    else
      let digits := hex.length
      let hex := hex.dropWhile (· == 48)
      let core := { core with spent := core.spent + rest.length + (digits - hex.length - 1) }
      if (core.spent : ℤ) > limits.head_bytes then .error (.over, META_OVER)
      else if hex.length > 15 then .error (.over, BODY_OVER)
      else
        let size := digits_value 16 hex
        if size = 0 then .ok { core with phase := .trailers }
        else if (size : ℤ) > limits.body_bytes - core.total then .error (.over, BODY_OVER)
        else .ok { core with left := size, phase := .data }

/-- A line of the trailers: the end, or one more that is spent. -/
def trailer_of (core : Core) (text : Bytes) : Except (BodyState × Bytes) Core :=
  let core := { core with spent := core.spent + text.length + 2 }
  if (core.spent : ℤ) > limits.head_bytes then .error (.over, META_OVER)
  else
    match field text with
    | .error why => .error (.bad, lit "http: a trailer is malformed: " ++ why)
    | .ok _ => .ok core

/-- What a line of the framing makes of a body in a phase other than its data. -/
def line_step (core : Core) (text rest : Bytes) : Advance :=
  match core.phase with
  | .size =>
    match size_of limits core text with
    | .error (state, why) => .stop (failing state why)
    | .ok core => .next core rest []
  | .trailers =>
    if text = [] then .stop ⟨[], .done, [], rest⟩
    else
      match trailer_of limits core text with
      | .error (state, why) => .stop (failing state why)
      | .ok core => .next core rest []
  | _ =>
    if text ≠ [] then .stop (failing .bad (lit "http: a chunk's data runs past its size"))
    else .next { core with phase := .size } rest []

/-- One step. -/
def advance (core : Core) (s : Bytes) : Advance :=
  if ¬core.chunked then
    if core.left ≤ s.length then .stop ⟨s.take core.left, .done, [], s.drop core.left⟩
    else .stop ⟨s, .failed, early ending, []⟩
  else if core.phase = .data then
    if core.left ≤ s.length then
      .next { core with phase := .data_end, left := 0, total := core.total + core.left }
        (s.drop core.left) (s.take core.left)
    else .stop ⟨s, .failed, early ending, []⟩
  else
    match meta_of limits ending s with
    | .error (state, why) => .stop (failing state why)
    | .ok (text, rest) => line_step limits core text rest

/-- What the steps from a state come to. -/
inductive Decodes : Core → Bytes → Decoded → Prop
  | stop {core : Core} {s : Bytes} {d : Decoded} (h : advance limits ending core s = .stop d) :
      Decodes core s d
  | step {core core' : Core} {s rest out : Bytes} {d : Decoded}
      (h : advance limits ending core s = .next core' rest out) (hrest : Decodes core' rest d) :
      Decodes core s { d with bytes := out ++ d.bytes }

end

variable {limits : Limits} {ending : Bytes}

/-- Bytes hold one body. -/
theorem Decodes.unique {core : Core} {s : Bytes} {d d' : Decoded} (h : Decodes limits ending core s d)
    (h' : Decodes limits ending core s d') : d = d' := by
  induction h generalizing d' with
  | stop h =>
    cases h' with
    | stop h' => exact Advance.stop.inj (h.symm.trans h')
    | step h' hrest' => exact absurd (h.symm.trans h') (by simp)
  | step h hrest ih =>
    cases h' with
    | stop h' => exact absurd (h.symm.trans h') (by simp)
    | step h' hrest' =>
      obtain ⟨rfl, rfl, rfl⟩ := Advance.next.inj (h.symm.trans h')
      rw [ih hrest']

theorem advance_data (limits : Limits) (ending : Bytes) (core : Core) (hchunked : core.chunked = true)
    (hphase : core.phase = .data) (s : Bytes) :
    advance limits ending core s = if core.left ≤ s.length then
      .next { core with phase := .data_end, left := 0, total := core.total + core.left }
        (s.drop core.left) (s.take core.left)
      else .stop ⟨s, .failed, early ending, []⟩ := by
  unfold advance
  rw [if_neg (not_not.mpr hchunked), if_pos hphase]

theorem advance_plain (limits : Limits) (ending : Bytes) (core : Core) (hplain : core.chunked = false) (s : Bytes) :
    advance limits ending core s = if core.left ≤ s.length then
      .stop ⟨s.take core.left, .done, [], s.drop core.left⟩ else .stop ⟨s, .failed, early ending, []⟩ := by
  unfold advance
  rw [if_pos (by rw [hplain]; decide)]

section

variable {core : Core} {p s : Bytes} {d : Decoded}

theorem Decodes.piece (hchunked : core.chunked = true) (hphase : core.phase = .data) (hp : p.length < core.left)
    (h : Decodes limits ending { core with left := core.left - p.length, total := core.total + p.length } s d) :
    Decodes limits ending core (p ++ s) { d with bytes := p ++ d.bytes } := by
  have hbefore := advance_data limits ending core hchunked hphase (p ++ s)
  have hafter := advance_data limits ending
    { core with left := core.left - p.length, total := core.total + p.length } hchunked hphase s
  by_cases hle : core.left - p.length ≤ s.length
  · rw [if_pos (by rw [List.length_append]; omega), List.take_append, List.take_of_length_le (by omega),
      List.drop_append, List.drop_eq_nil_iff.mpr (by omega), List.nil_append] at hbefore
    rw [if_pos hle] at hafter
    cases h with
    | stop hstop => exact absurd (hafter.symm.trans hstop) (by simp)
    | step hstep hrest =>
      obtain ⟨rfl, rfl, rfl⟩ := Advance.next.inj (hafter.symm.trans hstep)
      have htotal : core.total + p.length + (core.left - p.length) = core.total + core.left := by omega
      rw [htotal] at hrest
      have hdecodes := Decodes.step hbefore hrest
      rwa [List.append_assoc] at hdecodes
  · rw [if_neg (by rw [List.length_append]; omega)] at hbefore
    rw [if_neg hle] at hafter
    rw [h.unique (.stop hafter)]
    exact .stop hbefore

end

/-! ## Steps of a reader -/

namespace BodyReader

variable {self self' : BodyReader}

def core (self : BodyReader) : Core := ⟨self.chunked, self.phase, self.left, self.total, self.spent⟩

structure Opened (now : BodyReader) : Prop where
  closed : now.closed = false
  failure : now.failure = []
  state : now.state = .opened
  left : now.chunked = true → now.phase = .data → 0 < now.left

def Holds (self : BodyReader) (d : Decoded) : Prop :=
  Decodes self.limits self.input.source.ending self.core self.input.pending d

def ended (self : BodyReader) : Decoded :=
  ⟨[], self.state, self.failure, if self.state = .done then self.input.pending else []⟩

/-- A reading of `before` that ends the body leaves `now`. -/
structure Ends (before now : BodyReader) : Prop where
  closed : now.closed = false
  state : now.state ≠ .opened
  failed : now.state ≠ .done → now.failure ≠ []
  ending : now.state = .done → now.input.source.ending = before.input.source.ending
  holds : before.Holds now.ended

structure Refuses {α : Type} (how : BodyState) (text : Bytes) (answer : Except Bytes α × BodyReader) : Prop where
  error : answer.1 = .error text
  closed : answer.2.closed = false
  state : answer.2.state = how
  failure : answer.2.failure = text
  opened : how ≠ .opened
  done : how ≠ .done
  why : text ≠ []

theorem Refuses.ends {α : Type} {state : BodyState} {why : Bytes} {answer : Except Bytes α × BodyReader}
    (h : Refuses state why answer)
    (hadvance : advance self.limits self.input.source.ending self.core self.input.pending =
      .stop (failing state why)) : self.Ends answer.2 := by
  have hdone : answer.2.state ≠ .done := h.state ▸ h.done
  refine ⟨h.closed, h.state ▸ h.opened, fun _ => h.failure ▸ h.why, fun heq => absurd heq hdone, ?_⟩
  have hended : answer.2.ended = failing state why := by
    unfold ended failing
    rw [h.state, h.failure, if_neg h.done]
  rw [hended]
  exact .stop hadvance

section

variable {state : BodyState} {why text rest : Bytes}

end

/-- What the bytes of a later reader hold, those of an earlier one do. -/
structure From (before now : BodyReader) : Prop where
  limits : now.limits = before.limits
  ending : now.input.source.ending = before.input.source.ending
  chunked : now.chunked = before.chunked
  less : now.input.pending.length ≤ before.input.pending.length
  holds : ∀ d, now.Holds d → before.Holds d

theorem From.refl (self : BodyReader) : From self self := ⟨rfl, rfl, rfl, Nat.le_refl _, fun _ h => h⟩

theorem From.trans {now later : BodyReader} (h : From self now) (h' : From now later) : From self later :=
  ⟨h'.limits.trans h.limits, h'.ending.trans h.ending, h'.chunked.trans h.chunked, h'.less.trans h.less,
    fun d hd => h.holds d (h'.holds d hd)⟩

theorem From.ends {now now' : BodyReader} (h : From self now) (h' : Ends now now') : Ends self now' :=
  ⟨h'.closed, h'.state, h'.failed, fun hdone => (h'.ending hdone).trans h.ending, h.holds _ h'.holds⟩

/-- A reading of `before` comes to the end of its trailers. -/
def Finishes (before : BodyReader) (answer : Except Bytes Unit × BodyReader) : Prop :=
  Ends before answer.2 ∧ ((answer.1 = .ok () ∧ answer.2.failure = []) ∨ answer.1 = .error answer.2.failure)

end BodyReader

end Cosmic.Http
