/-
A connection's bytes: the `Input` of `cosmic/http/wire.tl`, and what it is read with.

A source is a stream and the sizes its reads are cut in, any that are not zero; a read asking for less
gets less. It ends as `ending` says, "" for a stream that is whole. Where the bytes held that are not
taken start, `at_`, is an offset from 0; the source's positions are from 1.
-/
import Cosmic.Base.Loop
import Cosmic.Base.Text
import Mathlib.Data.PNat.Basic

set_option autoImplicit false

namespace Cosmic.Http

open Cosmic.Base List Option

/-- What a single read of the source asks for at most. -/
def CHUNK : ℕ := 64 * 1024

/-- The bounds one request is read under. -/
structure Limits where
  head_bytes : ℤ
  body_bytes : ℤ

/-- Where the bytes come from: those still to come, the sizes they come in, and how they end. -/
structure Source where
  rest : Bytes
  cuts : List ℕ+
  ending : Bytes

/-- The most bytes that the next read gives. -/
def Source.cut (source : Source) : ℕ :=
  match source.cuts with
  | [] => source.rest.length
  | cut :: _ => cut

/-- One byte or more, `max_bytes` at most; or how the stream ends. -/
def Source.read (source : Source) (max_bytes : ℕ) : Except Bytes (Bytes × Source) :=
  if source.rest = [] then .error source.ending
  else
    let size := min max_bytes source.cut
    .ok (source.rest.take size, { source with rest := source.rest.drop size, cuts := source.cuts.tail })

/-- A connection's bytes, read ahead. -/
structure Input where
  source : Source
  buf : Bytes
  at_ : ℕ
  taken : ℕ
  long : Bool

/-- `wire.input` -/
def input (source : Source) : Input := ⟨source, [], 0, 0, false⟩

namespace Input

/-- Whether bytes are held that were read and not taken. -/
def buffered (input : Input) : Bool := input.at_ < input.buf.length

/-- The bytes not yet taken: those held, and those still to come. -/
def pending (input : Input) : Bytes := input.buf.drop input.at_ ++ input.source.rest

/-- Reads one chunk when none is held: why, "" at the end, where there is none. -/
def fill (input : Input) : Except Bytes Unit × Input :=
  if input.buffered then (.ok (), input)
  else
    match input.source.read CHUNK with
    | .error why => (.error why, input)
    | .ok (chunk, source) => (.ok (), { input with source, buf := chunk, at_ := 0 })

/-- Up to `most` bytes, from what is held first, then from the source. -/
def take (input : Input) (most : ℕ) : Except Bytes Bytes × Input :=
  if input.buffered then
    let piece := (input.buf.drop input.at_).take most
    (.ok piece, { input with at_ := input.at_ + piece.length, taken := input.taken + piece.length })
  else
    match input.source.read (min most CHUNK) with
    | .error why => (.error why, input)
    | .ok (chunk, source) => (.ok chunk, { input with source, taken := input.taken + chunk.length })

/-- A line that is being read: the input, the parts of the line, and its size so far. -/
structure Line where
  input : Input
  parts : List Bytes
  size : ℕ

/-- One chunk searched for the line's end. -/
def line_round (budget : ℤ) (st : Line) : Option (Round Line (Except Bytes Bytes × Input)) :=
  let input := st.input
  let held := input.buf.drop input.at_
  let lf := held.findIdx? (· == 10)
  let stop := lf.getD held.length
  let size := st.size + stop + if lf.isSome then 1 else 0
  if (size : ℤ) > budget then
    some (.done (.error (lit "a line passes the bytes left of limits.head_bytes"), { input with long := true }))
  else
    let parts := st.parts ++ [held.take stop]
    let input := { input with taken := input.taken + stop + if lf.isSome then 1 else 0 }
    if lf.isSome then some (.done (.ok parts.flatten, { input with at_ := input.at_ + stop + 1 }))
    else
      match input.source.read CHUNK with
      | .error why => some (.done (.error why, { input with buf := [], at_ := 0 }))
      | .ok (chunk, source) => some (.next ⟨{ input with source, buf := chunk, at_ := 0 }, parts, size⟩)

/-- The next line, its LF taken and not answered: why not once it would take more than `budget` bytes
with its LF, `long` set, or where the source ends first. Each chunk takes a byte at least of what is to
come. -/
def line (input : Input) (budget : ℤ) : Option (Except Bytes Bytes × Input) :=
  loop (line_round budget) (input.source.rest.length + 1) ⟨{ input with long := false }, [], 0⟩

end Input

/-!
What is read of an input, whatever the cuts of its source.

A line is that of the bytes pending, and a piece is bytes from their start, so that two inputs with the
same bytes pending are read alike.
-/

/-! ## The source -/

theorem Source.read_ok {source : Source} (h : source.rest ≠ []) {max_bytes : ℕ} (hmax : 0 < max_bytes) :
    ∃ chunk source', source.read max_bytes = .ok (chunk, source') ∧ source.rest = chunk ++ source'.rest ∧
      chunk ≠ [] ∧ chunk.length ≤ max_bytes ∧ source'.ending = source.ending := by
  have hcut : 0 < source.cut := by
    unfold Source.cut
    cases source.cuts with
    | nil => exact length_pos_iff.mpr h
    | cons cut cuts => exact cut.pos
  unfold Source.read
  rw [if_neg h]
  refine ⟨_, _, rfl, (take_append_drop _ _).symm, ?_, ?_, rfl⟩
  · intro hnil
    rcases take_eq_nil_iff.mp hnil with hzero | hrest
    · omega
    · exact h hrest
  · exact Nat.le_trans (length_take_le _ _) (Nat.min_le_left _ _)

theorem Source.read_error {source : Source} (h : source.rest = []) (max_bytes : ℕ) :
    source.read max_bytes = .error source.ending := if_pos h

/-! ## Lines of bytes -/

/-- What reading a line of bytes comes to. -/
inductive LineOf where
  /-- It would take more than the budget. -/
  | long
  /-- The bytes end first. -/
  | ended
  | got (text rest : Bytes)

def line_of (s : Bytes) (budget : ℤ) : LineOf :=
  match s.findIdx? (· == 10) with
  | some i => if ((i + 1 : ℕ) : ℤ) > budget then .long else .got (s.take i) (s.drop (i + 1))
  | none => if (s.length : ℤ) > budget then .long else .ended

theorem findIdx?_lf {text : Bytes} (h : 10 ∉ text) (rest : Bytes) :
    (text ++ 10 :: rest).findIdx? (· == 10) = some text.length := by
  have hnone : text.findIdx? (· == 10) = none := by
    rw [findIdx?_eq_none_iff]
    intro b hb
    exact beq_eq_false_iff_ne.mpr fun heq => h (heq ▸ hb)
  rw [findIdx?_append, hnone, findIdx?_cons]
  simp

theorem findIdx?_no_lf {s : Bytes} (h : 10 ∉ s) : s.findIdx? (· == 10) = none := by
  rw [findIdx?_eq_none_iff]
  intro b hb
  exact beq_eq_false_iff_ne.mpr fun heq => h (heq ▸ hb)

theorem drop_line (text rest : Bytes) : (text ++ 10 :: rest).drop (text.length + 1) = rest := by
  rw [append_cons, drop_left' (by simp)]

theorem line_of_line {text : Bytes} (h : 10 ∉ text) (rest : Bytes) (budget : ℤ) :
    line_of (text ++ 10 :: rest) budget =
      if ((text.length + 1 : ℕ) : ℤ) > budget then .long else .got text rest := by
  unfold line_of
  rw [findIdx?_lf h]
  dsimp only
  rw [take_left, drop_line]

theorem line_of_rest {s : Bytes} (h : 10 ∉ s) (budget : ℤ) :
    line_of s budget = if (s.length : ℤ) > budget then .long else .ended := by
  unfold line_of
  rw [findIdx?_no_lf h]

theorem line_cases (s : Bytes) : 10 ∉ s ∨ ∃ text rest, s = text ++ 10 :: rest ∧ 10 ∉ text := by
  by_cases h : 10 ∈ s
  · right
    obtain ⟨text, rest, hs, hnot⟩ := eq_append_cons_of_mem h
    exact ⟨text, rest, hs, hnot⟩
  · exact .inl h

theorem line_of_long {s : Bytes} (h : 10 ∉ s) {budget : ℤ} (hlong : budget < s.length) (t : Bytes) :
    line_of (s ++ t) budget = .long := by
  rcases line_cases t with ht | ⟨text, rest, rfl, ht⟩
  · have hnot : 10 ∉ s ++ t := fun hmem => (mem_append.mp hmem).elim h ht
    rw [line_of_rest hnot, length_append, if_pos (by omega)]
  · have hnot : 10 ∉ s ++ text := fun hmem => (mem_append.mp hmem).elim h ht
    rw [← append_assoc, line_of_line hnot, length_append, if_pos (by omega)]

theorem line_of_got {s text rest : Bytes} {budget : ℤ} (h : line_of s budget = .got text rest) :
    s = text ++ 10 :: rest ∧ 10 ∉ text ∧ ((text.length + 1 : ℕ) : ℤ) ≤ budget := by
  rcases line_cases s with hs | ⟨text', rest', rfl, hs⟩
  · rw [line_of_rest hs] at h
    split at h <;> cases h
  rw [line_of_line hs] at h
  by_cases hlong : ((text'.length + 1 : ℕ) : ℤ) > budget
  · rw [if_pos hlong] at h
    cases h
  · rw [if_neg hlong] at h
    obtain ⟨rfl, rfl⟩ := LineOf.got.inj h
    exact ⟨rfl, hs, by omega⟩

/-! ## Reading -/

namespace Input

/-- `k` bytes were taken between two states of an input. -/
structure Took (input input' : Input) (k : ℕ) : Prop where
  taken : input'.taken = input.taken + k
  ending : input'.source.ending = input.source.ending
  pending : input'.pending = input.pending.drop k

def Answers (input : Input) : LineOf → Except Bytes Bytes × Input → Prop
  | .long, answer => answer.1 = .error (lit "a line passes the bytes left of limits.head_bytes") ∧
      answer.2.long = true
  | .ended, answer => answer.1 = .error input.source.ending ∧ answer.2.long = false ∧
      Took input answer.2 input.pending.length
  | .got text _, answer => answer.1 = .ok text ∧ answer.2.long = false ∧
      Took input answer.2 (text.length + 1)

/-- A line that is being read of `input`. -/
structure Holds (input : Input) (budget : ℤ) (st : Line) : Prop where
  size : st.size = st.parts.flatten.length
  taken : st.input.taken = input.taken + st.size
  ending : st.input.source.ending = input.source.ending
  long : st.input.long = false
  pending : input.pending = st.parts.flatten ++ st.input.pending
  no_lf : 10 ∉ st.parts.flatten

theorem line_round_spec {input : Input} {budget : ℤ} {st : Line} (h : Holds input budget st) :
    Advances (line_round budget) (Holds input budget) (fun st => st.input.source.rest.length)
      (Answers input (line_of input.pending budget)) st := by
  obtain ⟨hsize, htaken, hending, hlong, hpending, hno⟩ := h
  unfold Advances line_round
  dsimp only
  generalize hheld : st.input.buf.drop st.input.at_ = held
  have hst : st.input.pending = held ++ st.input.source.rest := by rw [pending, hheld]
  rw [hst] at hpending
  rcases line_cases held with hnot | ⟨text, rest, rfl, hnot⟩
  · -- the chunk holds no LF
    have hparts : 10 ∉ st.parts.flatten ++ held :=
      fun hmem => (mem_append.mp hmem).elim hno hnot
    rw [← append_assoc] at hpending
    rw [findIdx?_no_lf hnot]
    simp only [getD_none, isSome_none, Bool.false_eq_true, if_false, Nat.add_zero]
    by_cases hover : ((st.size + held.length : ℕ) : ℤ) > budget
    · rw [if_pos hover]
      refine .inr ⟨_, rfl, ?_⟩
      rw [hpending, line_of_long hparts (by rw [length_append, ← hsize]; omega)]
      exact ⟨rfl, rfl⟩
    rw [if_neg hover]
    by_cases hrest : st.input.source.rest = []
    · have hread : ({ st.input with taken := st.input.taken + held.length } : Input).source.read CHUNK =
          .error st.input.source.ending := Source.read_error hrest _
      rw [hread]
      refine .inr ⟨_, rfl, ?_⟩
      rw [hrest, append_nil] at hpending
      rw [hpending, line_of_rest hparts, if_neg (by rw [length_append, ← hsize]; omega)]
      refine ⟨by rw [hending], hlong, ?_, hending, ?_⟩
      · rw [hpending, length_append, ← hsize]
        dsimp only
        omega
      · rwa [drop_length]
    · obtain ⟨chunk, source', hread, hchunk, hne, -, hend⟩ := Source.read_ok hrest (by decide : 0 < CHUNK)
      have hread' : ({ st.input with taken := st.input.taken + held.length } : Input).source.read CHUNK =
          .ok (chunk, source') := hread
      rw [hread']
      refine .inl ⟨_, rfl, ⟨?_, ?_, ?_, hlong, ?_, ?_⟩, ?_⟩
      · rw [flatten_append, length_append, hsize, take_length]
        simp
      · dsimp only
        omega
      · rw [hend, hending]
      · rw [hpending, hchunk]
        simp [pending]
      · simpa using hparts
      · dsimp only
        have hpos := length_pos_iff.mpr hne
        rw [hchunk, length_append]
        omega
  · -- the chunk holds the line's end
    have hparts : 10 ∉ st.parts.flatten ++ text :=
      fun hmem => (mem_append.mp hmem).elim hno hnot
    have hline : input.pending = (st.parts.flatten ++ text) ++ 10 :: (rest ++ st.input.source.rest) := by
      rw [hpending]
      simp
    rw [findIdx?_lf hnot]
    simp only [getD_some, isSome_some, if_true]
    by_cases hover : ((st.size + text.length + 1 : ℕ) : ℤ) > budget
    · rw [if_pos hover]
      refine .inr ⟨_, rfl, ?_⟩
      rw [hline, line_of_line hparts, if_pos (by rw [length_append, ← hsize]; exact hover)]
      exact ⟨rfl, rfl⟩
    rw [if_neg hover]
    refine .inr ⟨_, rfl, ?_⟩
    rw [hline, line_of_line hparts, if_neg (by rw [length_append, ← hsize]; exact hover)]
    refine ⟨?_, hlong, ?_, hending, ?_⟩
    · rw [flatten_append, take_left]
      simp
    · rw [length_append, ← hsize]
      dsimp only
      omega
    · have hdrop : st.input.buf.drop (st.input.at_ + text.length + 1) = rest := by
        rw [Nat.add_assoc, ← drop_drop, hheld, drop_line]
      rw [pending, hdrop, hline, drop_line]

theorem line_spec (input : Input) (budget : ℤ) :
    ∃ answer, input.line budget = some answer ∧ Answers input (line_of input.pending budget) answer :=
  loop_total (fun _ h => line_round_spec h) _ _ ⟨rfl, rfl, rfl, rfl, rfl, by simp⟩ (Nat.lt_succ_self _)

theorem pending_buffered {input : Input} (h : input.buffered = true) : input.buf.drop input.at_ ≠ [] := by
  intro hnil
  have hlt : input.at_ < input.buf.length := of_decide_eq_true h
  exact absurd (drop_eq_nil_iff.mp hnil) (by omega)

theorem pending_unbuffered {input : Input} (h : ¬input.buffered = true) : input.pending = input.source.rest := by
  have hle : input.buf.length ≤ input.at_ := Nat.le_of_not_lt fun hlt => h (decide_eq_true hlt)
  rw [pending, drop_eq_nil_iff.mpr hle, nil_append]

/-- Filling an input takes nothing. -/
theorem fill_spec (input : Input) : Took input input.fill.2 0 ∧
      ((input.pending = [] ∧ input.fill.1 = .error input.source.ending) ∨
        input.pending ≠ [] ∧ input.fill.1 = .ok ()) := by
  unfold fill
  by_cases hbuffered : input.buffered = true
  · rw [if_pos hbuffered]
    refine ⟨⟨rfl, rfl, rfl⟩, .inr ⟨?_, rfl⟩⟩
    intro hnil
    exact pending_buffered hbuffered (append_eq_nil_iff.mp hnil).1
  · rw [if_neg hbuffered]
    have hpending := pending_unbuffered hbuffered
    by_cases hrest : input.source.rest = []
    · rw [Source.read_error hrest]
      exact ⟨⟨rfl, rfl, rfl⟩, .inl ⟨hpending.trans hrest, rfl⟩⟩
    · obtain ⟨chunk, source', hread, hchunk, -, -, hend⟩ := Source.read_ok hrest (by decide : 0 < CHUNK)
      rw [hread]
      refine ⟨⟨rfl, hend, ?_⟩, .inr ⟨hpending ▸ hrest, rfl⟩⟩
      rw [hpending, hchunk]
      rfl

end Input

end Cosmic.Http
