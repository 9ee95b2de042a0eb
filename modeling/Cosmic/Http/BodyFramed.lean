/-
The framing of a body that is read whole: the bytes taken for it are its framing, and no more.
-/
import Cosmic.Http.BodyRead
import Mathlib.Data.List.TakeWhile

set_option autoImplicit false

namespace Cosmic.Http

open Cosmic.Base List
open Cosmic.Wire (isLineBlank)

variable {limits : Limits} {ending : Bytes} {core core' : Core} {s rest out text : Bytes}

/-! ## Lines -/

theorem meta_of_ok (h : meta_of limits ending s = .ok (text, rest)) : s = text ++ 13 :: 10 :: rest ∧ 13 ∉ text := by
  unfold meta_of at h
  cases hof : line_of s limits.head_bytes with
  | long =>
    rw [hof] at h
    cases h
  | ended =>
    rw [hof] at h
    cases h
  | got line rest' =>
    rw [hof] at h
    dsimp only at h
    by_cases hcr : line.getLast? ≠ some 13
    · rw [if_pos hcr] at h
      cases h
    rw [if_neg hcr] at h
    unfold without_cr at h
    rw [if_pos (not_not.mp hcr)] at h
    by_cases hmem : 13 ∈ line.dropLast
    · rw [if_pos hmem] at h
      cases h
    rw [if_neg hmem] at h
    cases h
    obtain ⟨bare, rfl⟩ := getLast?_eq_some_iff.mp (not_not.mp hcr)
    rw [dropLast_concat] at hmem ⊢
    refine ⟨?_, hmem⟩
    rw [(line_of_got hof).1, append_assoc]
    rfl

theorem meta_of_error {state : BodyState} {why : Bytes} (h : meta_of limits ending s = .error (state, why)) :
    state ≠ .done := by
  unfold meta_of at h
  cases hof : line_of s limits.head_bytes with
  | long =>
    rw [hof] at h
    cases h
    decide
  | ended =>
    rw [hof] at h
    cases h
    decide
  | got line rest =>
    rw [hof] at h
    dsimp only at h
    split at h
    · cases h
      decide
    rcases hbare : without_cr line with - | bare
    · rw [hbare] at h
      cases h
      decide
    · rw [hbare] at h
      cases h

theorem is_extension_iff (h : is_extension rest = true) : Extension rest := by
  rcases of_decide_eq_true h with hnil | ⟨hhead, -⟩
  · exact .inl hnil
  · right
    obtain ⟨more, hmore⟩ := head?_eq_some_iff.mp hhead
    refine ⟨rest.takeWhile isLineBlank, more, ?_, fun b hb => mem_takeWhile_imp hb⟩
    rw [← hmore, takeWhile_append_dropWhile]

/-- What a chunk's size line leads to. -/
inductive Sized : Bytes → Core → Prop
  | last {l : Bytes} {core : Core} (hl : ChunkLine l 0) (hphase : core.phase = .trailers) : Sized l core
  | more {l : Bytes} {core : Core} (hl : ChunkLine l core.left) (hphase : core.phase = .data)
      (hleft : core.left ≠ 0) : Sized l core

theorem size_of_ok (hcr : 13 ∉ text) (h : size_of limits core text = .ok core') :
    core'.chunked = core.chunked ∧ Sized text core' := by
  unfold size_of size_parts at h
  by_cases hhex : text.takeWhile isHex = []
  · rw [if_pos hhex] at h
    cases h
  rw [if_neg hhex] at h
  dsimp only at h
  by_cases hextension : ¬is_extension (text.dropWhile isHex)
  · rw [if_pos hextension] at h
    cases h
  have hline : ChunkLine text (digits_value 16 ((text.takeWhile isHex).dropWhile (· == 48))) :=
    ⟨hcr, _, _, takeWhile_append_dropWhile.symm, hhex, fun b hb => mem_takeWhile_imp hb,
      is_extension_iff (not_not.mp hextension), (digits_value_dropWhile 16 _).symm⟩
  rw [if_neg hextension] at h
  split at h
  · cases h
  split at h
  · cases h
  by_cases hzero : digits_value 16 ((text.takeWhile isHex).dropWhile (· == 48)) = 0
  · rw [if_pos hzero] at h
    cases h
    exact ⟨rfl, .last (hzero ▸ hline) rfl⟩
  · rw [if_neg hzero] at h
    split at h
    · cases h
    · cases h
      exact ⟨rfl, .more hline rfl hzero⟩

theorem size_of_error {state : BodyState} {why : Bytes} (h : size_of limits core text = .error (state, why)) :
    state ≠ .done := by
  unfold size_of at h
  rcases hparts : size_parts text with - | ⟨hex, rest⟩
  · rw [hparts] at h
    cases h
    decide
  rw [hparts] at h
  dsimp only at h
  -- each of the bounds in turn, then the two sizes
  split at h
  · cases h
    decide
  split at h
  · cases h
    decide
  split at h
  · cases h
    decide
  split at h
  · cases h
  split at h
  · cases h
    decide
  · cases h

theorem trailer_of_error {state : BodyState} {why : Bytes}
    (h : trailer_of limits core text = .error (state, why)) : state ≠ .done := by
  unfold trailer_of at h
  dsimp only at h
  split at h
  · cases h
    decide
  rcases hfield : field text with why' | f
  · rw [hfield] at h
    cases h
    decide
  · rw [hfield] at h
    cases h

theorem trailer_of_ok (h : trailer_of limits core text = .ok core') :
    core'.chunked = core.chunked ∧ core'.phase = core.phase := by
  unfold trailer_of at h
  dsimp only at h
  split at h
  · cases h
  rcases hfield : field text with why | f
  · rw [hfield] at h
    cases h
  · rw [hfield] at h
    cases h
    exact ⟨rfl, rfl⟩

/-! ## Steps -/

inductive Steps (core : Core) : Bytes → Core → Bytes → Bytes → Prop
  | size {l rest : Bytes} {core' : Core} (hphase : core.phase = .size) (hl : Sized l core') :
      Steps core (l ++ 13 :: 10 :: rest) core' rest []
  | data {data rest : Bytes} {core' : Core} (hphase : core.phase = .data) (hdata : data.length = core.left)
      (hnext : core'.phase = .data_end) : Steps core (data ++ rest) core' rest data
  | data_end {rest : Bytes} {core' : Core} (hphase : core.phase = .data_end) (hnext : core'.phase = .size) :
      Steps core (13 :: 10 :: rest) core' rest []
  | trailer {l rest : Bytes} {core' : Core} (hphase : core.phase = .trailers) (hl : 13 ∉ l) (hline : l ≠ [])
      (hnext : core'.phase = .trailers) : Steps core (l ++ 13 :: 10 :: rest) core' rest []

theorem line_step_next (hcr : 13 ∉ text) (hphase : core.phase ≠ .data)
    (h : line_step limits core text s = .next core' rest out) :
    core'.chunked = core.chunked ∧ Steps core (text ++ 13 :: 10 :: s) core' rest out := by
  unfold line_step at h
  cases hcore : core.phase with
  | size =>
    rw [hcore] at h
    rcases hsize : size_of limits core text with ⟨state, why⟩ | core₁
    · rw [hsize] at h
      cases h
    · rw [hsize] at h
      obtain ⟨rfl, rfl, rfl⟩ := Advance.next.inj h
      obtain ⟨hsame, hsized⟩ := size_of_ok hcr hsize
      exact ⟨hsame, .size hcore hsized⟩
  | data => exact absurd hcore hphase
  | data_end =>
    rw [hcore] at h
    dsimp only at h
    by_cases htext : text ≠ []
    · rw [if_pos htext] at h
      cases h
    · rw [if_neg htext] at h
      obtain ⟨rfl, rfl, rfl⟩ := Advance.next.inj h
      rw [not_not.mp htext]
      exact ⟨rfl, .data_end hcore rfl⟩
  | trailers =>
    rw [hcore] at h
    by_cases htext : text = []
    · rw [if_pos htext] at h
      cases h
    rw [if_neg htext] at h
    rcases htrailer : trailer_of limits core text with ⟨state, why⟩ | core₁
    · rw [htrailer] at h
      cases h
    · rw [htrailer] at h
      obtain ⟨rfl, rfl, rfl⟩ := Advance.next.inj h
      obtain ⟨hsame, hstill⟩ := trailer_of_ok htrailer
      exact ⟨hsame, .trailer hcore hcr htext (hstill.trans hcore)⟩

theorem advance_next (h : advance limits ending core s = .next core' rest out) :
    core.chunked = true ∧ core'.chunked = true ∧ Steps core s core' rest out := by
  cases hchunked : core.chunked with
  | false =>
    rw [advance_plain _ _ _ hchunked] at h
    split at h <;> cases h
  | true =>
    by_cases hphase : core.phase = .data
    · rw [advance_data _ _ _ hchunked hphase] at h
      by_cases hle : core.left ≤ s.length
      · rw [if_pos hle] at h
        obtain ⟨rfl, rfl, rfl⟩ := Advance.next.inj h
        have hdata : (s.take core.left).length = core.left := length_take_of_le hle
        have hsteps : Steps core (s.take core.left ++ s.drop core.left)
            { core with phase := .data_end, left := 0, total := core.total + core.left }
            (s.drop core.left) (s.take core.left) := .data hphase hdata rfl
        rw [take_append_drop] at hsteps
        exact ⟨rfl, hchunked, hsteps⟩
      · rw [if_neg hle] at h
        cases h
    · unfold advance at h
      rw [if_neg (by rw [hchunked]; decide), if_neg hphase] at h
      rcases hmeta : meta_of limits ending s with ⟨state, why⟩ | ⟨text, rest'⟩
      · rw [hmeta] at h
        cases h
      · rw [hmeta] at h
        obtain ⟨rfl, hcr⟩ := meta_of_ok hmeta
        obtain ⟨hsame, hsteps⟩ := line_step_next hcr hphase h
        exact ⟨rfl, hsame.trans hchunked, hsteps⟩

variable {d : Decoded}

theorem line_step_done (hphase : core.phase ≠ .data)
    (h : line_step limits core text s = .stop d) (hdone : d.state = .done) :
    core.phase = .trailers ∧ text = [] ∧ d = ⟨[], .done, [], s⟩ := by
  unfold line_step at h
  cases hcore : core.phase with
  | size =>
    rw [hcore] at h
    rcases hsize : size_of limits core text with ⟨state, why⟩ | core₁
    · rw [hsize] at h
      obtain rfl := Advance.stop.inj h
      exact absurd hdone (size_of_error hsize)
    · rw [hsize] at h
      cases h
  | data => exact absurd hcore hphase
  | data_end =>
    rw [hcore] at h
    dsimp only at h
    split at h
    · obtain rfl := Advance.stop.inj h
      cases hdone
    · cases h
  | trailers =>
    rw [hcore] at h
    by_cases htext : text = []
    · rw [if_pos htext] at h
      exact ⟨rfl, htext, (Advance.stop.inj h).symm⟩
    rw [if_neg htext] at h
    rcases htrailer : trailer_of limits core text with ⟨state, why⟩ | core₁
    · rw [htrailer] at h
      obtain rfl := Advance.stop.inj h
      exact absurd hdone (trailer_of_error htrailer)
    · rw [htrailer] at h
      cases h

theorem advance_done (h : advance limits ending core s = .stop d) (hdone : d.state = .done) :
    (core.chunked = false ∧ d.bytes.length = core.left ∧ s = d.bytes ++ d.rest) ∨
      (core.chunked = true ∧ core.phase = .trailers ∧ d.bytes = [] ∧ s = 13 :: 10 :: d.rest) := by
  cases hchunked : core.chunked with
  | false =>
    rw [advance_plain _ _ _ hchunked] at h
    by_cases hle : core.left ≤ s.length
    · rw [if_pos hle] at h
      obtain rfl := Advance.stop.inj h
      exact .inl ⟨rfl, length_take_of_le hle, (take_append_drop _ _).symm⟩
    · rw [if_neg hle] at h
      obtain rfl := Advance.stop.inj h
      cases hdone
  | true =>
    by_cases hphase : core.phase = .data
    · rw [advance_data _ _ _ hchunked hphase] at h
      split at h
      · cases h
      · obtain rfl := Advance.stop.inj h
        cases hdone
    · unfold advance at h
      rw [if_neg (by rw [hchunked]; decide), if_neg hphase] at h
      rcases hmeta : meta_of limits ending s with ⟨state, why⟩ | ⟨text, rest⟩
      · rw [hmeta] at h
        obtain rfl := Advance.stop.inj h
        exact absurd hdone (meta_of_error hmeta)
      · rw [hmeta] at h
        obtain ⟨rfl, hcr⟩ := meta_of_ok hmeta
        obtain ⟨htrailers, rfl, rfl⟩ := line_step_done hphase h hdone
        exact .inr ⟨rfl, htrailers, rfl, rfl⟩

/-! ## A body that is done -/

def FramedFrom (left : ℕ) (s : Bytes) (d : Decoded) : Phase → Prop
  | .size => ∃ b, s = b ++ d.rest ∧ Chunks b d.bytes
  | .data => ∃ data b body, s = data ++ 13 :: 10 :: (b ++ d.rest) ∧ data.length = left ∧ Chunks b body ∧
      d.bytes = data ++ body
  | .data_end => ∃ b, s = 13 :: 10 :: (b ++ d.rest) ∧ Chunks b d.bytes
  | .trailers => d.bytes = [] ∧ ∃ t, s = t ++ d.rest ∧ Trailers t

theorem Sized.framed {l : Bytes} (hl : Sized l core) (h : FramedFrom core.left rest d core.phase) :
    ∃ b, l ++ 13 :: 10 :: rest = b ++ d.rest ∧ Chunks b d.bytes := by
  cases hl with
  | last hl hphase =>
    rw [hphase] at h
    obtain ⟨hbytes, t, rfl, ht⟩ := h
    rw [hbytes]
    refine ⟨_, ?_, .last hl ht⟩
    rw [append_assoc]
    rfl
  | more hl hphase hleft =>
    rw [hphase] at h
    obtain ⟨data, b, body, rfl, hdata, hb, hbytes⟩ := h
    have hsome : data ≠ [] := fun hnil => hleft (by rw [← hdata, hnil, length_nil])
    rw [← hdata] at hl
    rw [hbytes]
    refine ⟨_, ?_, .chunk hl hsome hb⟩
    simp only [append_assoc, cons_append]

theorem Steps.framed (h : Steps core s core' rest out)
    (hrest : FramedFrom core'.left rest d core'.phase) :
    FramedFrom core.left s { d with bytes := out ++ d.bytes } core.phase := by
  cases h with
  | size hphase hl =>
    rw [hphase]
    exact hl.framed hrest
  | data hphase hdata hnext =>
    rw [hphase]
    rw [hnext] at hrest
    obtain ⟨b, rfl, hb⟩ := hrest
    exact ⟨_, b, _, rfl, hdata, hb, rfl⟩
  | data_end hphase hnext =>
    rw [hphase]
    rw [hnext] at hrest
    obtain ⟨b, rfl, hb⟩ := hrest
    exact ⟨b, rfl, hb⟩
  | trailer hphase hl hline hnext =>
    rw [hphase]
    rw [hnext] at hrest
    obtain ⟨hbytes, t, rfl, ht⟩ := hrest
    refine ⟨hbytes, _, ?_, .line hl hline ht⟩
    rw [append_assoc]
    rfl

theorem Decodes.framed (h : Decodes limits ending core s d) (hdone : d.state = .done)
    (hchunked : core.chunked = true) : FramedFrom core.left s d core.phase := by
  induction h with
  | stop h =>
    rcases advance_done h hdone with ⟨hplain, -, -⟩ | ⟨-, hphase, hbytes, rfl⟩
    · exact absurd (hplain.symm.trans hchunked) (by decide)
    · rw [hphase]
      exact ⟨hbytes, _, rfl, .blank⟩
  | step h hrest ih =>
    obtain ⟨-, hchunked', hsteps⟩ := advance_next h
    exact hsteps.framed (ih hdone hchunked')

/-- A body of a known length that is done is the bytes of that length. -/
theorem Decodes.plain (h : Decodes limits ending core s d) (hdone : d.state = .done)
    (hplain : core.chunked = false) : d.bytes.length = core.left ∧ s = d.bytes ++ d.rest := by
  cases h with
  | stop h =>
    rcases advance_done h hdone with ⟨-, hlength, hs⟩ | ⟨hchunked, -⟩
    · exact ⟨hlength, hs⟩
    · exact absurd (hplain.symm.trans hchunked) (by decide)
  | step h hrest => exact absurd (hplain.symm.trans (advance_next h).1) (by decide)

end Cosmic.Http
