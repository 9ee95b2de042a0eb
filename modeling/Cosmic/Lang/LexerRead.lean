/-
What one branch of the lexer reads.

`Reads` says what the branch at `pos` does to the state: it makes a token of the bytes from `pos`
to its last byte, or keeps a comment of them, or goes over blanks and line breaks; it raises
nothing, and the errors it adds lie within those bytes. One lemma shows it for each branch.
-/
import Cosmic.Base.Cover
import Cosmic.Lang.LexerScan

set_option autoImplicit false

namespace Cosmic.Lexer

open Cosmic.Base List Option Bool Nat

/-- The error is placed within the bytes from `i` to `e`, and on one at least. -/
def Error.Within (er : Error) (i e : ℕ) : Prop := i ≤ er.offset ∧ 1 ≤ er.length ∧ er.offset + er.length ≤ e + 1

/-- What one branch may add to the errors, for the bytes from `i` to `e`. -/
structure Adds (before after : List Error) (i e : ℕ) (found : List Error) : Prop where
  eq : after = before ++ found
  one : found.length ≤ 1
  within : ∀ er ∈ found, er.Within i e

theorem adds_none {errors : List Error} {i e : ℕ} : Adds errors errors i e [] :=
  ⟨(append_nil _).symm, by simp, by simp⟩

theorem adds_one {errors : List Error} {i e : ℕ} {er : Error} (h : er.Within i e) :
    Adds errors (errors ++ [er]) i e [er] :=
  ⟨rfl, by simp, by simpa using h⟩

section

variable {F : Type}

/-- The tokens made so far, and the comments they have, are kept. -/
structure Keeps (st st' : State F) : Prop where
  n : st'.n = st.n
  kind : st'.tokens.kind = st.tokens.kind
  text : st'.tokens.text = st.tokens.text
  offset : st'.tokens.offset = st.tokens.offset
  y : st'.tokens.y = st.tokens.y
  comments : st'.tokens.comments = st.tokens.comments

/-- What a branch reads at `st.pos`. -/
inductive Reads (source : Bytes) (st : State F) : Read → State F → Prop where
  | token {k : Kind} {text : Bytes} {e : ℕ} {found : List Error} {st' : State F}
      (keeps : Keeps st st') (pending : st'.pending = st.pending) (first : st.pos ≤ e)
      (last : e ≤ source.length) (exact : text = sub source st.pos e)
      (errors : Adds st.errors st'.errors st.pos e found) (refused : k = .err → found ≠ [])
      (kind : k ≠ .eof) : Reads source st ⟨some k, text, e⟩ st'
  | comment {c : Comment} {found : List Error} {st' : State F} (keeps : Keeps st st')
      (pending : st'.pending = some (st.pending.getD [] ++ [c])) (first : st.pos < st'.pos)
      (last : st'.pos ≤ source.length + 1) (offset : c.offset = st.pos)
      (exact : c.text = sub source st.pos (st'.pos - 1)) (length : c.length = st'.pos - st.pos)
      (errors : Adds st.errors st'.errors st.pos (st'.pos - 1) found) : Reads source st {} st'
  | skip {st' : State F} (keeps : Keeps st st') (pending : st'.pending = st.pending)
      (first : st.pos < st'.pos) (last : st'.pos ≤ source.length + 1)
      (errors : st'.errors = st.errors)
      (bytes : ∀ k, st.pos ≤ k → k < st'.pos → ∃ b, byte source k = some b ∧ isSpace b = true) :
      Reads source st {} st'

/-- A branch raises nothing and reads what `Reads` says. -/
def ReadsSome (source : Bytes) (st : State F) (branch : Option (Read × State F)) : Prop :=
  ∃ r st', branch = some (r, st') ∧ Reads source st r st'

theorem ReadsSome.of {source : Bytes} {st st' : State F} {r : Read} (h : Reads source st r st') :
    ReadsSome source st (some (r, st')) :=
  ⟨r, st', rfl, h⟩

variable {fl : Floats F} {source name : Bytes} {st : State F} {b : UInt8}

theorem sub_self {s : Bytes} {i : ℕ} {b : UInt8} (h : byte s i = some b) : sub s i i = [b] := by
  have hi := byte_some_le h
  refine ext_getElem? fun k => ?_
  rcases Nat.eq_zero_or_pos k with rfl | hk
  · have hb := byte_sub (s := s) (j := i) (k := 1) hi.1 (Nat.le_refl 1) (Nat.le_refl _)
    rwa [Nat.add_sub_cancel, h] at hb
  · have hlen := sub_length hi.1 (le_succ i) hi.2
    rw [getElem?_eq_none (by omega), getElem?_eq_none (by rw [length_singleton]; omega)]

theorem reads_one {k : Kind} (hb : byte source st.pos = some b) (herr : k ≠ .err)
    (heof : k ≠ .eof) : Reads source st ⟨some k, [b], st.pos⟩ st :=
  .token ⟨rfl, rfl, rfl, rfl, rfl, rfl⟩ rfl le_rfl (byte_some_le hb).2 (sub_self hb).symm
    adds_none (fun h => absurd h herr) heof

theorem read_name_reads (hb : byte source st.pos = some b)
    (hclass : isWord b = true) : ReadsSome source st (read_name source st) := by
  have hpos := byte_some_le hb
  have hge := run_end_gt source.length hb hclass (by omega)
  have hle := run_end_le isWord source.length source hpos.1 (by omega)
  have hlen : st.pos + (sub source st.pos (run_end isWord source.length source st.pos)).length - 1
      = run_end isWord source.length source st.pos := by
    rw [sub_length hpos.1 (by omega) hle]
    omega
  refine .of ?_
  refine .token ⟨rfl, rfl, rfl, rfl, rfl, rfl⟩ rfl ?_ ?_ ?_ adds_none ?_ ?_
  · omega
  · omega
  · rw [hlen]
  · split
    · exact nofun
    · exact nofun
  · split
    · decide
    · decide

theorem read_blank_reads (hb : byte source st.pos = some b)
    (hclass : isBlank b = true) : ReadsSome source st (read_blank source st) := by
  have hpos := byte_some_le hb
  have hspace : ∀ {c}, isBlank c = true → isSpace c = true := fun h => by simp [isSpace, h]
  refine .of (.skip ⟨rfl, rfl, rfl, rfl, rfl, rfl⟩ rfl ?_ ?_ rfl ?_)
  · split
    · cases hf : find (fun b => !isBlank b) source (st.pos + 1 + 1) with
      | none =>
        simp only [getD_none]
        omega
      | some q =>
        have hq := (find_some (by omega) hf).1
        simp only [getD_some]
        omega
    · exact Nat.lt_succ_self _
  · split
    · cases hf : find (fun b => !isBlank b) source (st.pos + 1 + 1) with
      | none => exact le_rfl
      | some q =>
        obtain ⟨_, ⟨c, hc, _⟩, _⟩ := find_some (by omega) hf
        exact le_succ_of_le (byte_some_le hc).2
    · exact succ_le_succ hpos.2
  · intro k hk hlt
    simp only at hlt
    rcases Nat.eq_or_lt_of_le hk with rfl | hgt
    · exact ⟨b, hb, hspace hclass⟩
    split at hlt
    · next hnext =>
      obtain ⟨c, hc, hblank⟩ := Option.any_eq_true _ _ |>.mp hnext
      rcases Nat.eq_or_lt_of_le (succ_le_of_lt hgt) with rfl | hgt'
      · exact ⟨c, hc, hspace hblank⟩
      have hk' : k ≤ source.length := by
        cases hf : find (fun b => !isBlank b) source (st.pos + 1 + 1) with
        | none =>
          rw [hf] at hlt
          simp only [getD_none] at hlt
          omega
        | some q =>
          rw [hf] at hlt
          obtain ⟨_, ⟨d, hd, _⟩, _⟩ := find_some (by omega) hf
          have hq := (byte_some_le hd).2
          simp only [getD_some] at hlt
          omega
      obtain ⟨d, hd⟩ := byte_of_le (by omega) hk'
      refine ⟨d, hd, hspace ?_⟩
      cases hf : find (fun b => !isBlank b) source (st.pos + 1 + 1) with
      | none => simpa using find_none (by omega) hf (by omega) hd
      | some q =>
        rw [hf] at hlt
        simpa using (find_some (by omega) hf).2.2 k d (by omega) hlt hd
    · omega

theorem read_break_reads (hb : byte source st.pos = some b)
    (hclass : isBreak b = true) : ReadsSome source st (read_break source st) := by
  obtain ⟨hone, hle⟩ := break_at_spec hb hclass
  refine .of (.skip ⟨rfl, rfl, rfl, rfl, rfl, rfl⟩ rfl ?_ hle rfl ?_)
  · show st.pos < st.pos + break_at source st.pos
    omega
  intro k hk hlt
  rcases Nat.eq_or_lt_of_le hk with rfl | hgt
  · exact ⟨b, hb, by simp [isSpace, hclass]⟩
  -- the second byte of a break of two
  have hlt' : k < st.pos + break_at source st.pos := hlt
  unfold break_at at hlt'
  rw [hb] at hlt'
  simp only [hclass, Bool.not_true, false_eq_true, if_false] at hlt'
  cases hd : byte source (st.pos + 1) with
  | none =>
    rw [hd] at hlt'
    simp only at hlt'
    omega
  | some d =>
    rw [hd] at hlt'
    simp only at hlt'
    split at hlt'
    · next htwo =>
      rw [show k = st.pos + 1 by omega]
      exact ⟨d, hd, by simp [isSpace, (and_eq_true _ _ ▸ htwo).1]⟩
    · omega

theorem read_one_reads (hb : byte source st.pos = some b)
    (hclass : (one_kind b).isSome) : ReadsSome source st (read_one b st) := by
  obtain ⟨k, hk⟩ := isSome_iff_exists.mp hclass
  have hkind : k ≠ .err ∧ k ≠ .eof := by
    unfold one_kind at hk
    revert hk
    repeat' split
    all_goals
      intro hk
      cases hk
    all_goals decide
  unfold read_one
  rw [hk]
  exact .of (reads_one hb hkind.1 hkind.2)

theorem read_operator_reads (hb : byte source st.pos = some b) : ReadsSome source st (read_operator source b st) := by
  unfold read_operator
  split
  · next hsecond =>
    obtain ⟨c, hc, _⟩ := Option.any_eq_true _ _ |>.mp hsecond
    exact .of (.token ⟨rfl, rfl, rfl, rfl, rfl, rfl⟩ rfl (le_succ _) (byte_some_le hc).2
      rfl adds_none (nofun) (by decide))
  · exact .of (reads_one hb (by decide) (by decide))

theorem read_comment_reads (hb : byte source st.pos = some b) (hnext : byte source (st.pos + 1) = some 45) :
    ReadsSome source st (read_comment source name st) := by
  have hpos := byte_some_le hb
  have hlen := byte_some_le hnext
  unfold read_comment
  dsimp only
  cases ho : long_open source (st.pos + 2) with
  | none =>
    -- a line comment
    have hend : st.pos + 1 ≤ (find isBreak source (st.pos + 2)).getD (source.length + 1) - 1 ∧
        (find isBreak source (st.pos + 2)).getD (source.length + 1) - 1 ≤ source.length := by
      cases hf : find isBreak source (st.pos + 2) with
      | none =>
        simp only [getD_none]
        omega
      | some q =>
        obtain ⟨hq, ⟨c, hc, _⟩, _⟩ := find_some (by omega) hf
        have hqlen := byte_some_le hc
        simp only [getD_some]
        omega
    simp only
    generalize (find isBreak source (st.pos + 2)).getD (source.length + 1) - 1 = ce at hend ⊢
    refine .of ?_
    refine .comment ⟨rfl, rfl, rfl, rfl, rfl, rfl⟩ rfl ?_ ?_ rfl ?_ ?_ adds_none
    · show st.pos < ce + 1
      omega
    · show ce + 1 ≤ source.length + 1
      omega
    · rfl
    · show ce - st.pos + 1 = ce + 1 - st.pos
      omega
  | some found =>
    obtain ⟨open_end, level⟩ := found
    have hopen := long_open_some ho
    simp only
    cases hf : find_text (closing level) source (open_end + 1) with
    | none =>
      obtain ⟨sp, hsp⟩ := span_end_some (sub source st.pos source.length) st.pos st.line st.line_start st.tokens.line
      simp only [hsp, bind_eq_bind, bind_some, Option.pure_def]
      refine .of ?_
      refine .token ⟨rfl, rfl, rfl, rfl, rfl, rfl⟩ rfl hpos.2 le_rfl rfl
        (adds_one ?_) (fun _ => cons_ne_nil _ _) (by decide)
      exact ⟨Nat.le_refl _, Nat.le_add_left 1 _, by simp only; omega⟩
    | some places =>
      obtain ⟨cs, ce⟩ := places
      obtain ⟨hce, hcelen⟩ := closing_some (by omega) hf
      obtain ⟨l, hl⟩ := advance_lines_some (sub source st.pos ce) st.pos st.line st.line_start st.tokens.line
      simp only [hl, bind_eq_bind, bind_some, Option.pure_def]
      refine .of ?_
      refine .comment ⟨rfl, rfl, rfl, rfl, rfl, rfl⟩ rfl ?_ ?_ rfl rfl ?_ (adds_one ?_)
      · show st.pos < ce + 1
        omega
      · show ce + 1 ≤ source.length + 1
        omega
      · show ce - st.pos + 1 = ce + 1 - st.pos
        omega
      · refine ⟨Nat.le_refl _, Nat.le_add_left 1 _, ?_⟩
        show st.pos + (ce - st.pos + 1) ≤ ce + 1 - 1 + 1
        omega

theorem read_dash_reads (hb : byte source st.pos = some 45) : ReadsSome source st (read_dash source name st) := by
  unfold read_dash
  split
  · exact .of (reads_one hb (by decide) (by decide))
  · next hnext => exact read_comment_reads hb (not_not.mp hnext)

theorem bad_line_some (lines : List ℕ) (bad_at line line_start : ℕ) :
    ∃ r, bad_line lines bad_at line line_start = some r := by
  have hround : ∀ l : ℕ × ℕ, True → Advances (bad_line_round lines bad_at)
      (fun _ => True) (fun l => lines.length - l.1) (fun _ => True) l := by
    intro l _
    unfold Advances bad_line_round
    cases hl : lines[l.1]? with
    | none => exact Or.inr ⟨l, rfl, trivial⟩
    | some following =>
      have hlt := (List.getElem?_eq_some_iff.mp hl).1
      simp only
      split
      · exact Or.inr ⟨l, rfl, trivial⟩
      · exact Or.inl ⟨_, rfl, trivial, by simp only; omega⟩
  obtain ⟨r, hr, _⟩ := loop_total hround (lines.length + 1) (line, line_start) trivial (by simp only; omega)
  exact ⟨r, hr⟩

theorem read_escaped_reads (hb : byte source st.pos = some b) :
    ReadsSome source st (read_escaped source name b st) := by
  have hpos := byte_some_le hb
  obtain ⟨q, hq, hfits⟩ := read_string_some hpos.2 b
  have hfirst := hfits.first
  have hlast := hfits.last
  have hclose := hfits.close
  have hbad := hfits.bad
  obtain ⟨sp, hsp⟩ := span_end_some (sub source st.pos q.stop) st.pos st.line st.line_start st.tokens.line
  unfold read_escaped
  simp only [hq, hsp, bind_eq_bind, bind_some, Option.pure_def]
  by_cases hgood : q.close > 0 ∧ q.bad_at = 0
  · obtain ⟨value, hvalue⟩ := decode_some hq hgood.1 hgood.2 (by omega)
    have hopen : ¬q.close = 0 := Nat.ne_of_gt hgood.1
    have hnone : ¬q.bad_at > 0 := by omega
    simp only [quoted_value, if_pos hgood, hvalue, map_some, bind_some, if_neg hopen, if_neg hnone]
    refine .of ?_
    exact .token ⟨rfl, rfl, rfl, rfl, rfl, rfl⟩ rfl hfirst hlast rfl adds_none (nofun) (by decide)
  · simp only [quoted_value, if_neg hgood, bind_some]
    split
    · refine .of ?_
      refine .token ⟨rfl, rfl, rfl, rfl, rfl, rfl⟩ rfl hfirst hlast rfl (adds_one ?_)
        (fun _ => cons_ne_nil _ _) (by decide)
      exact ⟨Nat.le_refl _, Nat.le_add_left 1 _, by simp only; omega⟩
    · next hopen =>
      have hsome : q.bad_at > 0 := by omega
      obtain ⟨⟨y, start⟩, hline⟩ := bad_line_some sp.lines q.bad_at st.line st.line_start
      simp only [if_pos hsome, hline, bind_some]
      refine .of ?_
      refine .token ⟨rfl, rfl, rfl, rfl, rfl, rfl⟩ rfl hfirst hlast rfl (adds_one ?_)
        (fun _ => cons_ne_nil _ _) (by decide)
      exact ⟨by simp only; omega, by simp only; omega, by simp only; omega⟩

theorem read_quote_reads (hb : byte source st.pos = some b) : ReadsSome source st (read_quote source name b st) := by
  unfold read_quote
  dsimp only
  cases hf : find (ends_run b) source (st.pos + 1) with
  | none => exact read_escaped_reads hb
  | some s =>
    obtain ⟨hs, ⟨c, hc, _⟩, _⟩ := find_some (Nat.le_add_left 1 _) hf
    simp only
    split
    · refine .of ?_
      exact .token ⟨rfl, rfl, rfl, rfl, rfl, rfl⟩ rfl (le_of_succ_le hs) (byte_some_le hc).2 rfl
        adds_none (nofun) (by decide)
    · exact read_escaped_reads hb

theorem number_kind_ne (value : Number F) : number_kind value ≠ .err ∧ number_kind value ≠ .eof := by
  cases value with
  | integer n => exact ⟨by simp [number_kind], by simp [number_kind]⟩
  | float x => exact ⟨by simp [number_kind], by simp [number_kind]⟩

theorem read_number_reads (hb : byte source st.pos = some b)
    (hbegins : isDigit b = true ∨ b = 46) : ReadsSome source st (read_number fl source name st) := by
  obtain ⟨e, he, hge, hle⟩ := numeral_end_some hb hbegins
  have hwithin : ∀ {code msg fix y x}, (⟨name, code, msg, fix, y, x, st.pos, e - st.pos + 1⟩ :
      Error).Within st.pos e := ⟨Nat.le_refl _, Nat.le_add_left 1 _, by simp only; omega⟩
  have hmalformed : ReadsSome source st (some (read_number.malformed name st st.pos e (sub source st.pos e))) := by
    refine .of ?_
    exact .token ⟨rfl, rfl, rfl, rfl, rfl, rfl⟩ rfl hge hle rfl (adds_one hwithin)
      (fun _ => cons_ne_nil _ _) (by decide)
  unfold read_number
  simp only [he, bind_eq_bind, bind_some, Option.pure_def]
  cases tonumber fl (sub source st.pos e) with
  | some value =>
    simp only
    split
    · refine .of ?_
      exact .token ⟨rfl, rfl, rfl, rfl, rfl, rfl⟩ rfl hge hle rfl (adds_one hwithin)
        (fun _ => cons_ne_nil _ _) (number_kind_ne value).2
    · refine .of ?_
      exact .token ⟨rfl, rfl, rfl, rfl, rfl, rfl⟩ rfl hge hle rfl adds_none
        (fun h => absurd h (number_kind_ne value).1) (number_kind_ne value).2
  | none =>
    simp only
    cases tonumber fl ((sub source st.pos e).filter (· != 95)) with
    | none => exact hmalformed
    | some plain =>
      simp only
      split
      · refine .of ?_
        exact .token ⟨rfl, rfl, rfl, rfl, rfl, rfl⟩ rfl hge hle rfl (adds_one hwithin)
          (fun _ => cons_ne_nil _ _) (number_kind_ne plain).2
      · exact hmalformed

theorem read_dot_reads (hb : byte source st.pos = some 46) : ReadsSome source st (read_dot fl source name st) := by
  unfold read_dot
  split
  · exact read_number_reads hb (Or.inr rfl)
  unfold read_dots
  dsimp only
  split
  · next htwo =>
    split
    · next hthree =>
      refine .of ?_
      exact .token ⟨rfl, rfl, rfl, rfl, rfl, rfl⟩ rfl (Nat.le_add_right _ _)
        (byte_some_le hthree).2 rfl adds_none (nofun) (by decide)
    · refine .of ?_
      exact .token ⟨rfl, rfl, rfl, rfl, rfl, rfl⟩ rfl (Nat.le_add_right _ _)
        (byte_some_le htwo).2 rfl adds_none (nofun) (by decide)
  · exact .of (reads_one hb (by decide) (by decide))

theorem read_colon_reads (hb : byte source st.pos = some 58) : ReadsSome source st (read_colon source name st) := by
  unfold read_colon
  dsimp only
  split
  · exact .of (reads_one hb (by decide) (by decide))
  next hnext =>
  have hlen := byte_some_le (not_not.mp hnext)
  cases hlabel : label_at source st.pos with
  | none =>
    refine .of ?_
    refine .token ⟨rfl, rfl, rfl, rfl, rfl, rfl⟩ rfl (le_succ _) hlen.2 rfl (adds_one ?_)
      (fun _ => cons_ne_nil _ _) (by decide)
    exact ⟨Nat.le_refl _, Nat.le_add_left 1 _, by simp only; omega⟩
  | some found =>
    obtain ⟨hle, hlelen⟩ := label_at_some hlabel
    refine .of ?_
    refine .token ⟨rfl, rfl, rfl, rfl, rfl, rfl⟩ rfl (le_of_succ_le hle) hlelen rfl
      (adds_one ?_) (fun _ => cons_ne_nil _ _) (by decide)
    exact ⟨Nat.le_refl _, Nat.le_add_left 1 _, by simp only; omega⟩

theorem read_bracket_reads (hb : byte source st.pos = some 91) :
    ReadsSome source st (read_bracket source name st) := by
  have hpos := byte_some_le hb
  unfold read_bracket
  dsimp only
  cases ho : long_open source st.pos with
  | none => exact .of (reads_one hb (by decide) (by decide))
  | some found =>
    obtain ⟨open_end, level⟩ := found
    have hopen := long_open_some ho
    simp only
    cases hf : find_text (closing level) source (open_end + 1) with
    | none =>
      obtain ⟨sp, hsp⟩ := span_end_some (sub source st.pos source.length) st.pos st.line st.line_start st.tokens.line
      simp only [hsp, bind_eq_bind, bind_some, Option.pure_def]
      refine .of ?_
      refine .token ⟨rfl, rfl, rfl, rfl, rfl, rfl⟩ rfl hpos.2 le_rfl rfl (adds_one ?_)
        (fun _ => cons_ne_nil _ _) (by decide)
      exact ⟨Nat.le_refl _, Nat.le_add_left 1 _, by simp only; omega⟩
    | some places =>
      obtain ⟨cs, last⟩ := places
      obtain ⟨hge, hle⟩ := closing_some (by omega) hf
      obtain ⟨sp, hsp⟩ := span_end_some (sub source st.pos last) st.pos st.line st.line_start st.tokens.line
      have hvalue : ∀ contents : Bytes, ∃ value, long_value contents = some value := by
        intro contents
        unfold long_value
        split
        · exact normalised_some contents
        · exact ⟨contents, rfl⟩
      obtain ⟨value, hv⟩ := hvalue (sub source (open_end + 1 + break_at source (open_end + 1)) (cs - 1))
      simp only [hsp, hv, bind_eq_bind, bind_some, Option.pure_def]
      refine .of ?_
      exact .token ⟨rfl, rfl, rfl, rfl, rfl, rfl⟩ rfl (by omega) hle rfl adds_none (nofun) (by decide)

theorem read_stray_reads (hb : byte source st.pos = some b) : ReadsSome source st (read_stray source name b st) := by
  have hpos := byte_some_le hb
  unfold read_stray
  dsimp only
  generalize he : (if 128 ≤ b then run_end (fun b => 128 ≤ b) source.length source st.pos
    else st.pos) = e
  have hspan : st.pos ≤ e ∧ e ≤ source.length := by
    rw [← he]
    split
    · next hhigh =>
      exact ⟨run_end_gt source.length hb (by simpa using hhigh) (by omega), run_end_le _ _ _ hpos.1 (by omega)⟩
    · exact ⟨Nat.le_refl _, hpos.2⟩
  split
  · refine .of ?_
    refine .token ⟨rfl, rfl, rfl, rfl, rfl, rfl⟩ rfl hspan.1 hspan.2 rfl (adds_one ?_)
      (fun _ => cons_ne_nil _ _) (by decide)
    exact ⟨Nat.le_refl _, Nat.le_refl _, by simp only; omega⟩
  · refine .of ?_
    refine .token ⟨rfl, rfl, rfl, rfl, rfl, rfl⟩ rfl hspan.1 hspan.2 rfl (adds_one ?_)
      (fun _ => cons_ne_nil _ _) (by decide)
    exact ⟨Nat.le_refl _, Nat.le_add_left 1 _, by simp only; omega⟩

/-! ## Any branch -/

theorem class_of_spec {b : UInt8} {c : Class} (h : class_of b = some c) :
    match c with
    | .name => isWord b = true
    | .blank => isBlank b = true
    | .line_break => isBreak b = true
    | .one => (one_kind b).isSome = true
    | .digit => isDigit b = true
    | .dash => b = 45
    | .dot => b = 46
    | .colon => b = 58
    | .bracket => b = 91
    | _ => True := by
  unfold class_of at h
  split at h
  · next hb =>
    cases h
    simp only [isWord, or_eq_true] at hb ⊢
    tauto
  split at h
  · next hb =>
    cases h
    exact hb
  split at h
  · next hb =>
    cases h
    exact hb
  split at h
  · next hb =>
    cases h
    exact hb
  split at h
  · next hb =>
    cases h
    exact hb
  split at h
  · cases h
    trivial
  split at h
  · cases h
    trivial
  split at h
  · next hb =>
    cases h
    exact beq_iff_eq.mp hb
  split at h
  · next hb =>
    cases h
    exact beq_iff_eq.mp hb
  split at h
  · next hb =>
    cases h
    exact beq_iff_eq.mp hb
  split at h
  · next hb =>
    cases h
    exact beq_iff_eq.mp hb
  · cases h

theorem read_reads (hpos : 1 ≤ st.pos) (hlen : st.pos ≤ source.length) :
    ReadsSome source st (read fl source name st) := by
  obtain ⟨b, hb⟩ := byte_of_le hpos hlen
  unfold read
  rw [hb]
  simp only
  cases hclass : class_of b with
  | none => exact read_stray_reads hb
  | some c =>
    have hspec := class_of_spec hclass
    cases c with
    | name => exact read_name_reads hb hspec
    | blank => exact read_blank_reads hb hspec
    | line_break => exact read_break_reads hb hspec
    | one => exact read_one_reads hb hspec
    | digit => exact read_number_reads hb (Or.inl hspec)
    | quote => exact read_quote_reads hb
    | operator => exact read_operator_reads hb
    | dash => exact read_dash_reads (hspec ▸ hb)
    | dot => exact read_dot_reads (hspec ▸ hb)
    | colon => exact read_colon_reads (hspec ▸ hb)
    | bracket => exact read_bracket_reads (hspec ▸ hb)

end

end Cosmic.Lexer
