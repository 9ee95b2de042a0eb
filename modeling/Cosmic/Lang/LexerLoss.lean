/-
The lexer loses nothing.

The tokens and the comments of a source are its bytes but for blanks, line breaks and a `#!`
line, each byte once and in order. Lexing ends on every byte string, each refused form has an
error placed within it, and the errors are in source order.
-/
import Cosmic.Lang.LexerRead
import Mathlib.Data.List.GetD

set_option autoImplicit false

namespace Cosmic.Lexer

open Cosmic.Base List Option Nat

section

variable {F : Type}

/-! ## The pieces of a source -/

def Comment.piece (c : Comment) : Piece := ⟨c.offset, c.text⟩

namespace Tokens

/-- The bytes of the token at index `i`, whose number is `i + 1`. -/
def piece (t : Tokens F) (i : ℕ) : Piece := ⟨t.offset.getD i 0, t.text.getD i []⟩

/-- The comments before the token at index `i`. -/
def comments_before (t : Tokens F) (i : ℕ) : List Comment := (t.comments.lookup (i + 1)).getD []

/-- The comments and the tokens in the order they are kept: each token after its comments. -/
def pieces (t : Tokens F) : List Piece :=
  (List.range t.kind.length).flatMap (fun i => (t.comments_before i).map Comment.piece ++ [t.piece i])

end Tokens

/-- The byte at `k` is on a `#!` line at the start or after a leading byte order mark. -/
def InShebang (source : Bytes) (k : ℕ) : Prop :=
  ∃ i, (i = 1 ∧ sub source 1 2 = lit "#!" ∨ i = 4 ∧ sub source 1 5 = mark ++ lit "#!") ∧
    i ≤ k ∧ ∀ j b, i ≤ j → j ≤ k → byte source j = some b → isBreak b = false

/-- The byte at `k` is a blank, a line break or one of a `#!` line. -/
def Skipped (source : Bytes) (k : ℕ) : Prop := (∃ b, byte source k = some b ∧ isSpace b = true) ∨ InShebang source k

/-- Nothing of `source` is lost in what the lexer answers. -/
structure LosesNothing (source : Bytes) (r : Lexed F) : Prop where
  /-- The parallel arrays hold every token, and every comment is before one of them. -/
  arrays : r.tokens.text.length = r.tokens.kind.length ∧
    r.tokens.offset.length = r.tokens.kind.length ∧ r.tokens.y.length = r.tokens.kind.length
  numbered : ∀ n ∈ r.tokens.comments, 1 ≤ n ∧ n ≤ r.tokens.kind.length
  /-- Tokens and comments are in strictly increasing order and do not overlap. -/
  ordered : r.tokens.pieces.Pairwise Piece.Before
  /-- The text of each is the source bytes at its place. -/
  exact : ∀ p ∈ r.tokens.pieces, p.IsOf source
  lengths : ∀ n cs, r.tokens.comments.lookup n = some cs → ∀ c ∈ cs, c.length = c.text.length
  /-- Every other byte is a blank, a line break or one of a `#!` line. -/
  accounted : ∀ k, 1 ≤ k → k ≤ source.length → (∃ p ∈ r.tokens.pieces, p.Holds k) ∨ Skipped source k
  /-- The last token, and no other, is the one at the end of the file. -/
  last : ∃ kinds, r.tokens.kind = kinds ++ [.eof] ∧ Kind.eof ∉ kinds
  /-- Every refused form has an error placed within it. -/
  refused : ∀ i, r.tokens.kind[i]? = some .err →
    ∃ er ∈ r.errors, er.Within (r.tokens.piece i).offset ((r.tokens.piece i).stop - 1)
  in_order : r.errors.Pairwise (fun a b => a.offset < b.offset)

/-- The parallel arrays hold `st.n` tokens, and each comment is before one of them. -/
structure Arrays (st : State F) : Prop where
  kinds : st.tokens.kind.length = st.n
  texts : st.tokens.text.length = st.n
  offsets : st.tokens.offset.length = st.n
  ys : st.tokens.y.length = st.n
  numbered : ∀ n ∈ st.tokens.comments, 1 ≤ n ∧ n ≤ st.n

/-- What holds of the lexer between two passes of its loop. -/
structure Inv (source : Bytes) (st : State F) : Prop where
  last : st.pos ≤ source.length + 1
  arrays : Arrays st
  cover : Cover (Skipped source) source st.pos (st.tokens.pieces ++ (st.pending.getD []).map Comment.piece)
  lengths : ∀ n cs, st.tokens.comments.lookup n = some cs → ∀ c ∈ cs, c.length = c.text.length
  waiting : ∀ c ∈ st.pending.getD [], c.length = c.text.length
  no_eof : Kind.eof ∉ st.tokens.kind
  refused : ∀ i, st.tokens.kind[i]? = some .err →
    ∃ er ∈ st.errors, er.Within (st.tokens.piece i).offset ((st.tokens.piece i).stop - 1)
  in_order : st.errors.Pairwise (fun a b => a.offset < b.offset)
  behind : ∀ er ∈ st.errors, er.offset < st.pos

variable {source name : Bytes} {fl : Floats F} {st st' : State F}

/-! ## Making a token -/

theorem Keeps.pieces (h : Keeps st st') : st'.tokens.pieces = st.tokens.pieces := by
  unfold Tokens.pieces Tokens.comments_before Tokens.piece
  rw [h.kind, h.text, h.offset, h.comments]

theorem Keeps.piece (h : Keeps st st') (i : ℕ) : st'.tokens.piece i = st.tokens.piece i := by
  unfold Tokens.piece
  rw [h.text, h.offset]

theorem Keeps.arrays (h : Keeps st st') (ha : Arrays st) : Arrays st' :=
  ⟨by rw [h.kind, h.n, ha.kinds], by rw [h.text, h.n, ha.texts], by rw [h.offset, h.n, ha.offsets],
    by rw [h.y, h.n, ha.ys], by rw [h.comments, h.n]; exact ha.numbered⟩

section

variable (ha : Arrays st) (kind : Kind) (text : Bytes) (offset y : ℕ)

include ha

theorem push_token_piece_old {i : ℕ} (hi : i < st.n) :
    (push_token st kind text offset y).tokens.piece i = st.tokens.piece i := by
  have htext := ha.texts
  have hoffset := ha.offsets
  simp only [Tokens.piece, push_token]
  rw [getD_append _ _ _ _ (by omega), getD_append _ _ _ _ (by omega)]

theorem push_token_piece_new : (push_token st kind text offset y).tokens.piece st.n = ⟨offset, text⟩ := by
  have htext := ha.texts
  have hoffset := ha.offsets
  simp only [Tokens.piece, push_token]
  rw [getD_append_right _ _ _ _ (by omega), getD_append_right _ _ _ _ (by omega), htext, hoffset, Nat.sub_self]
  rfl

omit ha in
theorem push_token_comments_old {i : ℕ} (hi : i ≠ st.n) :
    (push_token st kind text offset y).tokens.comments_before i = st.tokens.comments_before i := by
  simp only [Tokens.comments_before, push_token]
  cases st.pending with
  | none => rfl
  | some cs =>
    simp only
    rw [AList.lookup_insert_ne (by omega)]

theorem push_token_comments_new :
    (push_token st kind text offset y).tokens.comments_before st.n = st.pending.getD [] := by
  simp only [Tokens.comments_before, push_token]
  cases st.pending with
  | none =>
    have hnew : st.n + 1 ∉ st.tokens.comments := by
      intro hmem
      have hle := (ha.numbered _ hmem).2
      omega
    simp only
    rw [AList.lookup_eq_none.mpr hnew]
  | some cs =>
    simp only
    rw [AList.lookup_insert]

theorem push_token_pieces : (push_token st kind text offset y).tokens.pieces
    = st.tokens.pieces ++ (st.pending.getD []).map Comment.piece ++ [⟨offset, text⟩] := by
  have hlen : (push_token st kind text offset y).tokens.kind.length = st.n + 1 := by
    simp only [push_token, length_append, length_singleton, ha.kinds]
  unfold Tokens.pieces
  rw [hlen, range_succ, flatMap_append, flatMap_singleton,
    push_token_comments_new ha, push_token_piece_new ha, append_assoc, ha.kinds]
  refine congrArg (· ++ _) (flatMap_congr fun i hi => ?_)
  have hlt := mem_range.mp hi
  rw [push_token_comments_old _ _ _ _ (Nat.ne_of_lt hlt), push_token_piece_old ha _ _ _ _ hlt]

theorem push_token_arrays : Arrays (push_token st kind text offset y) := by
  have hkeys : ∀ n ∈ (push_token st kind text offset y).tokens.comments, n = st.n + 1 ∨ n ∈ st.tokens.comments := by
    intro n hn
    simp only [push_token] at hn
    split at hn
    · exact (AList.mem_insert _).mp hn
    · exact Or.inr hn
  refine ⟨?_, ?_, ?_, ?_, fun n hn => ?_⟩
  · simp only [push_token, length_append, length_singleton, ha.kinds]
  · simp only [push_token, length_append, length_singleton, ha.texts]
  · simp only [push_token, length_append, length_singleton, ha.offsets]
  · simp only [push_token, length_append, length_singleton, ha.ys]
  · rcases hkeys n hn with rfl | hold
    · exact ⟨Nat.le_add_left 1 _, Nat.le_refl _⟩
    · exact ⟨(ha.numbered n hold).1, le_succ_of_le (ha.numbered n hold).2⟩

theorem push_token_refused {errors : List Error} (hold : ∀ i, st.tokens.kind[i]? = some .err →
      ∃ er ∈ errors, er.Within (st.tokens.piece i).offset ((st.tokens.piece i).stop - 1))
    (hnew : kind = .err → ∃ er ∈ errors, er.Within offset (offset + text.length - 1)) :
    ∀ i, (push_token st kind text offset y).tokens.kind[i]? = some .err →
      ∃ er ∈ errors, er.Within ((push_token st kind text offset y).tokens.piece i).offset
        (((push_token st kind text offset y).tokens.piece i).stop - 1) := by
  intro i hi
  have hkind : (st.tokens.kind ++ [kind])[i]? = some .err := hi
  rcases Nat.lt_trichotomy i st.n with hlt | rfl | hgt
  · rw [push_token_piece_old ha _ _ _ _ hlt]
    rw [getElem?_append_left (by rw [ha.kinds]; exact hlt)] at hkind
    exact hold i hkind
  · rw [push_token_piece_new ha]
    rw [getElem?_append_right (by rw [ha.kinds]), ha.kinds, Nat.sub_self] at hkind
    exact hnew (some.inj hkind)
  · rw [getElem?_eq_none (by rw [length_append, ha.kinds, length_singleton]; omega)] at hkind
    cases hkind

end

theorem push_token_lengths (hold : ∀ n cs, st.tokens.comments.lookup n = some cs → ∀ c ∈ cs, c.length = c.text.length)
    (hnew : ∀ c ∈ st.pending.getD [], c.length = c.text.length) (kind : Kind) (text : Bytes)
    (offset y : ℕ) : ∀ n cs, (push_token st kind text offset y).tokens.comments.lookup n = some cs →
      ∀ c ∈ cs, c.length = c.text.length := by
  intro n cs hn
  simp only [push_token] at hn
  split at hn
  · next comments hpending =>
    by_cases heq : n = st.n + 1
    · subst heq
      rw [AList.lookup_insert] at hn
      cases hn
      rwa [hpending] at hnew
    · rw [AList.lookup_insert_ne heq] at hn
      exact hold n cs hn
  · exact hold n cs hn

/-! ## One pass of the loop -/

theorem Adds.ordered {before after found : List Error} {i e : ℕ} (h : Adds before after i e found)
    (hie : i ≤ e) (in_order : before.Pairwise (fun a b => a.offset < b.offset))
    (behind : ∀ er ∈ before, er.offset < i) :
    after.Pairwise (fun a b => a.offset < b.offset) ∧ ∀ er ∈ after, er.offset < e + 1 := by
  have hnew : found.Pairwise (fun a b => a.offset < b.offset) := by
    rcases found with _ | ⟨er, _ | ⟨er', rest⟩⟩
    · exact List.Pairwise.nil
    · exact pairwise_singleton _ _
    · have hone := h.one
      simp only [length_cons] at hone
      omega
  rw [h.eq]
  refine ⟨pairwise_append.mpr ⟨in_order, hnew, fun a ha b hb => ?_⟩, fun er her => ?_⟩
  · have hlt := behind a ha
    have hge := (h.within b hb).1
    omega
  · rcases mem_append.mp her with hold | hnew
    · have hlt := behind er hold
      omega
    · obtain ⟨_, h₂, h₃⟩ := h.within er hnew
      omega

theorem Inv.after_token (hinv : Inv source st) {k : Kind} {e : ℕ} {found : List Error}
    (keeps : Keeps st st') (pending : st'.pending = st.pending) (first : st.pos ≤ e)
    (last : e ≤ source.length) (errors : Adds st.errors st'.errors st.pos e found)
    (refused : k = .err → found ≠ []) (kind : k ≠ .eof) :
    Inv source { push_token st' k (sub source st.pos e) st.pos st.line with pos := e + 1 } := by
  have harrays := keeps.arrays hinv.arrays
  obtain ⟨hordered, hbehind⟩ := errors.ordered first hinv.in_order hinv.behind
  have hall : ∀ er, er ∈ st.errors ∨ er ∈ found → er ∈ st'.errors := by
    intro er her
    rw [errors.eq]
    exact mem_append.mpr her
  refine ⟨succ_le_succ last, ?_, ?_, ?_, ?_, ?_, ?_, hordered, hbehind⟩
  · have hpush := push_token_arrays harrays k (sub source st.pos e) st.pos st.line
    exact ⟨hpush.kinds, hpush.texts, hpush.offsets, hpush.ys, hpush.numbered⟩
  · have hcover := hinv.cover.piece first last
    have hpieces := push_token_pieces harrays k (sub source st.pos e) st.pos st.line
    rw [keeps.pieces, pending] at hpieces
    show Cover _ source (e + 1) ((push_token st' k (sub source st.pos e) st.pos st.line).tokens.pieces ++ [])
    rwa [append_nil, hpieces]
  · refine push_token_lengths (fun n cs hn => ?_) (by rw [pending]; exact hinv.waiting) k _ _ _
    rw [keeps.comments] at hn
    exact hinv.lengths n cs hn
  · intro c hc
    cases hc
  · simp only [push_token, mem_append, mem_singleton, keeps.kind, not_or]
    exact ⟨hinv.no_eof, Ne.symm kind⟩
  · refine push_token_refused harrays k _ _ _ (fun i hi => ?_) fun herr => ?_
    · rw [keeps.kind] at hi
      obtain ⟨er, her, hwithin⟩ := hinv.refused i hi
      rw [keeps.piece]
      exact ⟨er, hall er (Or.inl her), hwithin⟩
    · obtain ⟨er, her⟩ := exists_mem_of_ne_nil found (refused herr)
      refine ⟨er, hall er (Or.inr her), ?_⟩
      have hpos := hinv.cover.pos
      rw [sub_length hpos (by omega) last, show st.pos + (e + 1 - st.pos) - 1 = e by omega]
      exact errors.within er her

theorem Inv.after_comment (hinv : Inv source st) {c : Comment} {found : List Error}
    (keeps : Keeps st st') (pending : st'.pending = some (st.pending.getD [] ++ [c]))
    (first : st.pos < st'.pos) (last : st'.pos ≤ source.length + 1) (offset : c.offset = st.pos)
    (exact : c.text = sub source st.pos (st'.pos - 1)) (length : c.length = st'.pos - st.pos)
    (errors : Adds st.errors st'.errors st.pos (st'.pos - 1) found) : Inv source st' := by
  have hpos := hinv.cover.pos
  have hstop : st'.pos - 1 + 1 = st'.pos := by omega
  obtain ⟨hordered, hbehind⟩ := errors.ordered (by omega) hinv.in_order hinv.behind
  rw [hstop] at hbehind
  refine ⟨last, keeps.arrays hinv.arrays, ?_, ?_, ?_, ?_, ?_, hordered, hbehind⟩
  · have hcover := hinv.cover.piece (e := st'.pos - 1) (by omega) (by omega)
    have hpiece : c.piece = ⟨st.pos, sub source st.pos (st'.pos - 1)⟩ := by
      rw [Comment.piece, offset, exact]
    rw [hstop, ← hpiece] at hcover
    rwa [keeps.pieces, pending, getD_some, map_append, ← append_assoc]
  · intro n cs hn
    rw [keeps.comments] at hn
    exact hinv.lengths n cs hn
  · intro c' hc'
    rw [pending, getD_some] at hc'
    rcases mem_append.mp hc' with hold | hnew
    · exact hinv.waiting c' hold
    · rw [mem_singleton.mp hnew, length, exact, sub_length hpos (by omega) (by omega), hstop]
  · rw [keeps.kind]
    exact hinv.no_eof
  · intro i hi
    rw [keeps.kind] at hi
    obtain ⟨er, her, hwithin⟩ := hinv.refused i hi
    rw [keeps.piece]
    exact ⟨er, by rw [errors.eq]; exact mem_append_left _ her, hwithin⟩

theorem Inv.after_skip (hinv : Inv source st) (keeps : Keeps st st')
    (pending : st'.pending = st.pending) (first : st.pos ≤ st'.pos)
    (last : st'.pos ≤ source.length + 1) (errors : st'.errors = st.errors)
    (bytes : ∀ k, st.pos ≤ k → k < st'.pos → Skipped source k) : Inv source st' := by
  refine ⟨last, keeps.arrays hinv.arrays, ?_, ?_, ?_, ?_, ?_, ?_, ?_⟩
  · rw [keeps.pieces, pending]
    exact hinv.cover.skip_to first bytes
  · intro n cs hn
    rw [keeps.comments] at hn
    exact hinv.lengths n cs hn
  · rw [pending]
    exact hinv.waiting
  · rw [keeps.kind]
    exact hinv.no_eof
  · intro i hi
    rw [keeps.kind] at hi
    rw [keeps.piece, errors]
    exact hinv.refused i hi
  · rw [errors]
    exact hinv.in_order
  · intro er her
    rw [errors] at her
    exact Nat.lt_of_lt_of_le (hinv.behind er her) first

theorem after_shebang_spec {i : ℕ} (hi : 1 ≤ i) (h₁ : byte source i = some 35) (h₂ : byte source (i + 1) = some 33) :
    i ≤ after_shebang source i ∧ after_shebang source i ≤ source.length + 1 ∧
      ∀ k, i ≤ k → k < after_shebang source i → ∀ j b, i ≤ j → j ≤ k → byte source j = some b →
        isBreak b = false := by
  have hlen := byte_some_le h₂
  have hmark : ∀ j b, i ≤ j → j < i + 2 → byte source j = some b → isBreak b = false := by
    intro j b hij hj hb
    rcases Nat.eq_or_lt_of_le hij with rfl | hgt
    · rw [h₁] at hb
      cases hb
      decide
    · rw [show j = i + 1 by omega, h₂] at hb
      cases hb
      decide
  unfold after_shebang
  cases hf : find isBreak source (i + 2) with
  | none =>
    simp only [getD_none]
    refine ⟨by omega, Nat.le_refl _, fun k hik hk j b hij hjk hb => ?_⟩
    rcases Nat.lt_or_ge j (i + 2) with hlt | hge
    · exact hmark j b hij hlt hb
    · exact find_none (by omega) hf hge hb
  | some q =>
    obtain ⟨hq, ⟨c, hc, _⟩, hno⟩ := find_some (by omega) hf
    have hqlen := byte_some_le hc
    simp only [getD_some]
    refine ⟨by omega, by omega, fun k hik hk j b hij hjk hb => ?_⟩
    rcases Nat.lt_or_ge j (i + 2) with hlt | hge
    · exact hmark j b hij hlt hb
    · exact hno j b hge (by omega) hb

theorem Inv.after_mark (hinv : Inv source st) (hpos : st.pos = shebang_after source) :
    Inv source { st with pos := after_shebang source st.pos } ∧ st.pos ≤ after_shebang source st.pos := by
  have hone := hinv.cover.pos
  unfold shebang_after at hpos
  split at hpos
  · next hmark =>
    have hbyte : ∀ k, 1 ≤ k → k ≤ 5 → byte source k = byte (mark ++ lit "#!") k := by
      intro k h₁ h₅
      rw [← hmark, byte_sub (Nat.le_refl 1) h₁ (by omega), show 1 + k - 1 = k by omega]
    obtain ⟨hge, hle, hno⟩ := after_shebang_spec (by decide)
      (hbyte 4 (by decide) (by decide)) (hbyte 5 (by decide) (by decide))
    rw [hpos]
    refine ⟨hinv.after_skip ⟨rfl, rfl, rfl, rfl, rfl, rfl⟩ rfl (by rw [hpos]; exact hge) hle rfl ?_, hge⟩
    intro k hk hlt
    rw [hpos] at hk
    exact Or.inr ⟨4, Or.inr ⟨rfl, hmark⟩, hk, hno k hk hlt⟩
  · omega

theorem lex_step_some (fl : Floats F) (name : Bytes) (hinv : Inv source st) (hlen : st.pos ≤ source.length) :
    ∃ st', lex_step fl source name st = some st' ∧ Inv source st' ∧ st.pos < st'.pos := by
  have hsome : ReadsSome source st (read fl source name st) := read_reads hinv.cover.pos hlen
  obtain ⟨r, st', hread, hreads⟩ := hsome
  unfold lex_step
  simp only [hread, bind_eq_bind, bind_some, Option.pure_def]
  cases hreads with
  | @token k text e found st' keeps pending first last exact errors refused kind =>
    subst exact
    have hnext := hinv.after_token keeps pending first last errors refused kind
    refine ⟨_, rfl, ?_, ?_⟩
    · split
      · next hmark => exact (hnext.after_mark hmark).1
      · exact hnext
    · split
      · next hmark => exact Nat.lt_of_lt_of_le (lt_succ_of_le first) (hnext.after_mark hmark).2
      · exact lt_succ_of_le first
  | comment keeps pending first last offset exact length errors =>
    exact ⟨_, rfl, hinv.after_comment keeps pending first last offset exact length errors, first⟩
  | skip keeps pending first last errors bytes =>
    refine ⟨_, rfl, hinv.after_skip keeps pending (Nat.le_of_lt first) last errors ?_, first⟩
    exact fun k hk hlt => Or.inl (bytes k hk hlt)

/-! ## The whole source -/

theorem start_inv : Inv source (start source : State F) := by
  have hzero : Inv source ({} : State F) := by
    refine ⟨Nat.le_add_left 1 _, ⟨rfl, rfl, rfl, rfl, fun n hn => ?_⟩, .start, fun n cs hn => ?_,
      fun c hc => ?_, not_mem_nil, fun i hi => ?_, List.Pairwise.nil, fun er her => ?_⟩
    · exact absurd hn (AList.notMem_empty n)
    · cases hn
    · cases hc
    · cases hi
    · cases her
  unfold start
  split
  · next hmark =>
    have hbyte : ∀ k, 1 ≤ k → k ≤ 2 → byte source k = byte (lit "#!") k := by
      intro k h₁ h₂
      rw [← hmark, byte_sub (Nat.le_refl 1) h₁ (by omega), show 1 + k - 1 = k by omega]
    obtain ⟨hge, hle, hno⟩ := after_shebang_spec (Nat.le_refl 1)
      (hbyte 1 (by decide) (by decide)) (hbyte 2 (by decide) (by decide))
    refine hzero.after_skip ⟨rfl, rfl, rfl, rfl, rfl, rfl⟩ rfl hge hle rfl fun k hk hlt => ?_
    exact Or.inr ⟨1, Or.inl ⟨rfl, hmark⟩, hk, hno k hk hlt⟩
  · exact hzero

theorem lex_round_advances (fl : Floats F) (source name : Bytes) (st : State F) (hinv : Inv source st) :
    Advances (lex_round fl source name) (Inv source) (fun st => source.length + 1 - st.pos)
      (fun st => Inv source st ∧ st.pos = source.length + 1) st := by
  unfold Advances lex_round
  split
  · next hlen =>
    obtain ⟨st', hstep, hnext, hlt⟩ := lex_step_some fl name hinv hlen
    refine Or.inl ⟨st', by rw [hstep]; rfl, hnext, ?_⟩
    show source.length + 1 - st'.pos < source.length + 1 - st.pos
    omega
  · next hlen =>
    have hle := hinv.last
    exact Or.inr ⟨st, rfl, hinv, by omega⟩

/-- Lexing ends and raises nothing on every byte string, and loses nothing of it. -/
theorem lex_loses_nothing (fl : Floats F) (source name : Bytes) :
    ∃ r, lex fl source name = some r ∧ LosesNothing source r := by
  obtain ⟨st, hst, hinv, hend⟩ := loop_total (lex_round_advances fl source name)
    (source.length + 1) (start source) start_inv
    (lt_succ_of_le (sub_le_of_le_add (Nat.add_le_add_left start_inv.cover.pos _)))
  have hpieces := push_token_pieces hinv.arrays .eof [] st.pos st.line
  have harrays := push_token_arrays hinv.arrays .eof [] st.pos st.line
  unfold lex
  simp only [hst, bind_eq_bind, bind_some, Option.pure_def]
  refine ⟨_, rfl, ?_⟩
  constructor
  · exact ⟨by rw [harrays.texts, harrays.kinds], by rw [harrays.offsets, harrays.kinds],
      by rw [harrays.ys, harrays.kinds]⟩
  · intro n hn
    simp only
    rw [harrays.kinds]
    exact harrays.numbered n hn
  · simp only [hpieces]
    refine pairwise_append.mpr ⟨hinv.cover.ordered, pairwise_singleton _ _, ?_⟩
    intro p hp q hq
    rw [mem_singleton.mp hq]
    exact hinv.cover.stop_le p hp
  · intro p hp
    rw [hpieces] at hp
    rcases mem_append.mp hp with hold | hnew
    · exact hinv.cover.isOf p hold
    · rw [mem_singleton.mp hnew, hend]
      refine ⟨Nat.le_add_left 1 _, Nat.le_refl _, ?_⟩
      simp [sub]
  · exact push_token_lengths hinv.lengths hinv.waiting _ _ _ _
  · intro k hk hlen
    rcases hinv.cover.accounted k hk (by omega) with ⟨p, hp, hholds⟩ | hskip
    · refine Or.inl ⟨p, ?_, hholds⟩
      rw [hpieces]
      exact mem_append_left _ hp
    · exact Or.inr hskip
  · exact ⟨st.tokens.kind, rfl, hinv.no_eof⟩
  · exact push_token_refused hinv.arrays _ _ _ _ hinv.refused (by rintro ⟨⟩)
  · exact hinv.in_order

end

end Cosmic.Lexer
