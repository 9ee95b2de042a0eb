/-
Positions are exact.

The line and the column of every token and comment, of the last byte of every token and of every
error are what counting line breaks from the start of the source gives, and the lexer's table of
lines is that count's.
-/
import Cosmic.Lang.LexerLoss
import Cosmic.Lang.LexerSites

set_option autoImplicit false

namespace Cosmic.Lexer

open Cosmic.Base List Option Nat

section

variable {F : Type}

/-! ## The accessors -/

/-- The entry `i` of a list, from 1. -/
def entry {α : Type} (l : List α) : ℕ → Option α
  | 0 => none
  | i + 1 => l[i]?

def count (tokens : Tokens F) : ℕ := tokens.kind.length

def offset (tokens : Tokens F) (i : ℕ) : Option ℕ := entry tokens.offset i

def y (tokens : Tokens F) (i : ℕ) : Option ℕ := entry tokens.y i

def x (tokens : Tokens F) (i : ℕ) : Option ℕ := do
  let offset ← entry tokens.offset i
  let y ← entry tokens.y i
  let first ← entry tokens.line y
  return offset - first + 1

def stop (tokens : Tokens F) (i : ℕ) : Option ℕ := do
  let offset ← entry tokens.offset i
  let text ← entry tokens.text i
  return offset + text.length

def yend (tokens : Tokens F) (i : ℕ) : Option ℕ := do
  let y ← entry tokens.y i
  return (tokens.yend.lookup i).getD y

def xend (tokens : Tokens F) (i : ℕ) : Option ℕ := do
  let offset ← entry tokens.offset i
  let y ← entry tokens.y i
  let text ← entry tokens.text i
  let first ← entry tokens.line y
  return (tokens.xend.lookup i).getD (offset - first + text.length)

/-! ## Exact positions -/

/-- Every position the lexer answers is the one counted from the start of `source`. -/
structure PositionsExact (source : Bytes) (r : Lexed F) : Prop where
  lines : r.tokens.line = line_starts source
  begins : ∀ i, 1 ≤ i → i ≤ count r.tokens → ∃ o, offset r.tokens i = some o ∧
    y r.tokens i = some (line_of source o) ∧ x r.tokens i = some (column_of source o)
  /-- The last byte of a token of one byte or more. -/
  ends : ∀ i o e, offset r.tokens i = some o → stop r.tokens i = some e → o < e →
    yend r.tokens i = some (line_of source (e - 1)) ∧ xend r.tokens i = some (column_of source (e - 1))
  comments : ∀ n cs, r.tokens.comments.lookup n = some cs → ∀ c ∈ cs, c.Sited source
  errors : ∀ er ∈ r.errors, er.Sited source

variable {source name : Bytes} {fl : Floats F} {st st' : State F}

/-- The first byte and the last of the token at index `i` are where its entries put them. -/
structure TokenSited (source : Bytes) (t : Tokens F) (i : ℕ) : Prop where
  pos : 1 ≤ (t.piece i).offset
  y : t.y.getD i 0 = line_of source (t.piece i).offset
  yend : (t.piece i).text ≠ [] → (t.yend.lookup (i + 1)).getD (t.y.getD i 0) = line_of source ((t.piece i).stop - 1)
  xend : (t.piece i).text ≠ [] → (t.xend.lookup (i + 1)).getD
        ((t.piece i).offset - start_of source (t.piece i).offset + (t.piece i).text.length)
      = column_of source ((t.piece i).stop - 1)

/-- What holds of the places recorded between two passes of the loop. -/
structure Placed (source : Bytes) (st : State F) : Prop where
  counts : Counts source st
  tokens : ∀ i, i < st.n → TokenSited source st.tokens i
  comments : ∀ n cs, st.tokens.comments.lookup n = some cs → ∀ c ∈ cs, c.Sited source
  waiting : ∀ c ∈ st.pending.getD [], c.Sited source
  errors : ∀ er ∈ st.errors, er.Sited source

/-! ## One pass of the loop -/

theorem Sites.token_sited {r : Read} (h : Sites source st r st') (keeps : Keeps st st') {i : ℕ}
    (hi : i < st.n) (hold : TokenSited source st.tokens i) : TokenSited source st'.tokens i := by
  obtain ⟨hy, hx⟩ := h.others (i + 1) (by omega)
  constructor
  · rw [keeps.piece]
    exact hold.pos
  · rw [keeps.y, keeps.piece]
    exact hold.y
  · rw [keeps.y, keeps.piece, hy]
    exact hold.yend
  · rw [keeps.piece, hx]
    exact hold.xend

theorem push_token_sited (ha : Arrays st) (kind : Kind) (text : Bytes) (offset y : ℕ) {i : ℕ}
    (hi : i < st.n) (hold : TokenSited source st.tokens i) :
    TokenSited source (push_token st kind text offset y).tokens i := by
  have hpiece := push_token_piece_old ha kind text offset y hi
  have hys := ha.ys
  have hy : (push_token st kind text offset y).tokens.y.getD i 0 = st.tokens.y.getD i 0 := by
    simp only [push_token]
    rw [getD_append _ _ _ _ (by omega)]
  constructor
  · rw [hpiece]
    exact hold.pos
  · rw [hy, hpiece]
    exact hold.y
  · rw [hy, hpiece]
    exact hold.yend
  · rw [hpiece]
    exact hold.xend

theorem push_token_y_new (ha : Arrays st) (kind : Kind) (text : Bytes) (offset y : ℕ) :
    (push_token st kind text offset y).tokens.y.getD st.n 0 = y := by
  have hys := ha.ys
  simp only [push_token]
  rw [getD_append_right _ _ _ _ (by omega), hys, Nat.sub_self]
  rfl

theorem push_token_comments_sited {kind : Kind} {text : Bytes} {offset y : ℕ}
    (hold : ∀ n cs, st.tokens.comments.lookup n = some cs → ∀ c ∈ cs, c.Sited source)
    (hwait : ∀ c ∈ st.pending.getD [], c.Sited source) (n : ℕ) (cs : List Comment)
    (hn : (push_token st kind text offset y).tokens.comments.lookup n = some cs) :
    ∀ c ∈ cs, c.Sited source := by
  simp only [push_token] at hn
  split at hn
  · next comments hpending =>
    by_cases heq : n = st.n + 1
    · subst heq
      rw [AList.lookup_insert] at hn
      cases hn
      rwa [hpending] at hwait
    · rw [AList.lookup_insert_ne heq] at hn
      exact hold n cs hn
  · exact hold n cs hn

theorem Sites.recorded {r : Read} (h : Sites source st r st') (hc : Counts source st) :
    (∀ n ∈ st'.tokens.yend, n ≤ st.n + 1) ∧ ∀ n ∈ st'.tokens.xend, n ≤ st.n + 1 := by
  refine ⟨fun n hn => ?_, fun n hn => ?_⟩
  · by_cases heq : n = st.n + 1
    · exact Nat.le_of_eq heq
    · rw [← AList.lookup_isSome, (h.others n heq).1, AList.lookup_isSome] at hn
      exact le_succ_of_le (hc.yend n hn)
  · by_cases heq : n = st.n + 1
    · exact Nat.le_of_eq heq
    · rw [← AList.lookup_isSome, (h.others n heq).2, AList.lookup_isSome] at hn
      exact le_succ_of_le (hc.xend n hn)

theorem Placed.after_token (hp : Placed source st) (hinv : Inv source st) {k : Kind} {e : ℕ}
    (keeps : Keeps st st') (pending : st'.pending = st.pending) (first : st.pos ≤ e)
    (last : e ≤ source.length)
    (hsites : Sites source st ⟨some k, sub source st.pos e, e⟩ st') :
    Placed source { push_token st' k (sub source st.pos e) st.pos st.line with pos := e + 1 } := by
  have harrays := keeps.arrays hinv.arrays
  have hpos := hp.counts.pos
  obtain ⟨hyend, hxend⟩ := hsites.recorded hp.counts
  obtain ⟨hline, hstart⟩ := hp.counts.stands.place
  have hlen : (sub source st.pos e).length = e + 1 - st.pos := sub_length hpos (by omega) last
  have hnew := push_token_piece_new harrays k (sub source st.pos e) st.pos st.line
  have hynew := push_token_y_new harrays k (sub source st.pos e) st.pos st.line
  have hn := keeps.n
  obtain ⟨hends_y, hends_x⟩ := hsites.ends rfl
  refine ⟨⟨?_, ?_, ?_⟩, fun i hi => ?_, ?_, ?_, ?_⟩
  · exact hsites.stands
  · show ∀ n ∈ st'.tokens.yend, n ≤ st'.n + 1
    rwa [hn]
  · show ∀ n ∈ st'.tokens.xend, n ≤ st'.n + 1
    rwa [hn]
  · rcases Nat.lt_or_ge i st.n with hlt | hge
    · exact push_token_sited harrays k _ _ _ (by omega) (hsites.token_sited keeps hlt (hp.tokens i hlt))
    have heq : i = st'.n := by
      have hi' : i < st'.n + 1 := hi
      omega
    subst heq
    constructor
    · rwa [hnew]
    · rw [hynew]
      rw [hnew]
      exact hline.symm
    · intro _
      show (st'.tokens.yend.lookup (st'.n + 1)).getD
          ((push_token st' k (sub source st.pos e) st.pos st.line).tokens.y.getD st'.n 0)
        = line_of source (((push_token st' k (sub source st.pos e) st.pos st.line).tokens.piece st'.n).stop - 1)
      rw [hynew, hnew, hn, hends_y]
      show line_of source e = line_of source (st.pos + (sub source st.pos e).length - 1)
      rw [hlen, show st.pos + (e + 1 - st.pos) - 1 = e by omega]
    · intro _
      rw [hnew, hn]
      show (st'.tokens.xend.lookup (st.n + 1)).getD (st.pos - start_of source st.pos + (sub source st.pos e).length)
        = column_of source (st.pos + (sub source st.pos e).length - 1)
      rw [hlen, hstart, hends_x, show st.pos + (e + 1 - st.pos) - 1 = e by omega]
  · refine fun n cs hn => push_token_comments_sited (fun n cs hn => ?_) ?_ n cs hn
    · rw [keeps.comments] at hn
      exact hp.comments n cs hn
    · rw [pending]
      exact hp.waiting
  · exact nofun
  · intro er her
    rcases hsites.errors er her with hold | hnew
    · exact hp.errors er hold
    · exact hnew

theorem Placed.after_other (hp : Placed source st) (keeps : Keeps st st')
    (hsites : Sites source st {} st') : Placed source st' := by
  obtain ⟨hy, hx⟩ := hsites.unread rfl
  refine ⟨⟨hsites.stands, ?_, ?_⟩, fun i hi => ?_, fun n cs hn => ?_, fun c hc => ?_,
    fun er her => ?_⟩
  · rw [hy, keeps.n]
    exact hp.counts.yend
  · rw [hx, keeps.n]
    exact hp.counts.xend
  · rw [keeps.n] at hi
    exact hsites.token_sited keeps hi (hp.tokens i hi)
  · rw [keeps.comments] at hn
    exact hp.comments n cs hn
  · rcases hsites.comments c hc with hold | hnew
    · exact hp.waiting c hold
    · exact hnew
  · rcases hsites.errors er her with hold | hnew
    · exact hp.errors er hold
    · exact hnew

theorem Placed.skip_to (hp : Placed source st) {pos : ℕ} (hle : st.pos ≤ pos)
    (hplain : Plain source st.pos pos) : Placed source { st with pos } :=
  ⟨⟨hp.counts.stands.plain (scanned_plain hle hplain), hp.counts.yend, hp.counts.xend⟩, hp.tokens,
    hp.comments, hp.waiting, hp.errors⟩

theorem after_shebang_plain {i : ℕ} (hi : 1 ≤ i) (h₁ : byte source i = some 35)
    (h₂ : byte source (i + 1) = some 33) : Plain source i (after_shebang source i) := by
  obtain ⟨_, hle, hno⟩ := after_shebang_spec hi h₁ h₂
  intro k hik hk
  obtain ⟨b, hb⟩ := byte_of_le (s := source) (show 1 ≤ k by omega) (by omega)
  exact ⟨b, hb, hno k hik hk k b hik (Nat.le_refl k) hb⟩

theorem shebang_bytes {i j k : ℕ} {text : Bytes} (h : sub source i j = text) (hi : 1 ≤ i)
    (hk : 1 ≤ k) (hkj : i + k ≤ j + 1) : byte source (i + k - 1) = byte text k := by
  rw [← h, byte_sub hi hk hkj]

theorem Placed.step (hp : Placed source st) (hinv : Inv source st)
    (h : lex_step fl source name st = some st') : Placed source st' := by
  have hpos := hinv.cover.pos
  obtain ⟨⟨r, st₁⟩, hread, h⟩ := bind_eq_some_iff.mp h
  have hsites := read_sites hp.counts hread
  have hlen : st.pos ≤ source.length := by
    unfold read at hread
    cases hb : byte source st.pos with
    | none =>
      rw [hb] at hread
      cases hread
    | some b => exact (byte_some_le hb).2
  obtain ⟨r', st₂, hread', hreads⟩ := (read_reads hpos hlen : ReadsSome source st (read fl source name st))
  rw [hread] at hread'
  cases hread'
  cases hreads with
  | @token k text e found st' keeps pending first last exact errors refused kind =>
    subst exact
    have hnext := hp.after_token hinv keeps pending first last hsites
    cases h
    split
    · next hmark =>
      unfold shebang_after at hmark
      split at hmark
      · next hbytes =>
        rw [hmark] at hnext ⊢
        have h₄ : byte source 4 = some 35 := shebang_bytes (k := 4) hbytes (Nat.le_refl 1) (by decide) (by decide)
        have h₅ : byte source 5 = some 33 := shebang_bytes (k := 5) hbytes (Nat.le_refl 1) (by decide) (by decide)
        exact hnext.skip_to (after_shebang_spec (i := 4) (by decide) h₄ h₅).1
          (after_shebang_plain (i := 4) (by decide) h₄ h₅)
      · omega
    · exact hnext
  | comment keeps pending first last offset exact length errors =>
    cases h
    exact hp.after_other keeps hsites
  | skip keeps pending first last errors bytes =>
    cases h
    exact hp.after_other keeps hsites

/-! ## The whole source -/

theorem start_placed : Placed source (start source : State F) := by
  have hzero : Placed source ({ tokens := { line := [1] } } : State F) := by
    refine ⟨⟨⟨.start, rfl, rfl⟩, fun n hn => ?_, fun n hn => ?_⟩, fun i hi => ?_, fun n cs hn => ?_,
      fun c hc => ?_, fun er her => ?_⟩
    · exact absurd hn (AList.notMem_empty n)
    · exact absurd hn (AList.notMem_empty n)
    · exact absurd hi (Nat.not_lt_zero i)
    · cases hn
    · cases hc
    · cases her
  unfold start
  split
  · next hbytes =>
    have h₁ : byte source 1 = some 35 := shebang_bytes (k := 1) hbytes (Nat.le_refl 1) (by decide) (by decide)
    have h₂ : byte source 2 = some 33 := shebang_bytes (k := 2) hbytes (Nat.le_refl 1) (by decide) (by decide)
    exact hzero.skip_to (after_shebang_spec (Nat.le_refl 1) h₁ h₂).1 (after_shebang_plain (Nat.le_refl 1) h₁ h₂)
  · exact hzero

theorem lex_round_placed (fl : Floats F) (source name : Bytes) (st : State F) (h : Inv source st ∧ Placed source st) :
    Advances (lex_round fl source name) (fun st => Inv source st ∧ Placed source st)
      (fun st => source.length + 1 - st.pos)
      (fun st => (Inv source st ∧ Placed source st) ∧ st.pos = source.length + 1) st := by
  obtain ⟨hinv, hp⟩ := h
  unfold Advances lex_round
  split
  · next hlen =>
    obtain ⟨st', hstep, hnext, hlt⟩ := lex_step_some fl name hinv hlen
    refine Or.inl ⟨st', by rw [hstep]; rfl, ⟨hnext, hp.step hinv hstep⟩, ?_⟩
    show source.length + 1 - st'.pos < source.length + 1 - st.pos
    omega
  · next hlen =>
    have hle := hinv.last
    exact Or.inr ⟨st, rfl, ⟨hinv, hp⟩, by omega⟩

theorem sorted_filter_last {l : List ℕ} (hl : l.Pairwise (· < ·)) (k : ℕ) (hne : l.filter (· ≤ k) ≠ []) :
    l[(l.filter (· ≤ k)).length - 1]? = (l.filter (· ≤ k)).getLast? := by
  induction l with
  | nil => exact absurd rfl hne
  | cons a l ih =>
    obtain ⟨hfirst, hrest⟩ := pairwise_cons.mp hl
    by_cases hak : a ≤ k
    · rw [filter_cons_of_pos (by simpa using hak)]
      by_cases hnil : l.filter (· ≤ k) = []
      · rw [hnil]
        rfl
      · have hlast := ih hrest hnil
        have hpos := length_pos_of_ne_nil hnil
        rw [length_cons, Nat.add_sub_cancel, getLast?_cons,
          show (l.filter (· ≤ k)).length = (l.filter (· ≤ k)).length - 1 + 1 by omega,
          getElem?_cons_succ, hlast, getLast?_eq_some_getLast hnil, getD_some]
    · refine absurd (filter_eq_nil_iff.mpr fun p hp => ?_) hne
      rcases mem_cons.mp hp with rfl | hp
      · simpa using hak
      · have hlt := hfirst p hp
        simp only [decide_eq_true_eq]
        omega

theorem entry_line_of (source : Bytes) {k : ℕ} (hk : 1 ≤ k) :
    entry (line_starts source) (line_of source k) = some (start_of source k) := by
  obtain ⟨ls, hls⟩ := scanned_between (Nat.le_refl 1) (by omega) le_rfl (Or.inr fun b hb => by
      have hlen := byte_some_le hb
      omega)
  have hsorted : (line_starts source).Pairwise (· < ·) := by
    have hreached : Reached source (source.length + 1) (1 :: ls) := ⟨ls, rfl, hls⟩
    rw [← hreached.at_end]
    exact hreached.sorted
  have hne : (line_starts source).filter (· ≤ k) ≠ [] := by
    rw [line_starts, filter_cons_of_pos (by simpa using hk)]
    exact cons_ne_nil _ _
  have hlast := sorted_filter_last hsorted k hne
  have hpos := length_pos_of_ne_nil hne
  rw [line_of, show ((line_starts source).filter (· ≤ k)).length
    = ((line_starts source).filter (· ≤ k)).length - 1 + 1 by omega, entry, hlast, start_of,
    getLastD_eq_getLast?, getLast?_eq_some_getLast hne, getD_some]

theorem entry_getD {α : Type} {l : List α} {i : ℕ} (h : i < l.length) (d : α) :
    entry l (i + 1) = some (l.getD i d) := by
  rw [entry, getElem?_eq_getElem h, getD_eq_getElem _ _ h]

/-- Positions are exact on every byte string. -/
theorem positions_exact (fl : Floats F) (source name : Bytes) :
    ∃ r, lex fl source name = some r ∧ PositionsExact source r := by
  obtain ⟨st, hst, ⟨hinv, hp⟩, hend⟩ := loop_total (lex_round_placed fl source name)
    (source.length + 1) (start source) ⟨start_inv, start_placed⟩
    (lt_succ_of_le (sub_le_of_le_add (Nat.add_le_add_left start_inv.cover.pos _)))
  have ha := hinv.arrays
  have harrays := push_token_arrays ha .eof [] st.pos st.line
  have hnew := push_token_piece_new ha .eof [] st.pos st.line
  have hynew := push_token_y_new ha .eof [] st.pos st.line
  have hlines : st.tokens.line = line_starts source := by
    have hreached := hp.counts.stands.reached
    rw [hend] at hreached
    exact hreached.at_end
  have hall : ∀ i, i < st.n + 1 → TokenSited source (push_token st .eof [] st.pos st.line).tokens i := by
    intro i hi
    rcases Nat.lt_or_ge i st.n with hlt | hge
    · exact push_token_sited ha .eof [] _ _ hlt (hp.tokens i hlt)
    -- the token at the end of the file has no byte
    rw [show i = st.n by omega]
    refine ⟨?_, ?_, fun hne => ?_, fun hne => ?_⟩
    · rw [hnew]
      exact hp.counts.pos
    · rw [hynew, hnew]
      exact hp.counts.stands.place.1.symm
    · rw [hnew] at hne
      exact absurd rfl hne
    · rw [hnew] at hne
      exact absurd rfl hne
  unfold lex
  simp only [hst, bind_eq_bind, bind_some, Option.pure_def]
  refine ⟨_, rfl, ?_⟩
  generalize htokens : (push_token st .eof [] st.pos st.line).tokens = t at hall
  have hline : t.line = line_starts source := by
    rwa [← htokens]
  have hn : (push_token st .eof [] st.pos st.line).n = st.n + 1 := rfl
  have hoffset : ∀ i, i < st.n + 1 → entry t.offset (i + 1) = some (t.piece i).offset := by
    intro i hi
    refine entry_getD ?_ 0
    rwa [← htokens, harrays.offsets, hn]
  have htext : ∀ i, i < st.n + 1 → entry t.text (i + 1) = some (t.piece i).text := by
    intro i hi
    refine entry_getD ?_ []
    rwa [← htokens, harrays.texts, hn]
  have hy : ∀ i, i < st.n + 1 → entry t.y (i + 1) = some (line_of source (t.piece i).offset) := by
    intro i hi
    rw [← (hall i hi).y]
    refine entry_getD ?_ 0
    rwa [← htokens, harrays.ys, hn]
  constructor
  · exact hline
  · intro i hi hcount
    simp only at hcount ⊢
    obtain ⟨j, rfl⟩ : ∃ j, i = j + 1 := ⟨i - 1, by omega⟩
    have hj : j < st.n + 1 := by
      rw [count, ← htokens, harrays.kinds, hn] at hcount
      omega
    refine ⟨(t.piece j).offset, hoffset j hj, hy j hj, ?_⟩
    rw [x, hoffset j hj, hy j hj]
    simp only [bind_eq_bind, bind_some, Option.pure_def]
    rw [hline, entry_line_of source (hall j hj).pos]
    rfl
  · intro i o e ho he hlt
    simp only at ho he ⊢
    obtain ⟨j, rfl⟩ : ∃ j, i = j + 1 := by
      cases i with
      | zero => cases ho
      | succ j => exact ⟨j, rfl⟩
    have hj : j < st.n + 1 := by
      have hin := (List.getElem?_eq_some_iff.mp ho).1
      rwa [← htokens, harrays.offsets, hn] at hin
    have hstop : e = (t.piece j).stop := by
      rw [stop, hoffset j hj, htext j hj] at he
      exact (some.inj he).symm
    have hfirst : o = (t.piece j).offset := by
      rw [offset, hoffset j hj] at ho
      exact (some.inj ho).symm
    have hne : (t.piece j).text ≠ [] := by
      intro hnil
      rw [hstop, hfirst, Piece.stop, hnil] at hlt
      exact Nat.lt_irrefl _ hlt
    refine ⟨?_, ?_⟩
    · rw [yend, hy j hj, hstop, ← (hall j hj).yend hne, ← (hall j hj).y]
      rfl
    · rw [xend, hoffset j hj, hy j hj, htext j hj]
      simp only [bind_eq_bind, bind_some, Option.pure_def]
      rw [hline, entry_line_of source (hall j hj).pos, hstop, ← (hall j hj).xend hne]
      rfl
  · rw [← htokens]
    exact push_token_comments_sited hp.comments hp.waiting
  · exact hp.errors

end

end Cosmic.Lexer
