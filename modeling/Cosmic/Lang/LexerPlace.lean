/-
Where the lines of a source begin, and how the lexer counts them.

`line_starts` counts line breaks from the start of a source, whatever its tokens are. `Scanned` is
that count between two offsets which no line break straddles. The lexer's own counts, one for a
break between tokens and one for the breaks inside a token, follow it.
-/
import Cosmic.Lang.LexerScan

set_option autoImplicit false

namespace Cosmic.Lexer

open Cosmic.Base List Option Bool

/-! ## Counting line breaks from the start -/

/-- The offset of the first byte of each line that begins after a line break of a text whose first
byte is at offset `p`. -/
def starts_from : ℕ → Bytes → List ℕ
  | _, [] => []
  | p, [c] => if isBreak c then [p + 1] else []
  | p, c :: d :: rest =>
    if isBreak c then
      -- `\r\n` and `\n\r` are one break
      if isBreak d && d != c then (p + 2) :: starts_from (p + 2) rest
      else (p + 1) :: starts_from (p + 1) (d :: rest)
    else starts_from (p + 1) (d :: rest)

def line_starts (source : Bytes) : List ℕ := 1 :: starts_from 1 source

/-- The line of the byte at `k`: how many lines begin by it. -/
def line_of (source : Bytes) (k : ℕ) : ℕ := ((line_starts source).filter (· ≤ k)).length

/-- The offset of the first byte of the line of the byte at `k`. -/
def start_of (source : Bytes) (k : ℕ) : ℕ := ((line_starts source).filter (· ≤ k)).getLastD 1

/-- The column of the byte at `k`, from 1. -/
def column_of (source : Bytes) (k : ℕ) : ℕ := k - start_of source k + 1

theorem starts_from_gt (p : ℕ) (text : Bytes) : ∀ q ∈ starts_from p text, p < q := by
  fun_induction starts_from p text with
  | case1 p => exact nofun
  | case2 p c hc =>
    intro q hq
    rw [mem_singleton.mp hq]
    exact Nat.lt_succ_self p
  | case3 p c hc => exact nofun
  | case4 p c d rest hc hd ih =>
    intro q hq
    rcases mem_cons.mp hq with rfl | hq
    · omega
    · have hlt := ih q hq
      omega
  | case5 p c d rest hc hd ih =>
    intro q hq
    rcases mem_cons.mp hq with rfl | hq
    · omega
    · have hlt := ih q hq
      omega
  | case6 p c d rest hc ih =>
    intro q hq
    have hlt := ih q hq
    omega

/-! ## Counting between two offsets -/

/-- From `i` to `j`, break by break, the lines at `ls` begin. No line break straddles `i` or
`j`. -/
inductive Scanned (source : Bytes) (j : ℕ) : ℕ → List ℕ → Prop where
  | stop : Scanned source j j []
  | plain {i : ℕ} {b : UInt8} {ls : List ℕ} (hb : byte source i = some b)
      (hplain : isBreak b = false) (rest : Scanned source j (i + 1) ls) : Scanned source j i ls
  | line_break {i : ℕ} {b : UInt8} {ls : List ℕ} (hb : byte source i = some b)
      (hbreak : isBreak b = true) (rest : Scanned source j (i + break_at source i) ls) :
      Scanned source j i ((i + break_at source i) :: ls)

namespace Scanned

variable {source : Bytes} {i j : ℕ} {ls : List ℕ}

theorem trans {k : ℕ} {ms : List ℕ} (h : Scanned source j i ls) (h' : Scanned source k j ms) :
    Scanned source k i (ls ++ ms) := by
  induction h with
  | stop => exact h'
  | plain hb hplain _ ih => exact .plain hb hplain ih
  | line_break hb hbreak _ ih => exact .line_break hb hbreak ih

theorem le (h : Scanned source j i ls) : i ≤ j := by
  induction h with
  | stop => exact le_rfl
  | plain _ _ _ ih => omega
  | line_break hb hbreak _ ih => omega

theorem bounds (h : Scanned source j i ls) : ∀ p ∈ ls, i < p ∧ p ≤ j := by
  induction h with
  | stop => exact nofun
  | plain _ _ _ ih =>
    intro p hp
    have hp' := ih p hp
    omega
  | line_break hb hbreak rest ih =>
    have hone := (break_at_spec hb hbreak).1
    intro p hp
    rcases mem_cons.mp hp with rfl | hp
    · exact ⟨by omega, rest.le⟩
    · have hp' := ih p hp
      omega

theorem sorted (h : Scanned source j i ls) : ls.Pairwise (· < ·) := by
  induction h with
  | stop => exact List.Pairwise.nil
  | plain _ _ _ ih => exact ih
  | line_break _ _ rest ih => exact pairwise_cons.mpr ⟨fun p hp => (rest.bounds p hp).1, ih⟩

theorem break_cases {b : UInt8} (h : Scanned source j i ls) (hij : i < j)
    (hb : byte source i = some b) (hbreak : isBreak b = true) :
    ∃ ms, ls = (i + break_at source i) :: ms ∧ Scanned source j (i + break_at source i) ms := by
  cases h with
  | stop => exact absurd hij (Nat.lt_irrefl _)
  | plain hb' hplain _ =>
    rw [hb] at hb'
    cases hb'
    rw [hbreak] at hplain
    cases hplain
  | line_break _ _ rest => exact ⟨_, rfl, rest⟩

theorem plain_to {q : ℕ} (h : Scanned source j i ls) (hiq : i ≤ q) (hqj : q ≤ j)
    (hplain : ∀ k b, i ≤ k → k < q → byte source k = some b → isBreak b = false) :
    Scanned source j q ls := by
  induction h with
  | stop =>
    rw [Nat.le_antisymm hqj hiq]
    exact .stop
  | @plain i b ls hb hb' rest ih =>
    rcases Nat.eq_or_lt_of_le hiq with rfl | hlt
    · exact .plain hb hb' rest
    · exact ih hlt fun k b hk hkq => hplain k b (by omega) hkq
  | @line_break i b ls hb hbreak rest ih =>
    rcases Nat.eq_or_lt_of_le hiq with rfl | hlt
    · exact .line_break hb hbreak rest
    · have hno := hplain i b le_rfl hlt hb
      rw [hbreak] at hno
      cases hno

end Scanned

variable {source : Bytes}

/-- The bytes from `i` to `j` can be gone over break by break, where the last of them is no break
or the byte after them is none. -/
theorem scanned_between {i j : ℕ} (hi : 1 ≤ i) (hij : i ≤ j) (hj : j ≤ source.length + 1)
    (hend : (∃ b, byte source (j - 1) = some b ∧ isBreak b = false) ∨
      ∀ b, byte source j = some b → isBreak b = false) : ∃ ls, Scanned source j i ls := by
  -- by induction on how much is left
  generalize hleft : j - i = left
  induction left using Nat.strong_induction_on generalizing i with
  | _ left ih =>
    rcases Nat.eq_or_lt_of_le hij with rfl | hlt
    · exact ⟨[], .stop⟩
    obtain ⟨b, hb⟩ := byte_of_le hi (show i ≤ source.length by omega)
    cases hbreak : isBreak b with
    | false =>
      obtain ⟨ls, hls⟩ := ih (j - (i + 1)) (by omega) (by omega) hlt rfl
      exact ⟨ls, .plain hb hbreak hls⟩
    | true =>
      have hone := (break_at_spec hb hbreak).1
      have hle : i + break_at source i ≤ j := by
        unfold break_at at hone ⊢
        rw [hb] at hone ⊢
        simp only [hbreak, Bool.not_true, false_eq_true, if_false] at hone ⊢
        cases hd : byte source (i + 1) with
        | none =>
          simp only
          omega
        | some d =>
          simp only
          split
          · next htwo =>
            have hdbreak : isBreak d = true := (and_eq_true _ _ ▸ htwo).1
            by_contra hgt
            have heq : j = i + 1 := by omega
            subst heq
            rcases hend with ⟨b', hb', hplain⟩ | hplain
            · rw [Nat.add_sub_cancel, hb] at hb'
              cases hb'
              rw [hbreak] at hplain
              cases hplain
            · rw [hplain d hd] at hdbreak
              cases hdbreak
          · omega
      obtain ⟨ls, hls⟩ := ih (j - (i + break_at source i)) (by omega) (by omega) hle rfl
      exact ⟨_, .line_break hb hbreak hls⟩

theorem scanned_plain {i j : ℕ} (hij : i ≤ j)
    (hplain : ∀ k, i ≤ k → k < j → ∃ b, byte source k = some b ∧ isBreak b = false) :
    Scanned source j i [] := by
  generalize hleft : j - i = left
  induction left generalizing i with
  | zero =>
    rw [show i = j by omega]
    exact .stop
  | succ left ih =>
    obtain ⟨b, hb, hno⟩ := hplain i le_rfl (by omega)
    exact .plain hb hno (ih (by omega) (fun k hk => hplain k (by omega)) (by omega))

theorem Scanned.starts_from {i j : ℕ} {ls : List ℕ} (h : Scanned source j i ls) (hi : 1 ≤ i) :
    starts_from i (source.drop (i - 1)) = ls ++ Lexer.starts_from j (source.drop (j - 1)) := by
  have hcons : ∀ {i : ℕ} {b : UInt8}, 1 ≤ i → byte source i = some b → source.drop (i - 1) = b :: source.drop i := by
    intro i b hi hb
    rw [byte_eq source hi] at hb
    obtain ⟨hlt, heq⟩ := List.getElem?_eq_some_iff.mp hb
    rw [drop_eq_getElem_cons hlt, heq, Nat.sub_add_cancel hi]
  induction h with
  | stop => rfl
  | @plain i b ls hb hplain rest ih =>
    rw [← ih (by omega), Nat.add_sub_cancel, hcons hi hb]
    cases hd : source.drop i with
    | nil => simp only [Lexer.starts_from, hplain, false_eq_true, if_false]
    | cons d rest => simp only [Lexer.starts_from, hplain, false_eq_true, if_false]
  | @line_break i b ls hb hbreak rest ih =>
    rw [cons_append, ← ih (by omega), hcons hi hb]
    cases hd : byte source (i + 1) with
    | none =>
      have hnil : source.drop i = [] := by
        exact drop_eq_nil_iff.mpr (List.getElem?_eq_none_iff.mp hd)
      have hat : break_at source i = 1 := by
        simp only [break_at, hb, hbreak, hd, Bool.not_true, false_eq_true, if_false]
      rw [hat, hnil, Nat.add_sub_cancel, hnil]
      simp only [Lexer.starts_from, hbreak, if_true]
    | some d =>
      have hdrop := hcons (Nat.le_add_left 1 i) hd
      rw [Nat.add_sub_cancel] at hdrop
      rw [hdrop]
      simp only [Lexer.starts_from, hbreak, if_true, break_at, hb, hd, Bool.not_true, false_eq_true, if_false]
      split
      · rw [show i + 2 - 1 = i + 1 by omega]
      · rw [Nat.add_sub_cancel, hdrop]

/-! ## The lines begun by an offset -/

/-- No line break straddles `k`, and `lines` are the lines that begin by it. -/
def Reached (source : Bytes) (k : ℕ) (lines : List ℕ) : Prop := ∃ ls, lines = 1 :: ls ∧ Scanned source k 1 ls

namespace Reached

variable {j k : ℕ} {lines ls : List ℕ}

theorem start : Reached source 1 [1] := ⟨[], rfl, .stop⟩

theorem trans (h : Reached source k lines) (h' : Scanned source j k ls) : Reached source j (lines ++ ls) := by
  obtain ⟨ms, rfl, hms⟩ := h
  exact ⟨ms ++ ls, rfl, hms.trans h'⟩

theorem sorted (h : Reached source k lines) : lines.Pairwise (· < ·) := by
  obtain ⟨ms, rfl, hms⟩ := h
  exact pairwise_cons.mpr ⟨fun p hp => (hms.bounds p hp).1, hms.sorted⟩

theorem le (h : Reached source k lines) : ∀ p ∈ lines, 1 ≤ p ∧ p ≤ k := by
  obtain ⟨ms, rfl, hms⟩ := h
  intro p hp
  rcases mem_cons.mp hp with rfl | hp
  · exact ⟨Nat.le_refl 1, hms.le⟩
  · have hbounds := hms.bounds p hp
    omega

theorem line_starts_eq (h : Reached source k lines) :
    line_starts source = lines ++ starts_from k (source.drop (k - 1)) := by
  obtain ⟨ms, rfl, hms⟩ := h
  have heq := hms.starts_from (Nat.le_refl 1)
  rw [show source.drop (1 - 1) = source from rfl] at heq
  rw [line_starts, heq, cons_append]

/-- At the end of the source every line has begun. -/
theorem at_end (h : Reached source (source.length + 1) lines) : lines = line_starts source := by
  have hnil : source.drop (source.length + 1 - 1) = [] := by simp
  rw [h.line_starts_eq, hnil, starts_from, append_nil]

theorem filter_eq (h : Reached source k lines) (hjk : j ≤ k) :
    (line_starts source).filter (· ≤ j) = lines.filter (· ≤ j) := by
  have hnone : (starts_from k (source.drop (k - 1))).filter (· ≤ j) = [] := by
    refine filter_eq_nil_iff.mpr fun q hq => ?_
    have hgt := starts_from_gt k _ q hq
    simp only [decide_eq_true_eq]
    omega
  rw [h.line_starts_eq, filter_append, hnone, append_nil]

/-- The lines begun by an offset are those of the source up to it. -/
theorem eq_filter (h : Reached source k lines) : lines = (line_starts source).filter (· ≤ k) := by
  rw [h.filter_eq (Nat.le_refl k)]
  exact (List.filter_eq_self.mpr fun p hp => decide_eq_true (h.le p hp).2).symm

end Reached

theorem sorted_filter_take {l : List ℕ} (hl : l.Pairwise (· < ·)) {n a b : ℕ}
    (ha : l[n]? = some a) (hab : a ≤ b) (hnext : ∀ a', l[n + 1]? = some a' → b < a') :
    l.filter (· ≤ b) = l.take (n + 1) := by
  have hle : ∀ p ∈ l.take (n + 1), p ≤ b := by
    intro p hp
    obtain ⟨k, hk, rfl⟩ := mem_iff_getElem.mp hp
    rw [getElem_take]
    obtain ⟨hn, rfl⟩ := List.getElem?_eq_some_iff.mp ha
    rw [length_take] at hk
    rcases Nat.eq_or_lt_of_le (show k ≤ n by omega) with rfl | hlt
    · exact hab
    · exact Nat.le_of_lt (Nat.lt_of_lt_of_le (pairwise_iff_getElem.mp hl k n _ hn hlt) hab)
  have hgt : ∀ p ∈ l.drop (n + 1), b < p := by
    intro p hp
    obtain ⟨k, hk, rfl⟩ := mem_iff_getElem.mp hp
    rw [length_drop] at hk
    rw [getElem_drop]
    have hfirst := hnext l[n + 1] (getElem?_eq_getElem (by omega))
    rcases Nat.eq_zero_or_pos k with rfl | hpos
    · exact hfirst
    · exact Nat.lt_trans hfirst (pairwise_iff_getElem.mp hl (n + 1) (n + 1 + k) (by omega) (by omega) (by omega))
  calc l.filter (· ≤ b) = (l.take (n + 1) ++ l.drop (n + 1)).filter (· ≤ b) := by
        rw [take_append_drop]
    _ = (l.take (n + 1)).filter (· ≤ b) ++ (l.drop (n + 1)).filter (· ≤ b) := filter_append ..
    _ = l.take (n + 1) ++ [] := by
        rw [List.filter_eq_self.mpr fun p hp => decide_eq_true (hle p hp), filter_eq_nil_iff.mpr fun p hp => by
            have hlt := hgt p hp
            simp only [decide_eq_true_eq]
            omega]
    _ = l.take (n + 1) := append_nil _

theorem Reached.place {k n p a : ℕ} {lines : List ℕ} (h : Reached source k lines) (hpk : p ≤ k)
    (ha : lines[n]? = some a) (hap : a ≤ p) (hnext : ∀ a', lines[n + 1]? = some a' → p < a') :
    line_of source p = n + 1 ∧ start_of source p = a := by
  have htake := sorted_filter_take h.sorted ha hap hnext
  obtain ⟨hn, rfl⟩ := List.getElem?_eq_some_iff.mp ha
  refine ⟨?_, ?_⟩
  · rw [line_of, h.filter_eq hpk, htake, length_take]
    omega
  · rw [start_of, h.filter_eq hpk, htake, take_succ_eq_append_getElem hn, getLastD_concat]

/-- Where the lexer stands at `k`: the lines that begin by it, its line and where that begins. -/
structure At (source : Bytes) (k line line_start : ℕ) (lines : List ℕ) : Prop where
  reached : Reached source k lines
  line : line = lines.length
  line_start : lines.getLast? = some line_start

namespace At

variable {k line line_start : ℕ} {lines : List ℕ}

theorem pos (h : At source k line line_start lines) : 1 ≤ line := by
  rw [h.line]
  cases lines with
  | nil => exact absurd h.line_start (by simp)
  | cons => simp

theorem get (h : At source k line line_start lines) : lines[line - 1]? = some line_start := by
  rw [h.line, ← getLast?_eq_getElem?]
  exact h.line_start

theorem start_le (h : At source k line line_start lines) : line_start ≤ k :=
  (h.reached.le _ (mem_of_getLast? h.line_start)).2

theorem place (h : At source k line line_start lines) : line_of source k = line ∧ start_of source k = line_start := by
  have hpos := h.pos
  have hnone : ∀ a', lines[line - 1 + 1]? = some a' → k < a' := by
    intro a' ha'
    rw [getElem?_eq_none (by rw [← h.line]; omega)] at ha'
    cases ha'
  obtain ⟨hline, hstart⟩ := h.reached.place (Nat.le_refl k) h.get h.start_le hnone
  exact ⟨by omega, hstart⟩

theorem line_break {b : UInt8} (h : At source k line line_start lines)
    (hb : byte source k = some b) (hbreak : isBreak b = true) :
    At source (k + break_at source k) (line + 1) (k + break_at source k) (lines ++ [k + break_at source k]) := by
  refine ⟨h.reached.trans (.line_break hb hbreak .stop), ?_, ?_⟩
  · rw [h.line, length_append, length_singleton]
  · rw [getLast?_append_of_ne_nil _ (cons_ne_nil _ _), getLast?_singleton]

theorem plain {j : ℕ} (h : At source k line line_start lines) (hscan : Scanned source j k []) :
    At source j line line_start lines :=
  ⟨by simpa using h.reached.trans hscan, h.line, h.line_start⟩

end At

/-! ## The lexer's own counts -/

/-- `advance_lines` over the bytes from `i` to `j` goes from where the lexer stands at `i` to where
it stands at `j`, and knows the line before the last one it has begun. -/
theorem advance_lines_at {i j line line_start : ℕ} {lines ls : List ℕ}
    (h : At source i line line_start lines) (hi : 1 ≤ i) (hj : j ≤ source.length + 1)
    (hscan : Scanned source j i ls) :
    ∃ l, advance_lines (sub source i (j - 1)) i line line_start lines = some l ∧
      At source j l.line l.line_start l.lines ∧
      (l.lines = lines ∨ ∃ before, l.lines = before ++ [l.previous, l.line_start]) := by
  have hij := hscan.le
  have hlen : (sub source i (j - 1)).length = j - i := by
    rw [sub_length hi (by omega) (by omega)]
    omega
  generalize htext : sub source i (j - 1) = text at hlen ⊢
  let Inv : Lines → Prop := fun l => 1 ≤ l.p ∧ l.p ≤ text.length + 1 ∧
    At source (i + l.p - 1) l.line l.line_start l.lines ∧
    (∃ ls, Scanned source j (i + l.p - 1) ls) ∧
    (l.lines = lines ∨ ∃ before, l.lines = before ++ [l.previous, l.line_start])
  have hround : ∀ l, Inv l → Advances (advance_round text i) Inv (fun l => text.length + 1 - l.p)
      (fun l => At source j l.line l.line_start l.lines ∧
        (l.lines = lines ∨ ∃ before, l.lines = before ++ [l.previous, l.line_start])) l := by
    rintro l ⟨hp, hle, hat, ⟨ms, hms⟩, hprev⟩
    have hbyte : ∀ k, 1 ≤ k → k ≤ text.length → byte text k = byte source (i + k - 1) := by
      intro k hk hkl
      rw [← htext, byte_sub hi hk (by omega)]
    cases hf : find isBreak text l.p with
    | none =>
      refine Or.inr ⟨l, by rw [advance_round, hf], hat.plain (scanned_plain hms.le ?_), hprev⟩
      intro k hk hkj
      obtain ⟨b, hb⟩ := byte_of_le (s := source) (show 1 ≤ k by omega) (by omega)
      refine ⟨b, hb, find_none hp hf (show l.p ≤ k + 1 - i by omega) ?_⟩
      rwa [hbyte _ (by omega) (by omega), show i + (k + 1 - i) - 1 = k by omega]
    | some q =>
      obtain ⟨hpq, ⟨c, hc, hbreak⟩, hno⟩ := find_some hp hf
      have hq := byte_some_le hc
      have hcs := hc
      rw [hbyte q hq.1 hq.2] at hcs
      have hplain : ∀ k b, i + l.p - 1 ≤ k → k < i + q - 1 → byte source k = some b → isBreak b = false := by
        intro k b hk hkq hb
        refine hno (k + 1 - i) b (by omega) (by omega) ?_
        rwa [hbyte _ (by omega) (by omega), show i + (k + 1 - i) - 1 = k by omega]
      have hat_q : At source (i + q - 1) l.line l.line_start l.lines := by
        refine hat.plain (scanned_plain (by omega) fun k hk hkq => ?_)
        obtain ⟨b, hb⟩ := byte_of_le (s := source) (show 1 ≤ k by omega) (by omega)
        exact ⟨b, hb, hplain k b hk hkq hb⟩
      obtain ⟨ms', _, hms'⟩ := (hms.plain_to (by omega) (by omega) hplain).break_cases (by omega) hcs hbreak
      have hms'le := hms'.le
      have hsame : break_at text q = break_at source (i + q - 1) := by
        rw [← htext]
        exact break_at_sub hi hq.1 (by omega) (by omega)
      have hone := (break_at_spec hc hbreak).1
      have hplace : i + (q + break_at text q) - 1 = i + q - 1 + break_at source (i + q - 1) := by
        omega
      refine Or.inl ⟨_, by rw [advance_round, hf], ⟨?_, ?_, ?_, ⟨ms', ?_⟩, ?_⟩, ?_⟩
      · show 1 ≤ q + break_at text q
        omega
      · show q + break_at text q ≤ text.length + 1
        omega
      · rw [hplace]
        exact hat_q.line_break hcs hbreak
      · rwa [hplace]
      · -- the line that was last before is the one before the new one
        obtain ⟨before, hbefore⟩ := getLast?_eq_some_iff.mp hat.line_start
        refine Or.inr ⟨before, ?_⟩
        rw [hbefore, append_assoc, singleton_append]
      · show text.length + 1 - (q + break_at text q) < text.length + 1 - l.p
        omega
  refine loop_total hround (text.length + 1) ⟨1, line, line_start, line_start, lines⟩
    ⟨Nat.le_refl 1, by simp, ?_, ⟨ls, ?_⟩, Or.inl rfl⟩ (by simp)
  · rwa [Nat.add_sub_cancel]
  · rwa [Nat.add_sub_cancel]

/-- `span_end` answers the place of the last byte it goes over. -/
theorem span_end_at {i e line line_start : ℕ} {lines ls : List ℕ}
    (h : At source i line line_start lines) (hi : 1 ≤ i) (hie : i ≤ e) (he : e ≤ source.length)
    (hscan : Scanned source (e + 1) i ls) :
    ∃ sp, span_end (sub source i e) i line line_start lines = some sp ∧
      At source (e + 1) sp.line sp.line_start sp.lines ∧
      sp.yend = line_of source e ∧ sp.xend = column_of source e := by
  obtain ⟨l, hl, hat, hprev⟩ := advance_lines_at h hi (by omega) hscan
  rw [Nat.add_sub_cancel] at hl
  have hlast : i + (sub source i e).length - 1 = e := by
    rw [sub_length hi (by omega) he]
    omega
  have hline := hat.pos
  have hget := hat.get
  have hnone : ∀ a', l.lines[l.line - 1 + 1]? = some a' → e < a' := by
    intro a' ha'
    rw [getElem?_eq_none (by rw [← hat.line]; omega)] at ha'
    cases ha'
  unfold span_end
  simp only [hl, bind_eq_bind, bind_some, Option.pure_def, hlast, column_of]
  split
  · next hbreak =>
    -- the last byte ends a line break
    rcases hprev with hsame | ⟨before, hbefore⟩
    · have hstart := h.start_le
      have hboth := hat.line_start
      rw [hsame, h.line_start] at hboth
      cases hboth
      omega
    · have hlen : l.line = before.length + 2 := by
        rw [hat.line, hbefore, length_append]
        rfl
      have hsorted := hat.reached.sorted
      rw [hbefore] at hsorted
      have hlt : l.previous < l.line_start :=
        (pairwise_cons.mp (pairwise_append.mp hsorted).2.1).1 _ (mem_singleton.mpr rfl)
      have hprevious : l.lines[before.length]? = some l.previous := by
        rw [hbefore, getElem?_append_right le_rfl, Nat.sub_self]
        rfl
      have hfollowing : ∀ a', l.lines[before.length + 1]? = some a' → e < a' := by
        intro a' ha'
        rw [hbefore, getElem?_append_right (Nat.le_add_right _ 1), Nat.add_sub_cancel_left] at ha'
        cases ha'
        omega
      obtain ⟨hy, hx⟩ := hat.reached.place (Nat.le_succ e) hprevious (by omega) hfollowing
      refine ⟨_, rfl, hat, ?_, ?_⟩
      · show l.line - 1 = line_of source e
        omega
      · rw [hx]
  · next hplain =>
    have hle := hat.start_le
    obtain ⟨hy, hx⟩ := hat.reached.place (Nat.le_succ e) hget (by omega) hnone
    refine ⟨_, rfl, hat, ?_, ?_⟩
    · show l.line = line_of source e
      omega
    · rw [hx]

/-- The line of a bad escape is found among the lines its string begins. -/
theorem bad_line_at {i k e line line_start : ℕ} {lines ls : List ℕ}
    (h : At source i line line_start lines) (hreached : Reached source e (lines ++ ls))
    (hik : i ≤ k) (hke : k ≤ e) :
    ∃ y start, bad_line (lines ++ ls) k line line_start = some (y, start) ∧
      y = line_of source k ∧ start = start_of source k := by
  let Inv : ℕ × ℕ → Prop := fun l =>
    1 ≤ l.1 ∧ (lines ++ ls)[l.1 - 1]? = some l.2 ∧ l.2 ≤ k
  have hround : ∀ l, Inv l → Advances (bad_line_round (lines ++ ls) k) Inv (fun l => (lines ++ ls).length - l.1)
      (fun l => l.1 = line_of source k ∧ l.2 = start_of source k) l := by
    rintro ⟨y, start⟩ ⟨hy, hget, hle⟩
    have hdone : (∀ a', (lines ++ ls)[y]? = some a' → k < a') → y = line_of source k ∧ start = start_of source k := by
      intro hnext
      have hnext' : ∀ a', (lines ++ ls)[y - 1 + 1]? = some a' → k < a' := by
        rwa [Nat.sub_add_cancel hy]
      obtain ⟨hline, hstart⟩ := hreached.place hke hget hle hnext'
      exact ⟨by omega, hstart.symm⟩
    unfold Advances bad_line_round
    cases hl : (lines ++ ls)[y]? with
    | none =>
      refine Or.inr ⟨_, rfl, hdone fun a' ha' => ?_⟩
      rw [hl] at ha'
      cases ha'
    | some following =>
      have hlt := (List.getElem?_eq_some_iff.mp hl).1
      simp only
      split
      · next hafter =>
        refine Or.inr ⟨_, rfl, hdone fun a' ha' => ?_⟩
        rw [hl] at ha'
        cases ha'
        exact hafter
      · next hby =>
        refine Or.inl ⟨_, rfl, ⟨Nat.le_add_left 1 y, ?_, by simp only; omega⟩, by simp only; omega⟩
        simp only [Nat.add_sub_cancel]
        exact hl
  have hget : (lines ++ ls)[line - 1]? = some line_start := by
    have hin := h.get
    rwa [getElem?_append_left (List.getElem?_eq_some_iff.mp hin).1]
  obtain ⟨⟨y, start⟩, hr, hpost⟩ := loop_total hround ((lines ++ ls).length + 1) (line, line_start)
    ⟨h.pos, hget, Nat.le_trans h.start_le hik⟩ (by simp only; omega)
  exact ⟨y, start, hr, hpost⟩

/-! ## Short strings -/

theorem not_break {p : UInt8 → Bool} (hclass : p 10 = false ∧ p 13 = false) {b : UInt8}
    (h : p b = true) : isBreak b = false := by
  cases hbreak : isBreak b with
  | false => rfl
  | true =>
    simp only [isBreak, or_eq_true, beq_iff_eq] at hbreak
    rcases hbreak with rfl | rfl
    · rw [hclass.1] at h
      cases h
    · rw [hclass.2] at h
      cases h

theorem run_end_plain {p : UInt8 → Bool} (hclass : p 10 = false ∧ p 13 = false) (most : ℕ) {i : ℕ}
    (hi : 1 ≤ i) {b : UInt8} (hb : byte source (i - 1) = some b) (hplain : isBreak b = false) :
    ∃ b, byte source (run_end p most source i) = some b ∧ isBreak b = false := by
  have hrun := run_end_isRun p most source hi
  generalize run_end p most source i = e at hrun
  have hfirst := hrun.first
  rcases Nat.eq_or_lt_of_le hfirst with heq | hlt
  · rw [show e = i - 1 by omega]
    exact ⟨b, hb, hplain⟩
  · obtain ⟨c, hc, hp⟩ := hrun.passes e (by omega) (Nat.le_refl e)
    exact ⟨c, hc, not_break hclass hp⟩

theorem check_escape_scanned {s e : ℕ} {c : UInt8} {fix : Bytes}
    (hc : byte source (s + 1) = some c) (h : check_escape source s = some (e, fix))
    (hse : s + 1 ≤ e) (he : e ≤ source.length) : ∃ ls, Scanned source (e + 1) (s + 1) ls := by
  -- but for a break and a `\z` run, the last byte of an escape is no break
  have hlast : (∃ b, byte source e = some b ∧ isBreak b = false) →
      ∃ ls, Scanned source (e + 1) (s + 1) ls := fun hplain =>
    scanned_between (Nat.le_add_left 1 s) (by omega) (by omega) (Or.inl hplain)
  unfold check_escape at h
  rw [hc] at h
  simp only at h
  split at h
  · next hsimple =>
    cases h
    refine hlast ⟨c, hc, not_break (p := fun c => (simple_escape c).isSome) ⟨by decide, by decide⟩ hsimple⟩
  split at h
  · next hbreak =>
    cases h
    have hend : s + 1 + break_at source (s + 1) = s + break_at source (s + 1) + 1 := by omega
    have hover : Scanned source (s + break_at source (s + 1) + 1) (s + 1 + break_at source (s + 1)) [] := by
      rw [hend]
      exact .stop
    exact ⟨_, .line_break hc hbreak hover⟩
  next hplain =>
  have hplain : isBreak c = false := by simpa using hplain
  have hnext : byte source (s + 2 - 1) = some c := hc
  split at h
  · -- the run of `\z` ends before a byte that is no break
    cases h
    have hrun := run_end_isRun isSpace source.length source (show 1 ≤ s + 2 by omega)
    refine scanned_between (Nat.le_add_left 1 s) (by omega) (by omega) (Or.inr fun b hb => ?_)
    have hstop := hrun.stops b (by omega) hb
    rw [isSpace, or_eq_false_iff] at hstop
    exact hstop.2
  split at h
  · split at h
    · next htwo =>
      cases h
      have hrun := run_end_isRun isHex 2 source (show 1 ≤ s + 2 by omega)
      rw [htwo] at hrun
      obtain ⟨b, hb, hhex⟩ := hrun.passes (s + 3) (by omega) le_rfl
      exact hlast ⟨b, hb, not_break ⟨by decide, by decide⟩ hhex⟩
    · cases h
      exact hlast (run_end_plain ⟨by decide, by decide⟩ 1 (by omega) hnext hplain)
  split at h
  · next hdigit =>
    have hrun : ∃ b, byte source (run_end isDigit 3 source (s + 1)) = some b ∧ isBreak b = false := by
      have hge := run_end_gt 3 hc hdigit (by omega)
      obtain ⟨b, hb, hp⟩ := (run_end_isRun isDigit 3 source (Nat.le_add_left 1 s)).passes _ hge le_rfl
      exact ⟨b, hb, not_break ⟨by decide, by decide⟩ hp⟩
    obtain ⟨n, hn⟩ := decimal_run hc hdigit
    simp only [hn, bind_eq_bind, bind_some] at h
    split at h
    · cases h
      exact hlast hrun
    · cases h
      exact hlast hrun
  split at h
  · cases hbr : braced source (s + 2) with
    | none =>
      rw [hbr] at h
      cases h
      exact hlast ⟨c, hc, hplain⟩
    | some found =>
      obtain ⟨e', digits⟩ := found
      have hclose : byte source e' = some 125 := by
        unfold braced at hbr
        simp only at hbr
        split at hbr
        · next hall =>
          cases hbr
          exact hall.2.2
        · cases hbr
      have heq : e = e' := by
        rw [hbr] at h
        simp only at h
        split at h
        · split at h
          · exact (Prod.mk.inj (some.inj h)).1.symm
          · obtain ⟨n, _, h⟩ := bind_eq_some_iff.mp h
            split at h
            · exact (Prod.mk.inj (some.inj h)).1.symm
            · exact (Prod.mk.inj (some.inj h)).1.symm
        · exact (Prod.mk.inj (some.inj h)).1.symm
      subst heq
      exact hlast ⟨125, hclose, by decide⟩
  · cases h
    refine hlast ?_
    split
    · exact run_end_plain ⟨by decide, by decide⟩ _ (by omega) hnext hplain
    · exact ⟨c, hc, hplain⟩

/-- No line break straddles the end of a short string, and its bad escape is at a backslash. -/
theorem read_string_scanned {pos : ℕ} {quote : UInt8} (hquote : isBreak quote = false)
    (hopen : byte source pos = some quote) {q : Quoted}
    (h : read_string source pos quote = some q) :
    (∃ ls, Scanned source (q.stop + 1) pos ls) ∧ (q.bad_at ≠ 0 → byte source q.bad_at = some 92) := by
  have hpos := byte_some_le hopen
  let Inv : Reading → Prop := fun r => r.Fits source pos ∧ (∃ ls, Scanned source r.i pos ls) ∧
    (r.bad_at ≠ 0 → byte source r.bad_at = some 92)
  let Post : Quoted → Prop := fun q => (∃ ls, Scanned source (q.stop + 1) pos ls) ∧
    (q.bad_at ≠ 0 → byte source q.bad_at = some 92)
  have hround : ∀ r, Inv r → Advances (string_round source quote) Inv (fun r => source.length + 1 - r.i) Post r := by
    rintro r ⟨hfits, ⟨ls, hls⟩, hbad⟩
    have hfirst := hfits.first
    have hlast := hfits.last
    -- `r.i` to the next byte that ends a run is plain
    have hrun : ∀ s, r.i ≤ s → s ≤ source.length + 1 → (∀ k b, r.i ≤ k → k < s →
        byte source k = some b → ends_run quote b = false) → ∃ ls, Scanned source s pos ls := by
      intro s his hs hno
      refine ⟨ls ++ [], hls.trans (scanned_plain his fun k hik hks => ?_)⟩
      obtain ⟨b, hb⟩ := byte_of_le (s := source) (show 1 ≤ k by omega) (by omega)
      have hends := hno k b hik hks hb
      simp only [ends_run, or_eq_false_iff] at hends
      exact ⟨b, hb, hends.2⟩
    rcases string_round_advances hpos.2 quote r hfits with ⟨r', hr', hfits', hless⟩ | ⟨q, hq, hfitsq⟩
    · refine Or.inl ⟨r', hr', ⟨hfits', ?_⟩, hless⟩
      unfold string_round at hr'
      cases hf : find (ends_run quote) source r.i with
      | none =>
        rw [hf] at hr'
        cases hr'
      | some s =>
        obtain ⟨his, ⟨b, hb, hends⟩, hno⟩ := find_some (by omega) hf
        rw [hf] at hr'
        simp only [hb, some.injEq] at hr'
        split at hr'
        · cases hr'
        split at hr'
        · cases hr'
        split at hr'
        · cases hr'
        next hquote' hbreak hnext =>
        have hback : b = 92 := by
          simp only [ends_run, isBreak, or_eq_true, beq_iff_eq] at hends
          tauto
        subst hback
        obtain ⟨c, hc⟩ := ne_none_iff_exists'.mp hnext
        obtain ⟨e, fix, he, hse, helen, hge⟩ := check_escape_some hb
        obtain ⟨ms, hms⟩ := check_escape_scanned hc he (hge hnext) helen
        obtain ⟨ls', hls'⟩ := hrun s his (by omega) hno
        have hscan : ∃ ls, Scanned source (e + 1) pos ls := ⟨_, hls'.trans (.plain hb (by decide) hms)⟩
        simp only [he, bind_eq_bind, bind_some] at hr'
        split at hr'
        · cases hr'
          exact ⟨hscan, fun _ => hb⟩
        · cases hr'
          exact ⟨hscan, hbad⟩
    · refine Or.inr ⟨q, hq, ?_⟩
      unfold string_round at hq
      cases hf : find (ends_run quote) source r.i with
      | none =>
        rw [hf] at hq
        cases hq
        exact ⟨hrun _ hlast le_rfl fun k b hk _ hb => find_none (by omega) hf hk hb, hbad⟩
      | some s =>
        obtain ⟨his, ⟨b, hb, hends⟩, hno⟩ := find_some (by omega) hf
        have hslen := byte_some_le hb
        obtain ⟨ls', hls'⟩ := hrun s his (by omega) hno
        rw [hf] at hq
        simp only [hb, some.injEq] at hq
        split at hq
        · next heq =>
          cases hq
          subst heq
          exact ⟨⟨_, hls'.trans (.plain hb hquote .stop)⟩, hbad⟩
        split at hq
        · cases hq
          show (∃ ls, Scanned source (s - 1 + 1) pos ls) ∧ _
          rw [Nat.sub_add_cancel hslen.1]
          exact ⟨⟨ls', hls'⟩, hbad⟩
        split at hq
        · next hquote' hbreak hnext =>
          cases hq
          have hplain : isBreak b = false := by
            cases hb' : isBreak b with
            | false => rfl
            | true =>
              simp only [isBreak, or_eq_true, beq_iff_eq] at hb'
              exact absurd hb' hbreak
          exact ⟨⟨_, hls'.trans (.plain hb hplain .stop)⟩, hbad⟩
        · obtain ⟨⟨e, fix⟩, _, hq⟩ := bind_eq_some_iff.mp hq
          split at hq
          · cases hq
          · cases hq
  obtain ⟨q', hq', hpost⟩ := loop_total hround (source.length + 1) ⟨pos + 1, 0, 0, []⟩
    ⟨⟨Nat.le_refl _, by simp only; omega, Or.inl rfl⟩, ⟨[], .plain hopen hquote .stop⟩,
      fun h => absurd rfl h⟩ (by simp only; omega)
  have heq : q' = q := some.inj (hq'.symm.trans h)
  rwa [← heq]

end Cosmic.Lexer
