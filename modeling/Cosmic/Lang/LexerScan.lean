/-
Where each scanner of the lexer ends.

Every loop over the source's bytes ends, raises nothing, and answers a position inside the
source. `read_string` further answers that the escapes it passed are good ones, which is what
`decode` needs to raise nothing.
-/
import Cosmic.Lang.Lexer

set_option autoImplicit false

namespace Cosmic.Lexer

open Cosmic.Base List Option

/-! ## Runs -/

variable {i : ℕ}

theorem run_end_ge (p : UInt8 → Bool) (most : ℕ) (s : Bytes) (hi : 1 ≤ i) : i ≤ run_end p most s i + 1 :=
  (run_end_isRun p most s hi).first

theorem run_end_le (p : UInt8 → Bool) (most : ℕ) (s : Bytes) (hi : 1 ≤ i) (hle : i ≤ s.length + 1) :
    run_end p most s i ≤ s.length :=
  (run_end_isRun p most s hi).le_length hle

variable {p : UInt8 → Bool} {s : Bytes}

theorem run_end_gt (most : ℕ) {b : UInt8} (hb : byte s i = some b) (hp : p b = true) (hmost : 1 ≤ most) :
    i ≤ run_end p most s i := by
  have hi : 1 ≤ i := (byte_some_le hb).1
  have hrun := run_end_isRun p most s hi
  by_contra hlt
  have hfirst := hrun.first
  have heq : run_end p most s i + 1 = i := by omega
  have hstop := hrun.stops b (by omega) (by rw [heq]; exact hb)
  rw [hp] at hstop
  cases hstop

variable {a z : ℕ}

theorem run_end_sub {most most' : ℕ} (ha : 1 ≤ a) (hi : 1 ≤ i)
    (hmost : most = most' ∨ s.length ≤ most ∧ (sub s a z).length ≤ most') (hend : run_end p most s (a + i - 1) ≤ z) :
    run_end p most' (sub s a z) i + a = run_end p most s (a + i - 1) + 1 := by
  have hrun := run_end_isRun p most s (show 1 ≤ a + i - 1 by omega)
  generalize run_end p most s (a + i - 1) = e at hrun hend
  have hfirst := hrun.first
  have hlast := hrun.last
  suffices hsub : IsRun p most' (sub s a z) i (e + 1 - a) by
    rw [(run_end_isRun p most' (sub s a z) hi).unique hsub]
    omega
  refine ⟨by omega, ?_, fun k hik hke => ?_, fun b hlt hb => ?_⟩
  · rcases hmost with rfl | ⟨_, hlen⟩
    · omega
    by_cases hnone : e + 1 = a + i - 1
    · omega
    · obtain ⟨b, hb, _⟩ := hrun.passes e (by omega) (Nat.le_refl e)
      have hes := (byte_some_le hb).2
      simp only [sub, length_drop, length_take] at hlen
      omega
  · rw [byte_sub ha (by omega) (by omega)]
    exact hrun.passes (a + k - 1) (by omega) (by omega)
  · by_cases hin : e + 1 ≤ z
    · rw [byte_sub ha (by omega) (by omega), show a + (e + 1 - a + 1) - 1 = e + 1 by omega] at hb
      have hes := (byte_some_le hb).2
      exact hrun.stops b (by omega) hb
    · rw [byte_sub_none ha (by omega) (by omega)] at hb
      cases hb

/-! ## Line breaks -/

variable {c : UInt8}

theorem break_at_spec {text : Bytes} (hc : byte text i = some c) (hb : isBreak c = true) :
    1 ≤ break_at text i ∧ i + break_at text i ≤ text.length + 1 := by
  have hi := byte_some_le hc
  unfold break_at
  rw [hc]
  simp only [hb, Bool.not_true, Bool.false_eq_true, if_false]
  cases hd : byte text (i + 1) with
  | none =>
    simp only
    omega
  | some d =>
    have hd' := byte_some_le hd
    simp only
    split <;> omega

theorem advance_lines_some (text : Bytes) (base line line_start : ℕ) (lines : List ℕ) :
    ∃ l, advance_lines text base line line_start lines = some l := by
  have hround : ∀ l : Lines, (1 ≤ l.p ∧ l.p ≤ text.length + 1) →
      Advances (advance_round text base) (fun l => 1 ≤ l.p ∧ l.p ≤ text.length + 1)
        (fun l => text.length + 1 - l.p) (fun _ => True) l := by
    intro l hl
    cases hf : find isBreak text l.p with
    | none => exact Or.inr ⟨l, by rw [advance_round, hf], trivial⟩
    | some q =>
      obtain ⟨hlq, ⟨c, hc, hb⟩, _⟩ := find_some hl.1 hf
      obtain ⟨hpos, hle⟩ := break_at_spec hc hb
      refine Or.inl ⟨_, by rw [advance_round, hf], ⟨?_, hle⟩, ?_⟩
      · show 1 ≤ q + break_at text q
        omega
      · show text.length + 1 - (q + break_at text q) < text.length + 1 - l.p
        omega
  obtain ⟨l, hl, _⟩ := loop_total hround (text.length + 1)
    ⟨1, line, line_start, line_start, lines⟩ ⟨Nat.le_refl 1, by simp⟩ (by simp)
  exact ⟨l, hl⟩

theorem span_end_some (text : Bytes) (base line line_start : ℕ) (lines : List ℕ) :
    ∃ sp, span_end text base line line_start lines = some sp := by
  obtain ⟨l, hl⟩ := advance_lines_some text base line line_start lines
  unfold span_end
  rw [hl]
  simp only [bind_eq_bind, bind_some]
  split
  · exact ⟨_, rfl⟩
  · exact ⟨_, rfl⟩

theorem normalised_some (text : Bytes) : ∃ r, normalised text = some r := by
  have hround : ∀ s : ℕ × Bytes, (1 ≤ s.1 ∧ s.1 ≤ text.length + 1) →
      Advances (normalised_round text) (fun s => 1 ≤ s.1 ∧ s.1 ≤ text.length + 1)
        (fun s => text.length + 1 - s.1) (fun _ => True) s := by
    intro s hs
    cases hf : find isBreak text s.1 with
    | none => exact Or.inr ⟨_, by rw [normalised_round, hf], trivial⟩
    | some q =>
      obtain ⟨hsq, ⟨c, hc, hb⟩, _⟩ := find_some hs.1 hf
      obtain ⟨hpos, hle⟩ := break_at_spec hc hb
      refine Or.inl ⟨_, by rw [normalised_round, hf], ⟨?_, hle⟩, ?_⟩
      · omega
      · show text.length + 1 - (q + break_at text q) < text.length + 1 - s.1
        omega
  obtain ⟨r, hr, _⟩ := loop_total hround (text.length + 1) (1, []) ⟨Nat.le_refl 1, by simp⟩ (by simp)
  exact ⟨r, hr⟩

/-! ## Escapes -/

theorem all_sub {j : ℕ} (hi : 1 ≤ i) (h : ∀ k, i ≤ k → k ≤ j → ∃ b, byte s k = some b ∧ p b = true) :
    ∀ b ∈ sub s i j, p b = true := by
  intro b hb
  obtain ⟨k, hk, rfl⟩ := mem_iff_getElem.mp hb
  have hlen : k < (sub s i j).length := hk
  simp only [sub, length_drop, length_take] at hlen
  obtain ⟨c, hc, hp⟩ := h (i + k) (by omega) (by omega)
  have hget : byte (sub s i j) (k + 1) = byte s (i + k) := byte_sub hi (by omega) (by omega)
  rw [hc, byte, getElem?_eq_getElem hk] at hget
  rwa [some.inj hget]

theorem sub_ne_nil {j : ℕ} (hi : 1 ≤ i) (hij : i ≤ j) (hj : j ≤ s.length) : sub s i j ≠ [] := by
  intro hnil
  have hlen := sub_length hi (by omega) hj
  rw [hnil] at hlen
  simp only [length_nil] at hlen
  omega

theorem decimal_run (hc : byte s i = some c) (hd : isDigit c = true) :
    ∃ n, decimal (sub s i (run_end isDigit 3 s i)) = some n := by
  have hi := byte_some_le hc
  have hrun := run_end_isRun isDigit 3 s hi.1
  have hge := run_end_gt 3 hc hd (by omega)
  exact ⟨_, decimal_of_digits (sub_ne_nil hi.1 hge (hrun.le_length (by omega))) (all_sub hi.1 hrun.passes)⟩

variable {source digits : Bytes} {e : ℕ}

theorem braced_some (h : braced source i = some (e, digits)) :
    i + 2 ≤ e ∧ e ≤ source.length ∧ digits ≠ [] ∧ ∀ b ∈ digits, isHex b = true := by
  simp only [braced] at h
  split at h
  · next hcond =>
    obtain ⟨hopen, hge, hclose⟩ := hcond
    cases h
    have hrun := run_end_isRun isHex source.length source (show 1 ≤ i + 1 by omega)
    have hlen := byte_some_le hclose
    exact ⟨by omega, hlen.2, sub_ne_nil (by omega) hge (by omega), all_sub (by omega) hrun.passes⟩
  · cases h

theorem check_escape_some {s : ℕ} (hs : byte source s = some 92) :
    ∃ e fix, check_escape source s = some (e, fix) ∧ s ≤ e ∧ e ≤ source.length ∧
      (byte source (s + 1) ≠ none → s + 1 ≤ e) := by
  have hslen := byte_some_le hs
  unfold check_escape
  cases hc : byte source (s + 1) with
  | none => exact ⟨_, _, rfl, Nat.le_refl s, hslen.2, fun h => absurd rfl h⟩
  | some c =>
    have hclen := byte_some_le hc
    dsimp only
    by_cases hsimple : (simple_escape c).isSome = true
    · rw [if_pos hsimple]
      exact ⟨_, _, rfl, by omega, hclen.2, fun _ => Nat.le_refl _⟩
    rw [if_neg hsimple]
    by_cases hbreak : isBreak c = true
    · obtain ⟨hpos, hle⟩ := break_at_spec hc hbreak
      rw [if_pos hbreak]
      exact ⟨_, _, rfl, by omega, by omega, fun _ => by omega⟩
    rw [if_neg hbreak]
    by_cases hz : (c == 122) = true
    · have hge := run_end_ge isSpace source.length source (show 1 ≤ s + 2 by omega)
      have hle := run_end_le isSpace source.length source (show 1 ≤ s + 2 by omega) (by omega)
      rw [if_pos hz]
      exact ⟨_, _, rfl, by omega, hle, fun _ => by omega⟩
    rw [if_neg hz]
    by_cases hx : (c == 120) = true
    · rw [if_pos hx]
      by_cases htwo : run_end isHex 2 source (s + 2) = s + 3
      · have hle := run_end_le isHex 2 source (show 1 ≤ s + 2 by omega) (by omega)
        rw [if_pos htwo]
        exact ⟨_, _, rfl, by omega, by omega, fun _ => by omega⟩
      · have hge := run_end_ge isHex 1 source (show 1 ≤ s + 2 by omega)
        have hle := run_end_le isHex 1 source (show 1 ≤ s + 2 by omega) (by omega)
        rw [if_neg htwo]
        exact ⟨_, _, rfl, by omega, hle, fun _ => by omega⟩
    rw [if_neg hx]
    by_cases hdigit : isDigit c = true
    · obtain ⟨n, hn⟩ := decimal_run hc hdigit
      have hge := run_end_gt 3 hc hdigit (by omega)
      have hle := run_end_le isDigit 3 source hclen.1 (by omega)
      rw [if_pos hdigit]
      simp only [hn, bind_eq_bind, bind_some]
      split
      · exact ⟨_, _, rfl, by omega, hle, fun _ => hge⟩
      · exact ⟨_, _, rfl, by omega, hle, fun _ => hge⟩
    rw [if_neg hdigit]
    split
    · cases hbr : braced source (s + 2) with
      | none => exact ⟨_, _, rfl, by omega, hclen.2, fun _ => Nat.le_refl _⟩
      | some found =>
        obtain ⟨e, digits⟩ := found
        obtain ⟨hge, hle, _, hhex⟩ := braced_some hbr
        simp only
        split
        · split
          · exact ⟨_, _, rfl, by omega, hle, fun _ => by omega⟩
          next hne =>
          have hhex' : ∀ b ∈ digits.dropWhile (· == 48), isHex b = true := fun b hb =>
            hhex b ((dropWhile_suffix _).mem hb)
          rw [hexadecimal_of_digits hne hhex']
          simp only [bind_eq_bind, bind_some]
          split
          · exact ⟨_, _, rfl, by omega, hle, fun _ => by omega⟩
          · exact ⟨_, _, rfl, by omega, hle, fun _ => by omega⟩
        · exact ⟨_, _, rfl, by omega, hle, fun _ => by omega⟩
    · refine ⟨_, _, rfl, ?_, ?_, fun _ => ?_⟩ <;> split
      · have hge := run_end_ge (fun b => 128 ≤ b && b ≤ 191) source.length source (show 1 ≤ s + 2 by omega)
        omega
      · omega
      · exact run_end_le _ source.length source (by omega) (by omega)
      · exact hclen.2
      · have hge := run_end_ge (fun b => 128 ≤ b && b ≤ 191) source.length source (show 1 ≤ s + 2 by omega)
        omega
      · exact le_rfl

/-! ## Short strings -/

/-- Where a short string's bytes and its first bad escape lie, for a string that opens at `pos`. -/
structure Quoted.Fits (source : Bytes) (pos : ℕ) (q : Quoted) : Prop where
  first : pos ≤ q.stop
  last : q.stop ≤ source.length
  close : q.close = 0 ∨ q.close = q.stop ∧ pos < q.close
  bad : q.bad_at = 0 ∨ pos < q.bad_at ∧ 1 ≤ q.bad_length ∧ q.bad_at + q.bad_length ≤ q.stop + 1

/-- Where `read_string` is, and where the bad escape it has met lies. -/
structure Reading.Fits (source : Bytes) (pos : ℕ) (r : Reading) : Prop where
  first : pos + 1 ≤ r.i
  last : r.i ≤ source.length + 1
  bad : r.bad_at = 0 ∨ pos < r.bad_at ∧ 1 ≤ r.bad_length ∧ r.bad_at + r.bad_length ≤ r.i

variable {pos : ℕ}

theorem string_round_advances (hpos : pos ≤ source.length) (quote : UInt8) (r : Reading) (hr : r.Fits source pos) :
    Advances (string_round source quote) (Reading.Fits source pos)
      (fun r => source.length + 1 - r.i) (Quoted.Fits source pos) r := by
  have hfirst := hr.first
  have hlast := hr.last
  have hbad := hr.bad
  unfold Advances string_round
  cases hf : find (ends_run quote) source r.i with
  | none => exact Or.inr ⟨_, rfl, by omega, Nat.le_refl _, Or.inl rfl, by simp only; omega⟩
  | some s =>
    obtain ⟨his, ⟨b, hb, hends⟩, _⟩ := find_some (by omega) hf
    have hslen := byte_some_le hb
    simp only [hb, some.injEq]
    split
    · exact Or.inr ⟨_, rfl, by simp only; omega, hslen.2, Or.inr ⟨rfl, by simp only; omega⟩,
        by simp only; omega⟩
    split
    · exact Or.inr ⟨_, rfl, by simp only; omega, by simp only; omega, Or.inl rfl,
        by simp only; omega⟩
    split
    · exact Or.inr ⟨_, rfl, by simp only; omega, hslen.2, Or.inl rfl, by simp only; omega⟩
    next hquote hbreak hnext =>
    have hback : b = 92 := by
      simp only [ends_run, isBreak, Bool.or_eq_true, beq_iff_eq] at hends
      tauto
    subst hback
    obtain ⟨e, fix, he, hse, helen, hge⟩ := check_escape_some hb
    simp only [he, bind_eq_bind, bind_some]
    split
    · exact Or.inl ⟨_, rfl, ⟨by simp only; omega, by simp only; omega,
        Or.inr (by simp only; omega)⟩, by simp only; omega⟩
    · exact Or.inl ⟨_, rfl, ⟨by simp only; omega, by simp only; omega,
        by simp only; omega⟩, by simp only; omega⟩

theorem read_string_some (hpos : pos ≤ source.length) (quote : UInt8) :
    ∃ q, read_string source pos quote = some q ∧ q.Fits source pos :=
  loop_total (string_round_advances hpos quote) (source.length + 1) ⟨pos + 1, 0, 0, []⟩
    ⟨Nat.le_refl _, by simp only; omega, Or.inl rfl⟩ (by simp only; omega)

/-- From `i` on, only plain bytes and good escapes stand before the closing quote at `close`. -/
inductive Clean (source : Bytes) (quote : UInt8) (close : ℕ) : ℕ → Prop where
  | close {i : ℕ} (hfind : find (ends_run quote) source i = some close) : Clean source quote close i
  | escape {i s e : ℕ} (hfind : find (ends_run quote) source i = some s)
      (hback : byte source s = some 92) (hnext : byte source (s + 1) ≠ none)
      (hgood : check_escape source s = some (e, [])) (hrest : Clean source quote close (e + 1)) :
      Clean source quote close i

variable {quote : UInt8}

theorem Clean.le {close : ℕ} (h : Clean source quote close i) (hi : 1 ≤ i) : i ≤ close := by
  induction h with
  | close hfind => exact (find_some hi hfind).1
  | escape hfind hback hnext hgood _ ih =>
    obtain ⟨e, fix, he, hse, _, _⟩ := check_escape_some hback
    obtain ⟨rfl, _⟩ := Prod.mk.inj (some.inj (hgood.symm.trans he))
    have his := (find_some hi hfind).1
    omega

theorem read_string_clean {q : Quoted} (h : read_string source pos quote = some q) (hclose : 0 < q.close)
    (hbad : q.bad_at = 0) :
    Clean source quote q.close (pos + 1) := by
  let Rel : Reading → Quoted → Prop := fun r q =>
    1 ≤ r.i → 0 < q.close → q.bad_at = 0 → r.bad_at = 0 ∧ Clean source quote q.close r.i
  have hdone : ∀ r q, string_round source quote r = some (.done q) → Rel r q := by
    intro r q hround hi hclose hbad
    unfold string_round at hround
    cases hf : find (ends_run quote) source r.i with
    | none =>
      rw [hf] at hround
      cases hround
      exact absurd hclose (Nat.lt_irrefl 0)
    | some s =>
      rw [hf] at hround
      simp only at hround
      split at hround
      · cases hround
        exact ⟨hbad, .close hf⟩
      split at hround
      · cases hround
        exact absurd hclose (Nat.lt_irrefl 0)
      split at hround
      · cases hround
        exact absurd hclose (Nat.lt_irrefl 0)
      · obtain ⟨⟨e, fix⟩, _, hround⟩ := bind_eq_some_iff.mp hround
        split at hround <;> cases hround
  have hnext : ∀ r r' q, string_round source quote r = some (.next r') → Rel r' q → Rel r q := by
    intro r r' q hround hrel hi hclose hbad
    unfold string_round at hround
    cases hf : find (ends_run quote) source r.i with
    | none =>
      rw [hf] at hround
      cases hround
    | some s =>
      obtain ⟨_, ⟨b, hb, hends⟩, _⟩ := find_some hi hf
      rw [hf] at hround
      simp only [hb, some.injEq] at hround
      split at hround
      · cases hround
      split at hround
      · cases hround
      split at hround
      · cases hround
      next hquote hbreak hnone =>
      have hback : b = 92 := by
        simp only [ends_run, isBreak, Bool.or_eq_true, beq_iff_eq] at hends
        tauto
      subst hback
      obtain ⟨⟨e, fix⟩, he, hround⟩ := bind_eq_some_iff.mp hround
      simp only at hround
      split at hround
      · cases hround
        have hzero := (hrel (Nat.le_add_left 1 e) hclose hbad).1
        simp only at hzero
        omega
      · next hgood =>
        cases hround
        obtain ⟨hzero, hclean⟩ := hrel (Nat.le_add_left 1 e) hclose hbad
        have hfix : fix = [] := by
          by_contra hne
          exact hgood ⟨hne, hzero⟩
        subst hfix
        exact ⟨hzero, .escape hf hb hnone he hclean⟩
  exact (loop_back hdone hnext h (Nat.le_add_left 1 pos) hclose hbad).2

/-! ## Numerals, labels and long brackets -/

theorem numeral_round_advances (hc : byte source pos = some c) (hbegins : isDigit c = true ∨ c = 46) (hex : Bool)
    (i : ℕ) (hi : pos ≤ i ∧ i ≤ source.length + 1) :
    Advances (numeral_round source hex) (fun i => pos ≤ i ∧ i ≤ source.length + 1)
      (fun i => source.length + 1 - i) (fun i => pos + 1 ≤ i ∧ i ≤ source.length + 1) i := by
  unfold Advances numeral_round
  cases hd : byte source i with
  | none =>
    refine Or.inr ⟨i, rfl, ?_, hi.2⟩
    rcases Nat.eq_or_lt_of_le hi.1 with rfl | hlt
    · rw [hd] at hc
      cases hc
    · exact hlt
  | some d =>
    have hlen := byte_some_le hd
    simp only
    split
    · split
      · next hsign =>
        have hnext : i + 1 ≤ source.length := by
          rcases hsign with hsign | hsign
          · exact (byte_some_le hsign).2
          · exact (byte_some_le hsign).2
        exact Or.inl ⟨_, rfl, ⟨by omega, by omega⟩, by omega⟩
      · exact Or.inl ⟨_, rfl, ⟨by omega, by omega⟩, by omega⟩
    split
    · exact Or.inl ⟨_, rfl, ⟨by omega, by omega⟩, by omega⟩
    next _ hstop =>
    refine Or.inr ⟨i, rfl, ?_, hi.2⟩
    rcases Nat.eq_or_lt_of_le hi.1 with rfl | hlt
    · -- the byte a numeral begins with is one it reads on from
      rw [hd] at hc
      cases hc
      simp only [Bool.or_eq_true, beq_iff_eq, not_or, isHex] at hstop
      exact absurd hbegins (by simp [hstop])
    · exact hlt

theorem numeral_end_some (hc : byte source pos = some c) (hbegins : isDigit c = true ∨ c = 46) :
    ∃ e, numeral_end source pos = some e ∧ pos ≤ e ∧ e ≤ source.length := by
  have hpos := byte_some_le hc
  have hdigits : ∀ (hex : Bool) (i : ℕ), pos ≤ i → i ≤ source.length + 1 →
      ∃ i', loop (numeral_round source hex) (source.length + 1) i = some i' ∧
        (pos + 1 ≤ i' ∧ i' ≤ source.length + 1) := fun hex i h₁ h₂ =>
    loop_total (numeral_round_advances hc hbegins hex) (source.length + 1) i ⟨h₁, h₂⟩ (by omega)
  unfold numeral_end
  generalize hhex : (byte source pos == some 48 &&
    (byte source (pos + 1) == some 120 || byte source (pos + 1) == some 88)) = hex
  have hfrom : pos ≤ (if hex then pos + 2 else pos) ∧ (if hex then pos + 2 else pos) ≤ source.length + 1 := by
    cases hex with
    | false => exact ⟨Nat.le_refl _, by simp only [Bool.false_eq_true, if_false]; omega⟩
    | true =>
      simp only [Bool.and_eq_true, Bool.or_eq_true, beq_iff_eq] at hhex
      have hnext : pos + 1 ≤ source.length := by
        rcases hhex.2 with hx | hx
        · exact (byte_some_le hx).2
        · exact (byte_some_le hx).2
      simp only [if_true]
      omega
  obtain ⟨i, hi, hgt, hle⟩ := hdigits hex _ hfrom.1 hfrom.2
  simp only [hi, bind_eq_bind, bind_some]
  have hge := run_end_ge isWord source.length source (show 1 ≤ i by omega)
  exact ⟨_, rfl, by omega, run_end_le _ _ _ (by omega) hle⟩

theorem label_at_some {label : Bytes} (h : label_at source i = some (e, label)) : i + 1 ≤ e ∧ e ≤ source.length := by
  simp only [label_at] at h
  split at h
  · next hcond =>
    obtain ⟨_, _, _, _, hlast⟩ := hcond
    cases h
    have h₁ := run_end_ge is_gap source.length source (show 1 ≤ i + 2 by omega)
    have h₂ := run_end_ge isWord source.length source
      (show 1 ≤ run_end is_gap source.length source (i + 2) + 1 by omega)
    have h₃ := run_end_ge is_gap source.length source (show 1 ≤
      run_end isWord source.length source (run_end is_gap source.length source (i + 2) + 1) + 1
      by omega)
    have hlen := byte_some_le hlast
    omega
  · cases h

theorem long_open_some {level : Bytes} (h : long_open source i = some (e, level)) :
    i + 1 ≤ e ∧ e ≤ source.length := by
  simp only [long_open] at h
  split at h
  · next hcond =>
    cases h
    have hge := run_end_ge (· == 61) source.length source (show 1 ≤ i + 1 by omega)
    have hlen := byte_some_le hcond.2
    omega
  · cases h

/-- A closing bracket is found inside the source. -/
theorem closing_some {level : Bytes} {cs ce : ℕ} (hi : 1 ≤ i)
    (h : find_text (closing level) source i = some (cs, ce)) : i ≤ ce ∧ ce ≤ source.length := by
  have hlen : (closing level).length = level.length + 2 := by
    simp only [closing, lit, length_append, length_map]
    show 1 + level.length + 1 = level.length + 2
    omega
  have hne : closing level ≠ [] := by
    intro hnil
    rw [hnil] at hlen
    simp at hlen
  obtain ⟨h₁, h₂, h₃⟩ := find_text_some hne hi h
  omega

/-! ## Decoding

`decode` reads the contents of a string cut out of the source, where `check_escape` read the
source itself. A good escape that ends before the cut is the same escape in both. -/

theorem break_at_sub (ha : 1 ≤ a) (hi : 1 ≤ i) (hin : a + i ≤ z + 1)
    (hend : a + i - 1 + break_at source (a + i - 1) ≤ z + 1) :
    break_at (sub source a z) i = break_at source (a + i - 1) := by
  unfold break_at at hend ⊢
  rw [byte_sub ha hi hin]
  cases hc : byte source (a + i - 1) with
  | none => rfl
  | some c =>
    rw [hc] at hend
    simp only at hend ⊢
    split
    · rfl
    next hbreak =>
    rw [if_neg hbreak] at hend
    by_cases hz : a + i = z + 1
    · rw [byte_sub_none ha (by omega) (by omega)]
      cases hd : byte source (a + i - 1 + 1) with
      | none => rfl
      | some d =>
        rw [hd] at hend
        simp only at hend ⊢
        split
        · next htwo =>
          rw [if_pos htwo] at hend
          omega
        · rfl
    · rw [byte_sub ha (by omega) (by omega), show a + (i + 1) - 1 = a + i - 1 + 1 by omega]

theorem braced_sub (ha : 1 ≤ a) (hi : 1 ≤ i) (h : braced source (a + i - 1) = some (e, digits)) (hez : e ≤ z) :
    braced (sub source a z) i = some (e + 1 - a, digits) := by
  simp only [braced] at h ⊢
  split at h
  · next hcond =>
    obtain ⟨hopen, hge, hclose⟩ := hcond
    obtain ⟨he, hdigits⟩ := Prod.mk.inj (some.inj h)
    have hshift : a + (i + 1) - 1 = a + i - 1 + 1 := by omega
    have hin : run_end isHex source.length source (a + (i + 1) - 1) ≤ z := by
      rw [hshift]
      omega
    have hrun := run_end_sub ha (by omega) (Or.inr ⟨Nat.le_refl _, Nat.le_refl (sub source a z).length⟩) hin
    rw [hshift] at hrun
    generalize hrun_in : run_end isHex (sub source a z).length (sub source a z) (i + 1) = r at hrun ⊢
    have hr : a + (r + 1) - 1 = run_end isHex source.length source (a + i - 1 + 1) + 1 := by omega
    rw [if_pos ⟨by rw [byte_sub ha hi (by omega)]; exact hopen, by omega,
      by rw [byte_sub ha (by omega) (by omega), hr]; exact hclose⟩]
    rw [sub_of_sub ha (by omega) (by omega), ← hdigits, hshift,
      show a + r - 1 = run_end isHex source.length source (a + i - 1 + 1) by omega]
    congr 2
    omega
  · cases h

theorem hex_pair_sub (ha : 1 ≤ a) (hai : 1 ≤ a + i - 1) (hi : 1 ≤ i)
    (hpair : run_end isHex 2 source (a + i - 1) = a + i) (hz : a + i ≤ z) :
    ∃ n, hexadecimal (sub (sub source a z) i (i + 1)) = some n ∧ n ≤ 255 := by
  have hrun := run_end_isRun isHex 2 source hai
  rw [hpair] at hrun
  have hlen : a + i ≤ source.length := by
    obtain ⟨b, hb, _⟩ := hrun.passes (a + i) (by omega) le_rfl
    exact (byte_some_le hb).2
  have hhex := all_sub hai hrun.passes
  have hlt := digits_value_lt hhex
  rw [sub_length hai (by omega) hlen, show a + i + 1 - (a + i - 1) = 2 by omega] at hlt
  refine ⟨_, ?_, Nat.le_of_lt_succ hlt⟩
  rw [sub_of_sub ha hi (by omega), show a + (i + 1) - 1 = a + i by omega]
  exact hexadecimal_of_digits (sub_ne_nil hai (by omega) hlen) hhex

theorem decimal_sub {n : ℕ} (ha : 1 ≤ a) (hi : 1 ≤ i)
    (hn : decimal (sub source (a + i - 1) (run_end isDigit 3 source (a + i - 1))) = some n)
    (hz : run_end isDigit 3 source (a + i - 1) ≤ z) :
    decimal (sub (sub source a z) i (run_end isDigit 3 (sub source a z) i)) = some n := by
  have hrun := run_end_sub ha hi (Or.inl (Eq.refl 3)) hz
  rw [sub_of_sub ha hi (by omega), ← hn]
  congr 2
  omega

theorem utf8_char_some (hne : digits ≠ []) (hhex : ∀ b ∈ digits, isHex b = true)
    (hsmall : digits.dropWhile (· == 48) = [] ∨ ∃ n, hexadecimal (digits.dropWhile (· == 48)) = some n ∧ n ≤ 0x7FFFFFFF) :
    ∃ n text, hexadecimal digits = some n ∧ utf8_char n = some text := by
  have hle : digits_value 16 digits ≤ 0x7FFFFFFF := by
    rw [← digits_value_dropWhile]
    rcases hsmall with hnil | ⟨n, hn, hle⟩
    · rw [hnil]
      decide
    · unfold hexadecimal at hn
      split at hn
      · cases hn
        exact hle
      · cases hn
  have hwrites : ∃ text, utf8_char (digits_value 16 digits) = some text := by
    unfold utf8_char
    rw [if_neg (Nat.not_lt.mpr hle)]
    split
    · exact ⟨_, rfl⟩
    · exact ⟨_, rfl⟩
  obtain ⟨text, htext⟩ := hwrites
  exact ⟨_, text, hexadecimal_of_digits hne hhex, htext⟩

theorem decode_escape_some {s : ℕ} (ha : 1 ≤ a) (has : a ≤ s) (hnext : byte source (s + 1) ≠ none)
    (hback : byte source s = some 92) (hgood : check_escape source s = some (e, [])) (hez : e ≤ z) :
    ∃ text, decode_escape (sub source a z) (s + 1 - a) = some (e + 1 - a, text) := by
  obtain ⟨e', fix, he', hse, _, hge⟩ := check_escape_some hback
  obtain ⟨rfl, _⟩ := Prod.mk.inj (some.inj (hgood.symm.trans he'))
  have hse' := hge hnext
  obtain ⟨c, hc⟩ := ne_none_iff_exists'.mp hnext
  -- the place `k` of the backslash in the cut
  obtain ⟨k, rfl⟩ : ∃ k, s = a + k - 1 := ⟨s + 1 - a, by omega⟩
  have hk : a + k - 1 + 1 - a = k := by omega
  have hk₁ : a + k - 1 + 1 = a + (k + 1) - 1 := by omega
  have hk₂ : a + k - 1 + 2 = a + (k + 2) - 1 := by omega
  have hin : byte (sub source a z) (k + 1) = some c := by
    rw [byte_sub ha (by omega) (by omega), ← hk₁, hc]
  rw [hk]
  unfold check_escape at hgood
  unfold decode_escape
  rw [hc] at hgood
  rw [hin]
  simp only at hgood ⊢
  cases hsimple : simple_escape c with
  | some plain =>
    rw [hsimple] at hgood
    cases hgood
    exact ⟨[plain], congrArg some (Prod.ext (by simp only; omega) rfl)⟩
  | none =>
    rw [hsimple] at hgood
    simp only [isSome_none, Bool.false_eq_true, if_false] at hgood ⊢
    by_cases hbreak : isBreak c = true
    · rw [if_pos hbreak] at hgood ⊢
      cases hgood
      rw [break_at_sub ha (by omega) (by omega) (by rw [← hk₁]; omega), ← hk₁]
      exact ⟨[10], congrArg some (Prod.ext (by simp only; omega) rfl)⟩
    rw [if_neg hbreak] at hgood ⊢
    by_cases hz : (c == 122) = true
    · rw [if_pos hz] at hgood ⊢
      cases hgood
      rw [hk₂] at hez hse' ⊢
      have hrun := run_end_sub ha (by omega) (Or.inr ⟨Nat.le_refl _, Nat.le_refl (sub source a z).length⟩) hez
      exact ⟨[], congrArg some (Prod.ext (by simp only; omega) rfl)⟩
    rw [if_neg hz] at hgood ⊢
    by_cases hx : (c == 120) = true
    · rw [if_pos hx] at hgood ⊢
      split at hgood
      · next hpair =>
        cases hgood
        rw [hk₂] at hpair
        obtain ⟨n, hn, hle⟩ := hex_pair_sub ha (by omega) (by omega)
          (by rw [hpair]; omega) (show a + (k + 2) ≤ z by omega)
        simp only [hn, char, if_pos hle, bind_eq_bind, bind_some]
        exact ⟨_, congrArg some (Prod.ext (by simp only; omega) rfl)⟩
      · exact absurd (Prod.mk.inj (some.inj hgood)).2 (lit_ne_nil _ _)
    rw [if_neg hx] at hgood ⊢
    by_cases hdigit : isDigit c = true
    · rw [if_pos hdigit] at hgood
      have hu : ¬(c == 117) = true := by
        intro hu
        rw [beq_iff_eq.mp hu] at hdigit
        cases hdigit
      rw [if_neg hu]
      obtain ⟨n, hn, hgood⟩ := bind_eq_some_iff.mp hgood
      split at hgood
      · exact absurd (Prod.mk.inj (some.inj hgood)).2 (lit_append_ne_nil _ _ _)
      next hle =>
      cases hgood
      rw [hk₁] at hn hez
      have hrun := run_end_sub ha (by omega) (Or.inl (Eq.refl 3)) hez
      simp only [decimal_sub ha (by omega) hn hez, char, if_pos (Nat.le_of_not_lt hle), bind_eq_bind, bind_some, hk₁]
      exact ⟨_, congrArg some (Prod.ext (by simp only; omega) rfl)⟩
    rw [if_neg hdigit] at hgood
    by_cases hu : (c == 117) = true
    · rw [if_pos hu] at hgood ⊢
      split at hgood
      · next found e₁ digits hbr =>
        have hspan := braced_some hbr
        have hend : e₁ = e ∧ (digits.dropWhile (· == 48) = [] ∨
            ∃ n, hexadecimal (digits.dropWhile (· == 48)) = some n ∧ n ≤ 0x7FFFFFFF) := by
          split at hgood
          · split at hgood
            · next hnil =>
              cases hgood
              exact ⟨rfl, Or.inl hnil⟩
            · obtain ⟨n, hn, hgood⟩ := bind_eq_some_iff.mp hgood
              split at hgood
              · next hle =>
                cases hgood
                exact ⟨rfl, Or.inr ⟨n, hn, hle⟩⟩
              · exact absurd (Prod.mk.inj (some.inj hgood)).2 (lit_append_ne_nil _ _ _)
          · exact absurd (Prod.mk.inj (some.inj hgood)).2 (lit_append_ne_nil _ _ _)
        obtain ⟨rfl, hsmall⟩ := hend
        obtain ⟨n, text, hn, htext⟩ := utf8_char_some hspan.2.2.1 hspan.2.2.2 hsmall
        rw [hk₂] at hbr
        rw [braced_sub ha (by omega) hbr hez]
        simp only [hn, htext, bind_eq_bind, bind_some]
        exact ⟨text, rfl⟩
      · exact absurd (Prod.mk.inj (some.inj hgood)).2 (lit_append_ne_nil _ _ _)
    · rw [if_neg hu] at hgood
      -- any other byte is a bad escape, and its fix is not empty
      have hfix := (Prod.mk.inj (some.inj hgood)).2
      rw [escape_fix] at hfix
      simp only [append_assoc] at hfix
      exact absurd hfix (lit_append_ne_nil _ _ _)

theorem decode_clean {close : ℕ} (ha : 1 ≤ a) (hai : a ≤ i) (h : Clean source quote close i) (fuel : ℕ)
    (hfuel : close - i < fuel) (acc : Bytes) :
    ∃ r, loop (decode_round (sub source a (close - 1))) fuel (i + 1 - a, acc) = some r := by
  induction h generalizing fuel acc with
  | @close i hfind =>
    obtain ⟨hiq, ⟨b, hb, _⟩, hno⟩ := find_some (by omega) hfind
    have hnone : find (· == 92) (sub source a (close - 1)) (i + 1 - a) = none := by
      refine find_eq_none (by omega) fun k b hk hb => ?_
      by_cases hin : a + k ≤ close - 1 + 1
      · rw [byte_sub ha (by omega) hin] at hb
        have hends := hno (a + k - 1) b (by omega) (by omega) hb
        simp only [ends_run, Bool.or_eq_false_iff] at hends
        exact hends.1.2
      · rw [byte_sub_none ha (by omega) (by omega)] at hb
        cases hb
    obtain ⟨fuel, rfl⟩ : ∃ m, fuel = m + 1 := ⟨fuel - 1, by omega⟩
    rw [loop, decode_round, hnone]
    exact ⟨_, rfl⟩
  | @escape i s e hfind hback hnext hgood hrest ih =>
    obtain ⟨his, _, hno⟩ := find_some (by omega) hfind
    obtain ⟨e', fix, he', hse, _, hge⟩ := check_escape_some hback
    obtain ⟨rfl, _⟩ := Prod.mk.inj (some.inj (hgood.symm.trans he'))
    have hclose := hrest.le (Nat.le_add_left 1 e)
    obtain ⟨text, htext⟩ := decode_escape_some (z := close - 1) ha (by omega) hnext hback hgood (by omega)
    have hfound : find (· == 92) (sub source a (close - 1)) (i + 1 - a) = some (s + 1 - a) := by
      refine find_eq_some (b := 92) (by omega) (by omega) ?_ rfl fun k b hik hks hb => ?_
      · rw [byte_sub ha (by omega) (by omega), ← hback]
        congr 1
        omega
      · rw [byte_sub ha (by omega) (by omega)] at hb
        have hends := hno (a + k - 1) b (by omega) (by omega) hb
        simp only [ends_run, Bool.or_eq_false_iff] at hends
        exact hends.1.2
    obtain ⟨fuel, rfl⟩ : ∃ m, fuel = m + 1 := ⟨fuel - 1, by omega⟩
    rw [loop, decode_round, hfound]
    simp only [htext, bind_eq_bind, bind_some]
    have hshift : e + 1 - a + 1 = e + 1 + 1 - a := by omega
    rw [hshift]
    exact ih (by omega) fuel (by omega) _

/-- The contents of a string that closes with no bad escape in it decode. -/
theorem decode_some {q : Quoted} (h : read_string source pos quote = some q) (hclose : 0 < q.close)
    (hbad : q.bad_at = 0) (hlen : q.close ≤ source.length) :
    ∃ r, decode (sub source (pos + 1) (q.close - 1)) = some r := by
  have hclean := read_string_clean h hclose hbad
  have hle := hclean.le (Nat.le_add_left 1 pos)
  have hdecode := decode_clean (Nat.le_add_left 1 pos) le_rfl hclean ((sub source (pos + 1) (q.close - 1)).length + 1)
    (by rw [sub_length (by omega) (by omega) (by omega)]; omega) []
  rwa [show pos + 1 + 1 - (pos + 1) = 1 by omega] at hdecode

end Cosmic.Lexer
