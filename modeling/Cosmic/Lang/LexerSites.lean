/-
Where each branch of the lexer leaves its counts.

A branch that goes over no line break leaves them; one that does counts with `advance_lines` or
`span_end`. Either way the lexer stands where the count from the start would, and what it records
of a token's last byte, a comment and an error is their place.
-/
import Cosmic.Lang.LexerPlace
import Cosmic.Lang.LexerRead

set_option autoImplicit false

namespace Cosmic.Lexer

open Cosmic.Base List Option Bool Nat

/-! ## Bytes that are no line breaks -/

/-- The bytes from `i` to before `j` are no line breaks. -/
def Plain (source : Bytes) (i j : ℕ) : Prop := ∀ k, i ≤ k → k < j → ∃ b, byte source k = some b ∧ isBreak b = false

variable {source : Bytes}

theorem Plain.append {i j k : ℕ} (h : Plain source i j) (h' : Plain source j k) : Plain source i k := by
  intro n hin hnk
  rcases Nat.lt_or_ge n j with hlt | hge
  · exact h n hin hlt
  · exact h' n hge hnk

theorem plain_one {i : ℕ} {b : UInt8} (hb : byte source i = some b) (hplain : isBreak b = false) :
    Plain source i (i + 1) := by
  intro k hik hk
  rw [show k = i by omega]
  exact ⟨b, hb, hplain⟩

theorem plain_run {p : UInt8 → Bool} (hclass : p 10 = false ∧ p 13 = false) (most : ℕ) {i : ℕ}
    (hi : 1 ≤ i) : Plain source i (run_end p most source i + 1) := by
  intro k hik hk
  obtain ⟨b, hb, hp⟩ := (run_end_isRun p most source hi).passes k hik (le_of_lt_succ hk)
  exact ⟨b, hb, not_break hclass hp⟩

theorem plain_find {p : UInt8 → Bool} (hclass : ∀ b, p b = false → isBreak b = false) {i : ℕ}
    (hi : 1 ≤ i) : Plain source i ((find p source i).getD (source.length + 1)) := by
  intro k hik hk
  cases hf : find p source i with
  | none =>
    rw [hf] at hk
    obtain ⟨b, hb⟩ := byte_of_le (by omega) (le_of_lt_succ hk)
    exact ⟨b, hb, hclass b (find_none hi hf hik hb)⟩
  | some q =>
    rw [hf] at hk
    obtain ⟨_, ⟨c, hc, _⟩, hno⟩ := find_some hi hf
    have hq := byte_some_le hc
    have hkq : k < q := hk
    obtain ⟨b, hb⟩ := byte_of_le (s := source) (show 1 ≤ k by omega) (by omega)
    exact ⟨b, hb, hclass b (hno k b hik hkq hb)⟩

theorem numeral_round_plain {hex : Bool} {pos i : ℕ} (h : Plain source pos i) {r : Round ℕ ℕ}
    (hr : numeral_round source hex i = some r) :
    match r with
    | .next i' => i ≤ i' ∧ Plain source pos i'
    | .done i' => i ≤ i' ∧ Plain source pos i' := by
  unfold numeral_round at hr
  cases hc : byte source i with
  | none =>
    rw [hc] at hr
    cases hr
    exact ⟨Nat.le_refl i, h⟩
  | some c =>
    rw [hc] at hr
    simp only at hr
    split at hr
    · next hexp =>
      have hone : Plain source pos (i + 1) := by
        refine h.append (plain_one hc (not_break (p := fun c =>
          (hex && (c == 80 || c == 112)) || (!hex && (c == 69 || c == 101))) ⟨?_, ?_⟩ hexp))
        · simp
        · simp
      split at hr
      · next hsign =>
        cases hr
        refine ⟨Nat.le_add_right i 2, hone.append ?_⟩
        rcases hsign with hsign | hsign
        · exact plain_one hsign (by decide)
        · exact plain_one hsign (by decide)
      · cases hr
        exact ⟨le_succ i, hone⟩
    split at hr
    · next hdigit =>
      cases hr
      exact ⟨le_succ i, h.append (plain_one hc (not_break
        (p := fun c => isHex c || c == 46 || c == 95) ⟨by decide, by decide⟩ hdigit))⟩
    · cases hr
      exact ⟨Nat.le_refl i, h⟩

theorem numeral_end_plain {pos e : ℕ} {b : UInt8} (hb : byte source pos = some b)
    (hplain : isBreak b = false) (h : numeral_end source pos = some e) :
    Plain source pos (e + 1) := by
  have hpos := byte_some_le hb
  have hloop : ∀ {hex : Bool} {fuel i i' : ℕ}, loop (numeral_round source hex) fuel i = some i' →
      Plain source pos i → i ≤ i' ∧ Plain source pos i' := by
    intro hex fuel i i' hl
    refine @loop_back _ _ _ (fun i i' => Plain source pos i → i ≤ i' ∧ Plain source pos i') ?_ ?_ _ _ _ hl
    · exact fun i r hr hi => numeral_round_plain hi hr
    · intro i i' r hr hrel hi
      obtain ⟨hle, hi'⟩ := numeral_round_plain hi hr
      obtain ⟨hle', hr'⟩ := hrel hi'
      exact ⟨Nat.le_trans hle hle', hr'⟩
  obtain ⟨i, hi, heq⟩ := bind_eq_some_iff.mp h
  cases heq
  have hempty : Plain source pos pos := fun k hk hk' => absurd hk' (Nat.not_lt.mpr hk)
  split at hi
  · next hhex =>
    simp only [and_eq_true, or_eq_true, beq_iff_eq] at hhex
    have htwo : Plain source pos (pos + 2) := by
      refine (plain_one hb hplain).append ?_
      rcases hhex.2 with hx | hx
      · exact plain_one hx (by decide)
      · exact plain_one hx (by decide)
    obtain ⟨hle, hto⟩ := hloop hi htwo
    exact hto.append (plain_run ⟨by decide, by decide⟩ _ (by omega))
  · obtain ⟨hle, hto⟩ := hloop hi hempty
    exact hto.append (plain_run ⟨by decide, by decide⟩ _ (by omega))

theorem label_at_plain {i e : ℕ} {label : Bytes} (hi : 1 ≤ i)
    (h : label_at source i = some (e, label)) : Plain source i (e + 1) := by
  simp only [label_at] at h
  split at h
  · next hcond =>
    obtain ⟨h₁, h₂, _, h₃, h₄⟩ := hcond
    have htwo := (plain_one h₁ (by decide)).append (plain_one h₂ (by decide))
    have hgap := htwo.append (plain_run (p := is_gap) ⟨by decide, by decide⟩ source.length (show 1 ≤ i + 2 by omega))
    have hword := hgap.append (plain_run (p := isWord) ⟨by decide, by decide⟩ source.length (Nat.le_add_left 1 _))
    have hfoot := hword.append (plain_run (p := is_gap) ⟨by decide, by decide⟩ source.length (Nat.le_add_left 1 _))
    cases h
    exact (hfoot.append (plain_one h₃ (by decide))).append (plain_one h₄ (by decide))
  · cases h

theorem closing_last {level : Bytes} {i cs ce : ℕ} (hi : 1 ≤ i)
    (h : find_text (closing level) source i = some (cs, ce)) : byte source ce = some 93 := by
  obtain ⟨k, hk, heq⟩ := map_eq_some_iff.mp h
  have hbegins : ∀ {t s : Bytes} {k : ℕ}, index_of t s = some k → t <+: s.drop k := by
    intro t s k hk
    induction s generalizing k with
    | nil =>
      rw [index_of] at hk
      split at hk
      · next ht =>
        rw [ht]
        exact nil_prefix
      · cases hk
    | cons b s ih =>
      rw [index_of] at hk
      split at hk
      · next ht =>
        cases hk
        exact isPrefixOf_iff_prefix.mp ht
      · obtain ⟨k', hk', rfl⟩ := map_eq_some_iff.mp hk
        exact ih hk'
  have hat := hbegins hk
  have hlen : (closing level).length = level.length + 2 := by
    simp only [closing, lit, length_append, length_map]
    show 1 + level.length + 1 = level.length + 2
    omega
  have hlast : (closing level)[level.length + 1]? = some 93 := by
    have hone : (lit "]" ++ level).length = level.length + 1 := by
      rw [length_append]
      exact Nat.add_comm 1 _
    rw [closing, getElem?_append_right (by rw [hone]), hone, Nat.sub_self]
    rfl
  obtain ⟨rest, hrest⟩ := hat
  cases heq
  rw [byte_eq source (by omega)]
  have hdrop : ((source.drop (i - 1)).drop k)[level.length + 1]? = some 93 := by
    rwa [← hrest, getElem?_append_left (by omega)]
  rw [getElem?_drop, getElem?_drop] at hdrop
  rw [← hdrop]
  congr 1
  omega

/-! ## What a branch records -/

/-- The error has the line and the column of its offset; a bad escape's is a backslash. -/
structure Error.Sited (source : Bytes) (er : Error) : Prop where
  y : er.y = line_of source er.offset
  x : er.x = column_of source er.offset
  escape : er.code = .bad_escape → byte source er.offset = some 92

structure Comment.Sited (source : Bytes) (c : Comment) : Prop where
  y : c.y = line_of source c.offset
  x : c.x = column_of source c.offset

section

variable {F : Type}

/-- The lexer's counts are those from the start of the source, and no end is recorded of a token to
come. -/
structure Counts (source : Bytes) (st : State F) : Prop where
  stands : At source st.pos st.line st.line_start st.tokens.line
  yend : ∀ n ∈ st.tokens.yend, n ≤ st.n
  xend : ∀ n ∈ st.tokens.xend, n ≤ st.n

/-- What a branch that reads `r` leaves recorded. -/
structure Sites (source : Bytes) (st : State F) (r : Read) (st' : State F) : Prop where
  stands : At source (if r.kind.isSome then r.e + 1 else st'.pos) st'.line st'.line_start st'.tokens.line
  /-- The end of the token read is found where `Lexer.yend` and `Lexer.xend` look for it. -/
  ends : r.kind.isSome → (st'.tokens.yend.lookup (st.n + 1)).getD st.line = line_of source r.e ∧
    (st'.tokens.xend.lookup (st.n + 1)).getD (st.pos - st.line_start + (r.e + 1 - st.pos)) = column_of source r.e
  others : ∀ m, m ≠ st.n + 1 → st'.tokens.yend.lookup m = st.tokens.yend.lookup m ∧
    st'.tokens.xend.lookup m = st.tokens.xend.lookup m
  unread : r.kind = none → st'.tokens.yend = st.tokens.yend ∧ st'.tokens.xend = st.tokens.xend
  comments : ∀ c ∈ st'.pending.getD [], c ∈ st.pending.getD [] ∨ c.Sited source
  errors : ∀ er ∈ st'.errors, er ∈ st.errors ∨ er.Sited source

variable {fl : Floats F} {name : Bytes} {st st' : State F} {r : Read} {b : UInt8}

theorem Counts.fresh (h : Counts source st) :
    st.tokens.yend.lookup (st.n + 1) = none ∧ st.tokens.xend.lookup (st.n + 1) = none := by
  refine ⟨AList.lookup_eq_none.mpr fun hmem => ?_, AList.lookup_eq_none.mpr fun hmem => ?_⟩
  · exact not_succ_le_self _ (h.yend _ hmem)
  · exact not_succ_le_self _ (h.xend _ hmem)

theorem Counts.pos (h : Counts source st) : 1 ≤ st.pos :=
  Nat.le_trans (h.stands.reached.le _ (mem_of_getLast? h.stands.line_start)).1 h.stands.start_le

theorem Counts.error_sited (h : Counts source st) {er : Error} (hoffset : er.offset = st.pos)
    (hy : er.y = st.line) (hx : er.x = st.x) (hcode : er.code ≠ .bad_escape) : er.Sited source := by
  obtain ⟨hline, hstart⟩ := h.stands.place
  refine ⟨?_, ?_, fun h => absurd h hcode⟩
  · rw [hy, hoffset, hline]
  · rw [hx, hoffset, column_of, hstart, State.x]

theorem Counts.comment_sited (h : Counts source st) {c : Comment} (hoffset : c.offset = st.pos)
    (hy : c.y = st.line) (hx : c.x = st.x) : c.Sited source := by
  obtain ⟨hline, hstart⟩ := h.stands.place
  refine ⟨?_, ?_⟩
  · rw [hy, hoffset, hline]
  · rw [hx, hoffset, column_of, hstart, State.x]

/-- The errors after a branch are those before it and at most one placed where it began. -/
inductive ErrsHere (st : State F) : List Error → Prop where
  | none : ErrsHere st st.errors
  | one {name : Bytes} {code : Code} {msg fix : Bytes} {length : ℕ} (hcode : code ≠ .bad_escape) :
      ErrsHere st (st.errors ++ [⟨name, code, msg, fix, st.line, st.x, st.pos, length⟩])

theorem ErrsHere.sited {errors : List Error} (h : ErrsHere st errors) (hc : Counts source st) :
    ∀ er ∈ errors, er ∈ st.errors ∨ er.Sited source := by
  intro er her
  cases h with
  | none => exact Or.inl her
  | one hcode =>
    rcases mem_append.mp her with hold | hnew
    · exact Or.inl hold
    · rw [mem_singleton.mp hnew]
      exact Or.inr (hc.error_sited rfl rfl rfl hcode)

/-- The counts are left as they were. -/
structure SameCounts (st st' : State F) : Prop where
  line : st'.line = st.line
  line_start : st'.line_start = st.line_start
  lines : st'.tokens.line = st.tokens.line
  yend : st'.tokens.yend = st.tokens.yend
  xend : st'.tokens.xend = st.tokens.xend

theorem sites_plain {k : Kind} {text : Bytes} {e : ℕ} (hc : Counts source st)
    (hplain : Plain source st.pos (e + 1)) (hle : st.pos ≤ e) (same : SameCounts st st')
    (hpending : st'.pending = st.pending) (herrors : ErrsHere st st'.errors) :
    Sites source st ⟨some k, text, e⟩ st' := by
  have hat := hc.stands.plain (scanned_plain (le_succ_of_le hle) hplain)
  obtain ⟨hy, hx⟩ := hc.fresh
  have hstart := hc.stands.start_le
  have hpos := hat.pos
  have hnone : ∀ a', st.tokens.line[st.line - 1 + 1]? = some a' → e < a' := by
    intro a' ha'
    rw [getElem?_eq_none (by rw [← hat.line]; omega)] at ha'
    cases ha'
  obtain ⟨hline, hfirst⟩ := hat.reached.place (le_succ e) hat.get (Nat.le_trans hstart hle) hnone
  refine ⟨?_, fun _ => ⟨?_, ?_⟩, fun m _ => ?_, nofun, ?_, herrors.sited hc⟩
  · rwa [same.line, same.line_start, same.lines]
  · rw [same.yend, hy]
    show st.line = line_of source e
    omega
  · rw [same.xend, hx]
    show st.pos - st.line_start + (e + 1 - st.pos) = e - start_of source e + 1
    omega
  · rw [same.yend, same.xend]
    exact ⟨rfl, rfl⟩
  · rw [hpending]
    exact fun c hc => Or.inl hc

theorem sites_skip (hat : At source st'.pos st'.line st'.line_start st'.tokens.line)
    (hends : st'.tokens.yend = st.tokens.yend ∧ st'.tokens.xend = st.tokens.xend)
    (hpending : st'.pending = st.pending) (herrors : st'.errors = st.errors) :
    Sites source st {} st' := by
  refine ⟨hat, nofun, fun m _ => ?_, fun _ => hends, ?_, ?_⟩
  · rw [hends.1, hends.2]
    exact ⟨rfl, rfl⟩
  · rw [hpending]
    exact fun c hc => Or.inl hc
  · rw [herrors]
    exact fun er her => Or.inl her

theorem sites_comment (hc : Counts source st) (hat : At source st'.pos st'.line st'.line_start st'.tokens.line)
    (hends : st'.tokens.yend = st.tokens.yend ∧ st'.tokens.xend = st.tokens.xend) {c : Comment}
    (hpending : st'.pending = some (st.pending.getD [] ++ [c])) (hoffset : c.offset = st.pos)
    (hy : c.y = st.line) (hx : c.x = st.x) (herrors : ErrsHere st st'.errors) :
    Sites source st {} st' := by
  refine ⟨hat, nofun, fun m _ => ?_, fun _ => hends, ?_, herrors.sited hc⟩
  · rw [hends.1, hends.2]
    exact ⟨rfl, rfl⟩
  intro c' hc'
  rw [hpending, getD_some] at hc'
  rcases mem_append.mp hc' with hold | hnew
  · exact Or.inl hold
  · rw [mem_singleton.mp hnew]
    exact Or.inr (hc.comment_sited hoffset hy hx)

theorem mark_end_ends (hc : Counts source st) (length end_y end_x : ℕ) :
    ((st.mark_end (st.n + 1) st.line st.x length end_y end_x).tokens.yend.lookup (st.n + 1)).getD st.line = end_y ∧
      ((st.mark_end (st.n + 1) st.line st.x length end_y end_x).tokens.xend.lookup (st.n + 1)).getD
        (st.pos - st.line_start + length) = end_x := by
  obtain ⟨hy, hx⟩ := hc.fresh
  refine ⟨?_, ?_⟩
  · simp only [State.mark_end]
    split
    · rw [AList.lookup_insert]
      rfl
    · next heq =>
      rw [hy]
      exact (not_not.mp heq).symm
  · simp only [State.mark_end]
    split
    · rw [AList.lookup_insert]
      rfl
    · next heq =>
      rw [hx, getD_none, not_not.mp heq, State.x]
      omega

theorem mark_end_others {m n : ℕ} (hm : m ≠ n) (y x length end_y end_x : ℕ) :
    (st.mark_end n y x length end_y end_x).tokens.yend.lookup m = st.tokens.yend.lookup m ∧
      (st.mark_end n y x length end_y end_x).tokens.xend.lookup m = st.tokens.xend.lookup m := by
  simp only [State.mark_end]
  refine ⟨?_, ?_⟩
  · split
    · exact AList.lookup_insert_ne hm
    · rfl
  · split
    · exact AList.lookup_insert_ne hm
    · rfl

theorem sites_span {k : Kind} {text : Bytes} {e : ℕ} {sp : Span} (hc : Counts source st)
    (hle : st.pos ≤ e) (hat : At source (e + 1) sp.line sp.line_start sp.lines)
    (hyend : sp.yend = line_of source e) (hxend : sp.xend = column_of source e)
    (hline : st'.line = sp.line ∧ st'.line_start = sp.line_start ∧ st'.tokens.line = sp.lines)
    (hmark : st'.tokens.yend = (st.mark_end (st.n + 1) st.line st.x (e - st.pos + 1) sp.yend sp.xend).tokens.yend ∧
      st'.tokens.xend = (st.mark_end (st.n + 1) st.line st.x (e - st.pos + 1) sp.yend sp.xend).tokens.xend)
    (hpending : st'.pending = st.pending)
    (herrors : ∀ er ∈ st'.errors, er ∈ st.errors ∨ er.Sited source) :
    Sites source st ⟨some k, text, e⟩ st' := by
  obtain ⟨hy, hx⟩ := mark_end_ends hc (e - st.pos + 1) sp.yend sp.xend
  refine ⟨?_, fun _ => ⟨?_, ?_⟩, fun m hm => ?_, nofun, ?_, herrors⟩
  · rwa [hline.1, hline.2.1, hline.2.2]
  · rw [hmark.1, hy, hyend]
  · rw [hmark.2, ← hxend]
    have hlen : st.pos - st.line_start + (e - st.pos + 1) = st.pos - st.line_start + (e + 1 - st.pos) := by omega
    rwa [hlen] at hx
  · rw [hmark.1, hmark.2]
    exact mark_end_others hm _ _ _ _ _
  · rw [hpending]
    exact fun c hc => Or.inl hc

/-! ## The branches -/

theorem read_name_sites (hc : Counts source st) (hb : byte source st.pos = some b)
    (hword : isWord b = true) (h : read_name source st = some (r, st')) :
    Sites source st r st' := by
  have hpos := byte_some_le hb
  have hge := run_end_gt source.length hb hword (by omega)
  have hle := run_end_le isWord source.length source hpos.1 (by omega)
  have hlen : st.pos + (sub source st.pos (run_end isWord source.length source st.pos)).length - 1
      = run_end isWord source.length source st.pos := by
    rw [sub_length hpos.1 (by omega) hle]
    omega
  cases h
  refine sites_plain hc ?_ ?_ ⟨rfl, rfl, rfl, rfl, rfl⟩ rfl .none
  · rw [hlen]
    exact plain_run ⟨by decide, by decide⟩ _ hpos.1
  · rwa [hlen]

theorem read_one_sites (hc : Counts source st) (hb : byte source st.pos = some b)
    (hone : (one_kind b).isSome = true) (h : read_one b st = some (r, st')) :
    Sites source st r st' := by
  obtain ⟨k, hk⟩ := isSome_iff_exists.mp hone
  rw [read_one, hk] at h
  cases h
  have hplain : isBreak b = false := not_break (p := fun b => (one_kind b).isSome) ⟨by decide, by decide⟩ hone
  exact sites_plain hc (plain_one hb hplain) le_rfl ⟨rfl, rfl, rfl, rfl, rfl⟩ rfl .none

theorem read_operator_sites (hc : Counts source st) (hb : byte source st.pos = some b)
    (hplain : isBreak b = false) (h : read_operator source b st = some (r, st')) :
    Sites source st r st' := by
  unfold read_operator at h
  split at h
  · next htwo =>
    obtain ⟨c, hc', hsecond⟩ := Option.any_eq_true _ _ |>.mp htwo
    cases h
    have hnext : isBreak c = false := by
      refine not_break ⟨?_, ?_⟩ hsecond
      · simp [second]
      · simp [second]
    exact sites_plain hc ((plain_one hb hplain).append (plain_one hc' hnext)) (le_succ _)
      ⟨rfl, rfl, rfl, rfl, rfl⟩ rfl .none
  · cases h
    exact sites_plain hc (plain_one hb hplain) le_rfl ⟨rfl, rfl, rfl, rfl, rfl⟩ rfl .none

theorem read_blank_sites (hc : Counts source st) (hb : byte source st.pos = some b)
    (hblank : isBlank b = true) (h : read_blank source st = some (r, st')) :
    Sites source st r st' := by
  have hplain : Plain source st.pos (st.pos + 1) := plain_one hb (not_break ⟨by decide, by decide⟩ hblank)
  cases h
  refine sites_skip (hc.stands.plain ?_) ⟨rfl, rfl⟩ rfl rfl
  split
  · next hnext =>
    obtain ⟨c, hc', hblank'⟩ := Option.any_eq_true _ _ |>.mp hnext
    have htwo := hplain.append (plain_one hc' (not_break ⟨by decide, by decide⟩ hblank'))
    have hrun : Plain source (st.pos + 2)
        ((find (fun b => !isBlank b) source (st.pos + 2)).getD (source.length + 1)) :=
      plain_find (fun b hb => not_break (p := isBlank) ⟨by decide, by decide⟩ (by simpa using hb)) (by omega)
    refine scanned_plain ?_ (htwo.append hrun)
    cases hf : find (fun b => !isBlank b) source (st.pos + 2) with
    | none =>
      have hlen := byte_some_le hb
      show st.pos ≤ source.length + 1
      omega
    | some q =>
      have hq := (find_some (by omega) hf).1
      show st.pos ≤ q
      omega
  · exact scanned_plain (le_succ _) hplain

theorem read_break_sites (hc : Counts source st) (hb : byte source st.pos = some b)
    (hbreak : isBreak b = true) (h : read_break source st = some (r, st')) :
    Sites source st r st' := by
  cases h
  exact sites_skip (hc.stands.line_break hb hbreak) ⟨rfl, rfl⟩ rfl rfl

theorem read_number_sites (hc : Counts source st) (hb : byte source st.pos = some b)
    (hbegins : isDigit b = true ∨ b = 46) (h : read_number fl source name st = some (r, st')) :
    Sites source st r st' := by
  have hplain : isBreak b = false := by
    rcases hbegins with hdigit | rfl
    · exact not_break ⟨by decide, by decide⟩ hdigit
    · decide
  obtain ⟨e, he, hge, _⟩ := numeral_end_some hb hbegins
  have hto := numeral_end_plain hb hplain he
  have hsites : ∀ {k : Kind} {st' : State F}, SameCounts st st' → st'.pending = st.pending →
      ErrsHere st st'.errors → Sites source st ⟨some k, sub source st.pos e, e⟩ st' :=
    fun same hpending herrors => sites_plain hc hto hge same hpending herrors
  unfold read_number at h
  simp only [he, bind_eq_bind, bind_some, Option.pure_def] at h
  split at h
  · split at h
    · split at h
      · cases h
        exact hsites ⟨rfl, rfl, rfl, rfl, rfl⟩ rfl (.one (by decide))
      · cases h
        exact hsites ⟨rfl, rfl, rfl, rfl, rfl⟩ rfl (.one (by decide))
    · cases h
      exact hsites ⟨rfl, rfl, rfl, rfl, rfl⟩ rfl (.one (by decide))
  · split at h
    · cases h
      exact hsites ⟨rfl, rfl, rfl, rfl, rfl⟩ rfl (.one (by decide))
    · cases h
      exact hsites ⟨rfl, rfl, rfl, rfl, rfl⟩ rfl .none

theorem read_dot_sites (hc : Counts source st) (hb : byte source st.pos = some 46)
    (h : read_dot fl source name st = some (r, st')) : Sites source st r st' := by
  have hone : Plain source st.pos (st.pos + 1) := plain_one hb (by decide)
  unfold read_dot at h
  split at h
  · exact read_number_sites hc hb (Or.inr rfl) h
  unfold read_dots at h
  dsimp only at h
  split at h
  · next htwo =>
    have hboth := hone.append (plain_one htwo (by decide))
    split at h
    · next hthree =>
      cases h
      exact sites_plain hc (hboth.append (plain_one hthree (by decide))) (Nat.le_add_right _ _)
        ⟨rfl, rfl, rfl, rfl, rfl⟩ rfl .none
    · cases h
      exact sites_plain hc hboth (Nat.le_add_right _ _) ⟨rfl, rfl, rfl, rfl, rfl⟩ rfl .none
  · cases h
    exact sites_plain hc hone le_rfl ⟨rfl, rfl, rfl, rfl, rfl⟩ rfl .none

theorem read_colon_sites (hc : Counts source st) (hb : byte source st.pos = some 58)
    (h : read_colon source name st = some (r, st')) : Sites source st r st' := by
  have hone : Plain source st.pos (st.pos + 1) := plain_one hb (by decide)
  unfold read_colon at h
  dsimp only at h
  split at h
  · cases h
    exact sites_plain hc hone le_rfl ⟨rfl, rfl, rfl, rfl, rfl⟩ rfl .none
  next hnext =>
  have htwo := hone.append (plain_one (not_not.mp hnext) (by decide))
  cases hlabel : label_at source st.pos with
  | none =>
    rw [hlabel] at h
    cases h
    exact sites_plain hc htwo (le_succ _) ⟨rfl, rfl, rfl, rfl, rfl⟩ rfl (.one (by decide))
  | some found =>
    rw [hlabel] at h
    cases h
    exact sites_plain hc (label_at_plain hc.pos hlabel)
      (le_of_succ_le (label_at_some hlabel).1) ⟨rfl, rfl, rfl, rfl, rfl⟩ rfl
      (.one (by decide))

theorem read_stray_sites (hc : Counts source st) (hb : byte source st.pos = some b)
    (hplain : isBreak b = false) (h : read_stray source name b st = some (r, st')) :
    Sites source st r st' := by
  have hpos := byte_some_le hb
  unfold read_stray at h
  dsimp only at h
  generalize he : (if 128 ≤ b then run_end (fun b => 128 ≤ b) source.length source st.pos
    else st.pos) = e at h
  have hspan : st.pos ≤ e ∧ Plain source st.pos (e + 1) := by
    rw [← he]
    split
    · next hhigh =>
      exact ⟨run_end_gt source.length hb (by simpa using hhigh) (by omega), plain_run ⟨by decide, by decide⟩ _ hpos.1⟩
    · exact ⟨Nat.le_refl _, plain_one hb hplain⟩
  split at h
  · cases h
    exact sites_plain hc hspan.2 hspan.1 ⟨rfl, rfl, rfl, rfl, rfl⟩ rfl (.one (by decide))
  · cases h
    exact sites_plain hc hspan.2 hspan.1 ⟨rfl, rfl, rfl, rfl, rfl⟩ rfl (.one (by decide))

theorem Counts.spans (hc : Counts source st) {e : ℕ} (hle : st.pos ≤ e) (he : e ≤ source.length)
    (hscan : ∃ ls, Scanned source (e + 1) st.pos ls) {sp : Span}
    (h : span_end (sub source st.pos e) st.pos st.line st.line_start st.tokens.line = some sp) :
    At source (e + 1) sp.line sp.line_start sp.lines ∧ sp.yend = line_of source e ∧ sp.xend = column_of source e := by
  obtain ⟨ls, hls⟩ := hscan
  obtain ⟨sp', hsp', hall⟩ := span_end_at hc.stands hc.pos hle he hls
  rw [h] at hsp'
  cases hsp'
  exact hall

theorem scanned_to_end {i : ℕ} (hi : 1 ≤ i) (hle : i ≤ source.length) :
    ∃ ls, Scanned source (source.length + 1) i ls := by
  refine scanned_between hi (by omega) le_rfl (Or.inr fun b hb => ?_)
  have hlen := byte_some_le hb
  omega

theorem scanned_to_closing {i j cs ce : ℕ} {level : Bytes} (hi : 1 ≤ i) (hij : i ≤ j)
    (h : find_text (closing level) source j = some (cs, ce)) :
    ∃ ls, Scanned source (ce + 1) i ls := by
  obtain ⟨hge, hle⟩ := closing_some (Nat.le_trans hi hij) h
  have hlast := closing_last (Nat.le_trans hi hij) h
  refine scanned_between hi (by omega) (by omega) (Or.inl ⟨93, ?_, by decide⟩)
  rwa [Nat.add_sub_cancel]

theorem read_comment_sites (hc : Counts source st) (hb : byte source st.pos = some 45)
    (hnext : byte source (st.pos + 1) = some 45) (h : read_comment source name st = some (r, st')) :
    Sites source st r st' := by
  have hpos := byte_some_le hb
  have hlen := byte_some_le hnext
  unfold read_comment at h
  dsimp only at h
  cases ho : long_open source (st.pos + 2) with
  | none =>
    -- a line comment goes over no line break
    rw [ho] at h
    cases h
    have htwo : Plain source st.pos (st.pos + 2) := (plain_one hb (by decide)).append (plain_one hnext (by decide))
    have hrun : Plain source (st.pos + 2) ((find isBreak source (st.pos + 2)).getD (source.length + 1)) :=
      plain_find (fun _ h => h) (by omega)
    have hge : st.pos + 2 ≤ (find isBreak source (st.pos + 2)).getD (source.length + 1) := by
      cases hf : find isBreak source (st.pos + 2) with
      | none => exact succ_le_succ hlen.2
      | some q => exact (find_some (by omega) hf).1
    generalize (find isBreak source (st.pos + 2)).getD (source.length + 1) = ce at hrun hge ⊢
    refine sites_comment hc (hc.stands.plain ?_) ⟨rfl, rfl⟩ rfl rfl rfl rfl .none
    show Scanned source (ce - 1 + 1) st.pos []
    rw [Nat.sub_add_cancel (by omega)]
    exact scanned_plain (by omega) (htwo.append hrun)
  | some found =>
    obtain ⟨open_end, level⟩ := found
    have hopen := long_open_some ho
    rw [ho] at h
    simp only at h
    cases hf : find_text (closing level) source (open_end + 1) with
    | none =>
      rw [hf] at h
      obtain ⟨sp, hsp, h⟩ := bind_eq_some_iff.mp h
      obtain ⟨hat, hy, hx⟩ := hc.spans hpos.2 le_rfl (scanned_to_end hpos.1 hpos.2) hsp
      cases h
      refine sites_span hc hpos.2 hat hy hx ⟨rfl, rfl, rfl⟩ ⟨rfl, rfl⟩ rfl ?_
      refine ErrsHere.sited (.one ?_) hc
      decide
    | some places =>
      obtain ⟨cs, ce⟩ := places
      have hclose := closing_some (by omega) hf
      rw [hf] at h
      obtain ⟨l, hl, h⟩ := bind_eq_some_iff.mp h
      obtain ⟨ls, hls⟩ := scanned_to_closing hpos.1 (by omega) hf
      obtain ⟨l', hl', hat, _⟩ := advance_lines_at hc.stands hpos.1 (by omega) hls
      rw [Nat.add_sub_cancel, hl] at hl'
      cases hl'
      cases h
      exact sites_comment hc hat ⟨rfl, rfl⟩ rfl rfl rfl rfl (.one (by decide))

theorem read_dash_sites (hc : Counts source st) (hb : byte source st.pos = some 45)
    (h : read_dash source name st = some (r, st')) : Sites source st r st' := by
  unfold read_dash at h
  split at h
  · cases h
    exact sites_plain hc (plain_one hb (by decide)) le_rfl ⟨rfl, rfl, rfl, rfl, rfl⟩ rfl .none
  · next hnext => exact read_comment_sites hc hb (not_not.mp hnext) h

theorem read_escaped_sites (hc : Counts source st) (hb : byte source st.pos = some b)
    (hplain : isBreak b = false) (h : read_escaped source name b st = some (r, st')) :
    Sites source st r st' := by
  have hpos := byte_some_le hb
  obtain ⟨q, hq, h⟩ := bind_eq_some_iff.mp h
  obtain ⟨q', hq', hfits⟩ := read_string_some hpos.2 b
  rw [hq] at hq'
  cases hq'
  have hfirst := hfits.first
  have hbad := hfits.bad
  obtain ⟨hscan, hback⟩ := read_string_scanned hplain hb hq
  obtain ⟨value, _, h⟩ := bind_eq_some_iff.mp h
  obtain ⟨sp, hsp, h⟩ := bind_eq_some_iff.mp h
  obtain ⟨hat, hy, hx⟩ := hc.spans hfirst hfits.last hscan hsp
  -- setting the value, in `st₁`, records no end and no error
  have hmade : ∀ {k : Kind} {st₁ st₂ : State F}, st₁.tokens.yend = st.tokens.yend →
      st₁.tokens.xend = st.tokens.xend → st₁.errors = st.errors →
      st₂.tokens.yend = (st₁.mark_end (st.n + 1) st.line st.x (q.stop - st.pos + 1) sp.yend sp.xend).tokens.yend →
      st₂.tokens.xend = (st₁.mark_end (st.n + 1) st.line st.x (q.stop - st.pos + 1) sp.yend sp.xend).tokens.xend →
      st₂.pending = st.pending →
      (st₂.errors = st₁.errors ∨ ∃ er, st₂.errors = st₁.errors ++ [er] ∧ er.Sited source) →
      Sites source st ⟨some k, sub source st.pos q.stop, q.stop⟩ (st₂.at_line sp.line sp.line_start sp.lines) := by
    intro k st₁ st₂ hyend hxend herrs hyend₂ hxend₂ hpending herrs₂
    refine sites_span hc hfirst hat hy hx ⟨rfl, rfl, rfl⟩ ⟨?_, ?_⟩ hpending ?_
    · show st₂.tokens.yend = _
      rw [hyend₂]
      simp only [State.mark_end, hyend]
    · show st₂.tokens.xend = _
      rw [hxend₂]
      simp only [State.mark_end, hxend]
    · show ∀ er ∈ st₂.errors, _
      intro er her
      rcases herrs₂ with heq | ⟨er', heq, hsited⟩
      · rw [heq, herrs] at her
        exact Or.inl her
      · rw [heq, herrs] at her
        rcases mem_append.mp her with hold | hnew
        · exact Or.inl hold
        · rw [mem_singleton.mp hnew]
          exact Or.inr hsited
  have hescape : ∀ {y start : ℕ} {msg : Bytes}, q.bad_at > 0 →
      bad_line sp.lines q.bad_at st.line st.line_start = some (y, start) →
      Error.Sited source ⟨name, .bad_escape, msg, q.bad_fix, y, q.bad_at - start + 1, q.bad_at, q.bad_length⟩ := by
    intro y start msg hsome hline
    obtain ⟨ls, hls⟩ := hscan
    have hreached := hc.stands.reached.trans hls
    rw [hat.reached.eq_filter, ← hreached.eq_filter] at hline
    obtain ⟨y', start', hline', hy', hstart'⟩ :=
      bad_line_at hc.stands hreached (show st.pos ≤ q.bad_at by omega) (by omega)
    rw [hline] at hline'
    cases hline'
    refine ⟨hy', ?_, fun _ => hback (Nat.ne_of_gt hsome)⟩
    rw [column_of, hstart']
  have hopen : ∀ {msg fix : Bytes} {length : ℕ}, Error.Sited source
      ⟨name, .unterminated_string, msg, fix, st.line, st.x, st.pos, length⟩ :=
    hc.error_sited rfl rfl rfl (by simp)
  cases value with
  | none =>
    dsimp only at h
    split at h
    · cases h
      exact hmade rfl rfl rfl rfl rfl rfl (Or.inr ⟨_, rfl, hopen⟩)
    split at h
    · next hsome =>
      obtain ⟨⟨y, start⟩, hline, h⟩ := bind_eq_some_iff.mp h
      cases h
      exact hmade rfl rfl rfl rfl rfl rfl (Or.inr ⟨_, rfl, hescape hsome hline⟩)
    · cases h
      exact hmade rfl rfl rfl rfl rfl rfl (Or.inl rfl)
  | some value =>
    dsimp only at h
    split at h
    · cases h
      exact hmade rfl rfl rfl rfl rfl rfl (Or.inr ⟨_, rfl, hopen⟩)
    split at h
    · next hsome =>
      obtain ⟨⟨y, start⟩, hline, h⟩ := bind_eq_some_iff.mp h
      cases h
      exact hmade rfl rfl rfl rfl rfl rfl (Or.inr ⟨_, rfl, hescape hsome hline⟩)
    · cases h
      exact hmade rfl rfl rfl rfl rfl rfl (Or.inl rfl)

theorem read_quote_sites (hc : Counts source st) (hb : byte source st.pos = some b)
    (hplain : isBreak b = false) (h : read_quote source name b st = some (r, st')) :
    Sites source st r st' := by
  unfold read_quote at h
  dsimp only at h
  cases hf : find (ends_run b) source (st.pos + 1) with
  | none =>
    rw [hf] at h
    exact read_escaped_sites hc hb hplain h
  | some s =>
    obtain ⟨hs, ⟨c, hc', _⟩, hno⟩ := find_some (Nat.le_add_left 1 _) hf
    rw [hf] at h
    simp only at h
    split at h
    · next hquote =>
      -- the common string, on one line
      cases h
      have hbefore : Plain source (st.pos + 1) s := by
        intro k hk hks
        obtain ⟨d, hd⟩ := byte_of_le (s := source) (show 1 ≤ k by omega) (by have := (byte_some_le hc').2; omega)
        have hends := hno k d hk hks hd
        simp only [ends_run, or_eq_false_iff] at hends
        exact ⟨d, hd, hends.2⟩
      exact sites_plain hc (((plain_one hb hplain).append hbefore).append (plain_one hquote hplain))
        (le_of_succ_le hs) ⟨rfl, rfl, rfl, rfl, rfl⟩ rfl .none
    · exact read_escaped_sites hc hb hplain h

theorem read_bracket_sites (hc : Counts source st) (hb : byte source st.pos = some 91)
    (h : read_bracket source name st = some (r, st')) : Sites source st r st' := by
  have hpos := byte_some_le hb
  unfold read_bracket at h
  dsimp only at h
  cases ho : long_open source st.pos with
  | none =>
    rw [ho] at h
    cases h
    exact sites_plain hc (plain_one hb (by decide)) le_rfl ⟨rfl, rfl, rfl, rfl, rfl⟩ rfl .none
  | some found =>
    obtain ⟨open_end, level⟩ := found
    have hopen := long_open_some ho
    rw [ho] at h
    simp only at h
    cases hf : find_text (closing level) source (open_end + 1) with
    | none =>
      rw [hf] at h
      obtain ⟨sp, hsp, h⟩ := bind_eq_some_iff.mp h
      obtain ⟨hat, hy, hx⟩ := hc.spans hpos.2 le_rfl (scanned_to_end hpos.1 hpos.2) hsp
      cases h
      refine sites_span hc hpos.2 hat hy hx ⟨rfl, rfl, rfl⟩ ⟨rfl, rfl⟩ rfl ?_
      refine ErrsHere.sited (.one ?_) hc
      decide
    | some places =>
      have hclose := closing_some (by omega) hf
      rw [hf] at h
      obtain ⟨sp, hsp, h⟩ := bind_eq_some_iff.mp h
      obtain ⟨value, _, h⟩ := bind_eq_some_iff.mp h
      have hscan := scanned_to_closing hpos.1 (by omega) hf
      obtain ⟨hat, hy, hx⟩ := hc.spans (by omega) hclose.2 hscan hsp
      cases h
      exact sites_span hc (by omega) hat hy hx ⟨rfl, rfl, rfl⟩ ⟨rfl, rfl⟩ rfl
        fun er her => Or.inl her

/-- Every branch leaves the counts right. -/
theorem read_sites (hc : Counts source st) (h : read fl source name st = some (r, st')) : Sites source st r st' := by
  unfold read at h
  cases hb : byte source st.pos with
  | none =>
    rw [hb] at h
    cases h
  | some b =>
    rw [hb] at h
    simp only at h
    cases hclass : class_of b with
    | none =>
      rw [hclass] at h
      have hplain := not_break (p := fun b => (class_of b).isNone) ⟨by decide, by decide⟩
        (show (class_of b).isNone = true by rw [hclass]; rfl)
      exact read_stray_sites hc hb hplain h
    | some c =>
      have hspec := class_of_spec hclass
      rw [hclass] at h
      -- a class of bytes other than that of breaks holds none
      have hplain : c ≠ .line_break → isBreak b = false := fun hne =>
        not_break (p := fun b => decide (class_of b = some c))
          ⟨decide_eq_false fun h => hne (some.inj (h.symm.trans (by decide))),
            decide_eq_false fun h => hne (some.inj (h.symm.trans (by decide)))⟩
          (decide_eq_true hclass)
      cases c with
      | name => exact read_name_sites hc hb hspec h
      | blank => exact read_blank_sites hc hb hspec h
      | line_break => exact read_break_sites hc hb hspec h
      | one => exact read_one_sites hc hb hspec h
      | digit => exact read_number_sites hc hb (Or.inl hspec) h
      | quote => exact read_quote_sites hc hb (hplain (by decide)) h
      | operator => exact read_operator_sites hc hb (hplain (by decide)) h
      | dash => exact read_dash_sites hc (hspec ▸ hb) h
      | dot => exact read_dot_sites hc (hspec ▸ hb) h
      | colon => exact read_colon_sites hc (hspec ▸ hb) h
      | bracket => exact read_bracket_sites hc (hspec ▸ hb) h

end

end Cosmic.Lexer
