/-
The text of an IPv6 address: what `Grant.ipv6_text` writes is RFC 5952's form, and `Grant.address`
reads the same sixteen bytes back from it.

The writer finds the first longest run of zero groups with one pass over the groups and leaves it out
with empty parts, as many as the joined text needs for its two colons. `BestBefore` is what the pass
keeps; the reader finds those two colons because no part it joins is empty.
-/
import Cosmic.Relay.Grant
import Mathlib.Data.List.Forall2
import Mathlib.Data.Nat.Bitwise

set_option autoImplicit false

namespace Cosmic.Grant

open Cosmic.Base Nat

/-! ## Groups and their bytes -/

variable {bytes : Bytes} {n : ℕ}

theorem words_length (h : bytes.length = 2 * n) : (words bytes).length = n := by
  induction n generalizing bytes with
  | zero =>
    rw [List.length_eq_zero_iff.mp h]
    rfl
  | succ n ih =>
    match bytes, h with
    | high :: low :: rest, h =>
      simp only [List.length_cons] at h
      rw [words, List.length_cons, ih (by omega)]

theorem word_eq (high low : UInt8) : high.toNat <<< 8 ||| low.toNat = high.toNat * 256 + low.toNat := by
  rw [← shiftLeft_add_eq_or_of_lt low.toNat_lt, Nat.shiftLeft_eq]

variable {g : ℕ}

theorem words_lt (h : g ∈ words bytes) : g < 65536 := by
  induction hn : bytes.length using Nat.strong_induction_on generalizing bytes with
  | h n ih =>
    unfold words at h
    split at h
    next high low rest =>
      rcases List.mem_cons.mp h with rfl | h
      · have hhigh := high.toNat_lt
        have hlow := low.toNat_lt
        rw [word_eq]
        omega
      · exact ih rest.length (by rw [← hn, List.length_cons, List.length_cons]; omega) h rfl
    next => exact absurd h List.not_mem_nil

theorem group_bytes_words (h : bytes.length = 2 * n) : group_bytes (words bytes) = bytes := by
  induction n generalizing bytes with
  | zero =>
    rw [List.length_eq_zero_iff.mp h]
    rfl
  | succ n ih =>
    match bytes, h with
    | high :: low :: rest, h =>
      simp only [List.length_cons] at h
      have hlow := low.toNat_lt
      have hbig : (high.toNat <<< 8 ||| low.toNat) >>> 8 = high.toNat := by
        rw [word_eq, Nat.shiftRight_eq_div_pow]
        omega
      have hsmall : (high.toNat <<< 8 ||| low.toNat) &&& 0xff = low.toNat := by
        rw [word_eq, show (0xff : ℕ) = 2 ^ 8 - 1 by rfl, and_two_pow_sub_one_eq_mod]
        omega
      have hrest : group_bytes (words rest) = rest := ih (by omega)
      unfold group_bytes at hrest ⊢
      rw [words, List.flatMap_cons, hrest, hbig, hsmall, UInt8.ofNat_toNat, UInt8.ofNat_toNat]
      rfl

/-! ## RFC 5952 -/

/-- `w` writes the group `g` in lower case and without a leading zero. -/
structure GroupText (g : ℕ) (w : Bytes) : Prop where
  filled : w ≠ []
  lower_hex : ∀ b ∈ w, isLowerHex b = true
  value : digits_value 16 w = g
  no_zero : w.head? = some 48 → g = 0 ∧ w.length = 1

/-- The `n` groups after the first `i` are zero. -/
def ZeroRun (gs : List ℕ) (i n : ℕ) : Prop := ∀ k, k < n → gs[i + k]? = some 0

/-- The text of the groups `gs` in RFC 5952's form: every group written, or all but those of the
first longest run of two or more zero groups, which `::` stands for. -/
inductive Rfc5952 (gs : List ℕ) : Bytes → Prop where
  | whole (ws : List Bytes) (written : List.Forall₂ GroupText gs ws)
      (none_long : ∀ i, ¬ZeroRun gs i 2) : Rfc5952 gs (concat (lit ":") ws)
  | elided (i n : ℕ) (ws vs : List Bytes) (long : 2 ≤ n) (run : ZeroRun gs i n)
      (longest : ∀ j m, ZeroRun gs j m → m ≤ n) (first : ∀ j, j < i → ¬ZeroRun gs j n)
      (before : List.Forall₂ GroupText (gs.take i) ws)
      (after : List.Forall₂ GroupText (gs.drop (i + n)) vs) :
      Rfc5952 gs (concat (lit ":") ws ++ lit "::" ++ concat (lit ":") vs)

theorem groupText_hex (g : ℕ) : GroupText g (hex g) := by
  refine ⟨hex_ne_nil g, fun b => isLowerHex_of_mem_hex, digits_value_hex g, fun h => ?_⟩
  have hzero : g = 0 := hex_head h
  rw [hzero]
  exact ⟨rfl, rfl⟩

theorem groupTexts_hex (gs : List ℕ) : List.Forall₂ GroupText gs (gs.map hex) := by
  rw [List.forall₂_map_right_iff]
  exact List.forall₂_same.mpr fun g _ => groupText_hex g

/-! ## The first longest run -/

theorem le_takeWhile_length {α : Type} {p : α → Bool} {s : List α} :
    n ≤ (s.takeWhile p).length ↔ ∀ k, k < n → ∃ a, s[k]? = some a ∧ p a = true := by
  induction s generalizing n with
  | nil =>
    constructor
    · intro h k hk
      exact absurd (Nat.lt_of_lt_of_le hk h) (Nat.not_lt_zero k)
    · intro h
      by_contra hn
      obtain ⟨a, ha, -⟩ := h 0 (Nat.pos_of_ne_zero (by simpa using hn))
      cases ha
  | cons a s ih =>
    by_cases ha : p a = true
    · rw [List.takeWhile_cons_of_pos ha, List.length_cons]
      cases n with
      | zero => simp
      | succ n =>
        rw [succ_le_succ_iff, ih]
        constructor
        · intro h k hk
          cases k with
          | zero => exact ⟨a, rfl, ha⟩
          | succ k => exact h k (lt_of_succ_lt_succ hk)
        · exact fun h k hk => h (k + 1) (succ_lt_succ hk)
    · rw [List.takeWhile_cons_of_neg ha]
      constructor
      · intro h k hk
        exact absurd (Nat.lt_of_lt_of_le hk h) (Nat.not_lt_zero k)
      · intro h
        by_contra hn
        obtain ⟨b, hb, hp⟩ := h 0 (Nat.pos_of_ne_zero (by simpa using hn))
        rw [List.getElem?_cons_zero, Option.some_inj] at hb
        exact ha (hb ▸ hp)

variable {gs : List ℕ} {i : ℕ}

theorem le_zeros_iff : n ≤ zeros gs (i + 1) ↔ ZeroRun gs i n := by
  unfold zeros ZeroRun
  rw [le_takeWhile_length]
  apply forall_congr'
  intro k
  apply imp_congr Iff.rfl
  rw [List.getElem?_drop, Nat.add_sub_cancel]
  simp

theorem zeros_add {j : ℕ} (h : j ≤ zeros gs (i + 1)) : zeros gs (i + j + 1) + j ≤ zeros gs (i + 1) := by
  rw [le_zeros_iff]
  intro k hk
  by_cases hkj : k < j
  · exact le_zeros_iff.mp h k hkj
  · have hlater : ZeroRun gs (i + j) (zeros gs (i + j + 1)) := le_zeros_iff.mp le_rfl
    have hval := hlater (k - j) (by omega)
    rwa [show i + j + (k - j) = i + k by omega] at hval

theorem zeros_past (h : gs.length ≤ i) : zeros gs (i + 1) = 0 := by
  unfold zeros
  rw [Nat.add_sub_cancel, List.drop_eq_nil_of_le h]
  rfl

/-- What the search holds once it has looked at the positions before `start`. -/
structure BestBefore (all : List ℕ) (start : ℕ) (best : ℕ × ℕ) : Prop where
  most : ∀ i, i + 1 < start → zeros all (i + 1) ≤ best.2
  first : ∀ i, i + 1 < best.1 → zeros all (i + 1) < best.2
  real : best = (0, 1) ∨ 2 ≤ best.2 ∧ ∃ i, best.1 = i + 1 ∧ zeros all (i + 1) = best.2

variable {all : List ℕ} {best : ℕ × ℕ}

theorem BestBefore.skip (h : BestBefore all (i + 1) best) (hz : zeros all (i + 1) = 0) :
    BestBefore all (i + 2) best := by
  refine ⟨fun j hj => ?_, h.first, h.real⟩
  by_cases hij : j = i
  · rw [hij, hz]
    exact Nat.zero_le _
  · exact h.most j (by omega)

theorem BestBefore.run (h : BestBefore all (i + 1) best) : BestBefore all (i + 1 + zeros all (i + 1))
      (if zeros all (i + 1) > best.2 then (i + 1, zeros all (i + 1)) else best) := by
  have hone : 1 ≤ best.2 := by
    rcases h.real with hb | ⟨hb, -⟩
    · rw [hb]
    · omega
  -- positions inside the run are those of shorter runs
  have hinside : ∀ j, i ≤ j → j < i + zeros all (i + 1) → zeros all (j + 1) ≤ zeros all (i + 1) := by
    intro j hij hj
    have hadd := @zeros_add all i (j - i) (by omega)
    rw [show i + (j - i) + 1 = j + 1 by omega] at hadd
    omega
  split
  · next hbig =>
    refine ⟨fun j hj => ?_, fun j hj => ?_, .inr ⟨?_, i, rfl, rfl⟩⟩
    · by_cases hij : i ≤ j
      · exact hinside j hij (by omega)
      · have hmost := h.most j (by omega)
        omega
    · have hj' : j + 1 < i + 1 := hj
      have hmost := h.most j hj'
      omega
    · omega
  · next hbig =>
    refine ⟨fun j hj => ?_, h.first, h.real⟩
    by_cases hij : i ≤ j
    · exact Nat.le_trans (hinside j hij (by omega)) (by omega)
    · exact h.most j (by omega)

theorem best_run_before (rounds i : ℕ) (hr : 8 ≤ i + rounds) (h : BestBefore all (i + 1) best) :
    ∃ j, 8 ≤ j ∧ BestBefore all (j + 1) (best_run all rounds (i + 1) best) := by
  induction rounds generalizing i best with
  | zero => exact ⟨i, hr, h⟩
  | succ rounds ih =>
    rw [best_run]
    by_cases hend : 8 < i + 1
    · rw [if_pos hend]
      exact ⟨i, by omega, h⟩
    rw [if_neg hend]
    by_cases hz : zeros all (i + 1) = 0
    · rw [if_pos hz]
      exact ih (i + 1) (by omega) (h.skip hz)
    · rw [if_neg hz]
      have hrun := h.run
      rw [show i + 1 + zeros all (i + 1) = i + zeros all (i + 1) + 1 by omega] at hrun ⊢
      exact ih (i + zeros all (i + 1)) (by omega) hrun

theorem best_run_eight (hall : all.length = 8) : (best_run all 8 1 (0, 1) = (0, 1) ∧ ∀ i, ¬ZeroRun all i 2) ∨
      ∃ i n, best_run all 8 1 (0, 1) = (i + 1, n) ∧ 2 ≤ n ∧ i + n ≤ 8 ∧ ZeroRun all i n ∧
        (∀ j m, ZeroRun all j m → m ≤ n) ∧ ∀ j, j < i → ¬ZeroRun all j n := by
  obtain ⟨last, hlast, hbest⟩ : ∃ last, 8 ≤ last ∧ BestBefore all (last + 1) (best_run all 8 1 (0, 1)) :=
    best_run_before 8 0 (by omega) ⟨fun i hi => by omega, nofun, .inl rfl⟩
  generalize best_run all 8 1 (0, 1) = best at hbest ⊢
  obtain ⟨at_, n⟩ := best
  have hmost : ∀ j m, ZeroRun all j m → m ≤ n := by
    intro j m hrun
    have hm := le_zeros_iff.mpr hrun
    by_cases hj : j < last
    · exact Nat.le_trans hm (hbest.most j (by omega))
    · rw [zeros_past (by omega)] at hm
      omega
  rcases hbest.real with hnone | ⟨htwo, i, hi, hz⟩
  · cases hnone
    refine .inl ⟨rfl, fun i hrun => ?_⟩
    exact absurd (hmost i 2 hrun) (by decide)
  subst hi
  have hrun : ZeroRun all i n := le_zeros_iff.mp (Nat.le_of_eq hz.symm)
  refine .inr ⟨i, n, rfl, htwo, ?_, hrun, hmost, fun j hj hjrun => ?_⟩
  · have hval := hrun (n - 1) (by omega)
    have hlt := (List.getElem?_eq_some_iff.mp hval).1
    omega
  · have hlt : zeros all (j + 1) < n := hbest.first j (succ_lt_succ hj)
    have hge := le_zeros_iff.mpr hjrun
    omega

/-! ## The parts of the text -/

theorem text_parts_whole (hall : all.length = 8) {best_at best_len : ℕ} (rounds i : ℕ) (hr : 8 ≤ i + rounds)
    (hi : best_at ≤ i) :
    text_parts all best_at best_len rounds (i + 1) = (all.drop i).map hex := by
  induction rounds generalizing i with
  | zero =>
    rw [text_parts, List.drop_eq_nil_of_le (by omega)]
    rfl
  | succ rounds ih =>
    rw [text_parts]
    by_cases hend : 8 < i + 1
    · rw [if_pos hend, List.drop_eq_nil_of_le (by omega)]
      rfl
    · have hlt : i < all.length := by omega
      rw [if_neg hend, if_neg (by omega), ih (i + 1) (by omega) (by omega),
        List.drop_eq_getElem_cons hlt, List.map_cons, Nat.add_sub_cancel,
        List.getD_eq_getElem _ _ hlt]

theorem text_parts_elided (hall : all.length = 8) {i₀ : ℕ} (hn : 2 ≤ n) (hin : i₀ + n ≤ 8) (rounds i : ℕ)
    (hr : 8 ≤ i + rounds) (hi : i ≤ i₀) :
    text_parts all (i₀ + 1) n rounds (i + 1) = ((all.drop i).take (i₀ - i)).map hex ++
        ([] :: ((if i₀ = 0 ∨ i₀ + n = 8 then [[]] else []) ++ (all.drop (i₀ + n)).map hex)) := by
  induction rounds generalizing i with
  | zero => omega
  | succ rounds ih =>
    rw [text_parts, if_neg (by omega)]
    by_cases hhere : i = i₀
    · have hrest := @text_parts_whole all hall (i₀ + 1) n rounds (i₀ + n) (by omega) (by omega)
      rw [hhere, if_pos rfl, show i₀ + 1 + n = i₀ + n + 1 by omega, hrest, Nat.sub_self]
      have hcond : (i₀ + 1 = 1 ∨ i₀ + n + 1 > 8) ↔ (i₀ = 0 ∨ i₀ + n = 8) := by omega
      simp only [hcond, List.take_zero, List.map_nil, List.nil_append]
    · have hlt : i < all.length := by omega
      rw [if_neg (by omega), ih (i + 1) (by omega) (by omega), List.drop_eq_getElem_cons hlt,
        show i₀ - i = i₀ - (i + 1) + 1 by omega, List.take_succ_cons, List.map_cons,
        Nat.add_sub_cancel, List.getD_eq_getElem _ _ hlt]
      rfl

variable {ws vs : List Bytes}

theorem concat_elided (h : ws ≠ [] ∨ vs ≠ []) :
    concat (lit ":") (ws ++ ([] :: ((if ws = [] ∨ vs = [] then [[]] else []) ++ vs))) =
      concat (lit ":") ws ++ lit "::" ++ concat (lit ":") vs := by
  have hcolons : lit "::" = lit ":" ++ lit ":" := rfl
  by_cases hw : ws = []
  · have hv : vs ≠ [] := h.resolve_left (fun hne => hne hw)
    rw [if_pos (.inl hw), hw, List.nil_append, List.singleton_append,
      concat_cons_append _ _ (by simp), concat_cons_append _ _ hv, hcolons]
    simp [concat]
  · by_cases hv : vs = []
    · rw [if_pos (.inr hv), hv, List.append_nil, concat_append hw (by simp), hcolons]
      simp [concat]
    · rw [if_neg (by simp [hw, hv]), List.nil_append, concat_append hw (by simp), concat_cons_append _ _ hv, hcolons]
      simp

theorem groups_text_cases (hall : all.length = 8) :
    ((∀ i, ¬ZeroRun all i 2) ∧ groups_text all = concat (lit ":") (all.map hex)) ∨
      ∃ i n, 2 ≤ n ∧ i + n ≤ 8 ∧ ZeroRun all i n ∧ (∀ j m, ZeroRun all j m → m ≤ n) ∧
        (∀ j, j < i → ¬ZeroRun all j n) ∧
        groups_text all = concat (lit ":") ((all.take i).map hex) ++ lit "::" ++
          concat (lit ":") ((all.drop (i + n)).map hex) := by
  rcases best_run_eight hall with ⟨hbest, hno⟩ | ⟨i, n, hbest, hn, hin, hrun, hmost, hfirst⟩
  · refine .inl ⟨hno, ?_⟩
    unfold groups_text
    rw [hbest]
    dsimp only
    rw [if_neg (by decide), text_parts_whole hall 8 0 (by omega) (by omega), List.drop_zero]
  · refine .inr ⟨i, n, hn, hin, hrun, hmost, hfirst, ?_⟩
    unfold groups_text
    rw [hbest]
    dsimp only
    by_cases hall8 : n = 8
    · obtain rfl : i = 0 := by omega
      rw [if_pos hall8, hall8, List.drop_eq_nil_of_le (by omega)]
      rfl
    have hw : (all.take i).map hex = [] ↔ i = 0 := by
      rw [List.map_eq_nil_iff, List.take_eq_nil_iff]
      constructor
      · rintro (h | h)
        · exact h
        · rw [h] at hall
          cases hall
      · exact .inl
    have hv : (all.drop (i + n)).map hex = [] ↔ i + n = 8 := by
      rw [List.map_eq_nil_iff, List.drop_eq_nil_iff]
      omega
    rw [if_neg hall8, text_parts_elided hall hn hin 8 0 (by omega) (by omega), List.drop_zero,
      Nat.sub_zero, ← concat_elided (by rw [ne_eq, ne_eq, hw, hv]; omega)]
    simp only [hw, hv]

/-- `ipv6_text` writes RFC 5952's form. -/
theorem groups_text_rfc5952 (hall : all.length = 8) : Rfc5952 all (groups_text all) := by
  rcases groups_text_cases hall with ⟨hno, htext⟩ | ⟨i, n, hn, -, hrun, hmost, hfirst, htext⟩
  · rw [htext]
    exact .whole _ (groupTexts_hex all) hno
  · rw [htext]
    exact .elided i n _ _ hn hrun hmost hfirst (groupTexts_hex _) (groupTexts_hex _)

/-! ## The text read again -/

theorem not_mem_hex {b : UInt8} (h : isLowerHex b = false) : b ∉ hex g := by
  intro hb
  rw [isLowerHex_of_mem_hex hb] at h
  cases h

theorem parts_hex (gs : List ℕ) : Parts 58 (gs.map hex) := by
  refine ⟨fun p hp => ?_, fun p hp => ?_⟩
  · obtain ⟨g, -, rfl⟩ := List.mem_map.mp hp
    exact hex_ne_nil g
  · obtain ⟨g, -, rfl⟩ := List.mem_map.mp hp
    exact not_mem_hex (by decide)

theorem part_groups_hex (tail4 : Bool) (hg : g < 65536) : part_groups tail4 (hex g) = some [g] := by
  have hlen : (hex g).length ≤ 4 := (hex_length_le (by decide)).mpr hg
  have hpos : 0 < (hex g).length := List.length_pos_of_ne_nil (hex_ne_nil g)
  have hall : (hex g).any (fun b => !isHex b) = false := by
    rw [List.any_eq_false]
    intro b hb
    rw [isHex_of_isLowerHex (isLowerHex_of_mem_hex hb)]
    decide
  unfold part_groups
  rw [if_neg (not_mem_hex (by decide)), if_neg, hexadecimal_hex]
  · rfl
  · rw [hall]
    simp only [Bool.false_eq_true, or_false]
    omega

theorem parts_groups_hex (tail4 : Bool) (hgs : ∀ g ∈ gs, g < 65536) : parts_groups tail4 (gs.map hex) = some gs := by
  induction gs with
  | nil => rfl
  | cons g gs ih =>
    rw [List.map_cons, parts_groups, part_groups_hex _ (hgs g List.mem_cons_self)]
    rw [ih fun g' hg' => hgs g' (List.mem_cons_of_mem g hg')]
    rfl

theorem groups_hex (tail4 : Bool) (hgs : ∀ g ∈ gs, g < 65536) :
    groups (concat (lit ":") (gs.map hex)) tail4 = some gs := by
  cases gs with
  | nil => rfl
  | cons g gs =>
    obtain ⟨b, u, hu, -⟩ := (parts_hex (g :: gs)).concat_cons
    have hsplit : (concat (lit ":") ((g :: gs).map hex)).splitOn 58 = (g :: gs).map hex :=
      splitOn_concat (by simp) (parts_hex (g :: gs)).apart
    unfold groups
    rw [if_neg, hsplit, parts_groups_hex tail4 hgs]
    show ¬concat [58] ((g :: gs).map hex) = []
    rw [List.map_cons, hu]
    exact List.cons_ne_nil b u

theorem elision_whole (hw : Parts 58 ws) : elision (concat (lit ":") ws) = some (concat (lit ":") ws, [], false) := by
  have hnone : index_of (lit "::") (concat (lit ":") ws) = none := hw.index_of_none
  unfold elision
  rw [hnone]

theorem elision_elided (hw : Parts 58 ws) (hv : Parts 58 vs) :
    elision (concat (lit ":") ws ++ lit "::" ++ concat (lit ":") vs) =
      some (concat (lit ":") ws, concat (lit ":") vs, true) := by
  have hfound : index_of (lit "::") (concat (lit ":") ws ++ (lit "::" ++ concat (lit ":") vs)) =
      some (concat (lit ":") ws).length := by
    show index_of (58 :: 58 :: []) (concat [58] ws ++ _) = some (concat [58] ws).length
    rw [hw.index_of_append]
    simp [lit, index_of]
  have hnext : index_of (lit "::") (lit ":" ++ concat (lit ":") vs) = none := by
    cases vs with
    | nil => decide
    | cons v vs =>
      obtain ⟨b, u, hu, hb⟩ := hv.concat_cons
      have hnone : index_of (58 :: 58 :: []) (concat [58] (v :: vs)) = none := hv.index_of_none
      show index_of (58 :: 58 :: []) (58 :: concat [58] (v :: vs)) = none
      rw [hu] at hnone ⊢
      rw [index_of_single hb, hnone]
      rfl
  unfold elision
  rw [List.append_assoc, hfound]
  dsimp only
  rw [List.drop_length_add_append, List.drop_length_add_append, List.take_left]
  show (if (index_of (lit "::") (lit ":" ++ concat (lit ":") vs)).isSome = true then none else _) = _
  rw [hnext]
  rfl

theorem no_triple (hw : Parts 58 ws) (hv : Parts 58 vs) :
    index_of (lit ":::") (concat (lit ":") ws ++ lit "::" ++ concat (lit ":") vs) = none := by
  have hrest : index_of (58 :: 58 :: [58]) (58 :: 58 :: concat [58] vs) = none := by
    cases vs with
    | nil => decide
    | cons v vs =>
      obtain ⟨b, u, hu, hb⟩ := hv.concat_cons
      have hnone : index_of (58 :: 58 :: [58]) (concat [58] (v :: vs)) = none := hv.index_of_none
      rw [hu] at hnone ⊢
      rw [index_of, if_neg, index_of_single hb, hnone]
      · rfl
      · intro hp
        have hp' := (List.cons_prefix_cons.mp (List.isPrefixOf_iff_prefix.mp hp)).2
        have hp'' := (List.cons_prefix_cons.mp hp').2
        exact hb (List.cons_prefix_cons.mp hp'').1.symm
  rw [List.append_assoc]
  show index_of (58 :: 58 :: [58]) (concat [58] ws ++ 58 :: 58 :: concat [58] vs) = none
  rw [hw.index_of_append, hrest]
  rfl

theorem fill_elided (hall : all.length = 8) (hn : 2 ≤ n) (hin : i + n ≤ 8) (hrun : ZeroRun all i n) :
    fill (all.take i) (all.drop (i + n)) true = some all := by
  have hgap : (8 : ℤ) - (all.take i).length - (all.drop (i + n)).length = n := by
    rw [List.length_take, List.length_drop, hall]
    omega
  have hzeros : List.replicate n 0 = (all.drop i).take n := by
    apply List.ext_getElem?
    intro k
    by_cases hk : k < n
    · rw [List.getElem?_replicate_of_lt hk, List.getElem?_take_of_lt hk, List.getElem?_drop, hrun k hk]
    · rw [List.getElem?_eq_none (by rw [List.length_replicate]; omega),
        List.getElem?_eq_none (by rw [List.length_take]; omega)]
  unfold fill
  rw [if_pos rfl, hgap, if_neg (by omega), Int.toNat_natCast, hzeros, ← List.drop_drop,
    List.append_assoc, List.take_append_drop, List.take_append_drop]

theorem mem_hex_text {b : UInt8} (h : b ∈ concat (lit ":") (gs.map hex)) : isHex b = true ∨ b = 58 := by
  rcases mem_concat h with h | ⟨p, hp, h⟩
  · exact .inr (List.mem_singleton.mp h)
  · obtain ⟨g, -, rfl⟩ := List.mem_map.mp hp
    exact .inl (isHex_of_isLowerHex (isLowerHex_of_mem_hex h))

theorem parse6_text {text : Bytes} (hbytes : ∀ b ∈ text, isHex b = true ∨ b = 58)
    (htriple : index_of (lit ":::") text = none) {head tail : Bytes} {elided : Bool}
    (hel : elision text = some (head, tail, elided)) {first second : List ℕ}
    (hfirst : groups head (!elided) = some first) (hsecond : groups tail true = some second)
    (hfill : fill first second elided = some all) : parse6 text = some (group_bytes all) := by
  have hany : text.any (fun b => !(isHex b || b == 58 || b == 46)) = false := by
    rw [List.any_eq_false]
    intro b hb
    rcases hbytes b hb with h | h
    · simp [h]
    · simp [h]
  unfold parse6
  rw [hany, htriple, if_neg (by simp), hel]
  dsimp only
  rw [hfirst, hsecond]
  dsimp only
  rw [hfill]
  rfl

theorem hex_text_length (hgs : ∀ g ∈ gs, g < 65536) : (concat (lit ":") (gs.map hex)).length ≤ 5 * gs.length := by
  have hshort : ∀ p ∈ gs.map hex, p.length ≤ 4 := by
    intro p hp
    obtain ⟨g, hg, rfl⟩ := List.mem_map.mp hp
    exact (hex_length_le (by decide)).mpr (hgs g hg)
  have hle := concat_length_le (c := 58) hshort
  rw [List.length_map] at hle
  show (concat [58] (gs.map hex)).length ≤ _
  omega

theorem parse6_whole (hall : all.length = 8) (hlt : ∀ g ∈ all, g < 65536) :
    parse6 (concat (lit ":") (all.map hex)) = some (group_bytes all) ∧ 58 ∈ concat (lit ":") (all.map hex) ∧
      (concat (lit ":") (all.map hex)).length ≤ MAX_ADDRESS := by
  have hlen := hex_text_length hlt
  rw [hall] at hlen
  have hmem : 58 ∈ concat (lit ":") (all.map hex) := by
    match all, hall with
    | g :: g' :: gs, _ =>
      rw [List.map_cons, List.map_cons, concat]
      simp [lit]
  refine ⟨?_, hmem, Nat.le_trans hlen (by decide)⟩
  exact parse6_text (fun b => mem_hex_text) (parts_hex all).index_of_none
    (elision_whole (parts_hex all)) (groups_hex true hlt) rfl (by simp [fill, hall])

theorem address_of_parse6 {text : Bytes} (h : parse6 text = some bytes) (hc : 58 ∈ text)
    (hlen : text.length ≤ MAX_ADDRESS) : address text = some bytes := by
  unfold address
  rw [if_neg, if_pos hc, h]
  rw [not_or]
  exact ⟨List.ne_nil_of_mem hc, Nat.not_lt.mpr hlen⟩

theorem address_whole (hall : all.length = 8) (hlt : ∀ g ∈ all, g < 65536) :
    address (concat (lit ":") (all.map hex)) = some (group_bytes all) := by
  obtain ⟨hparse, hc, hlen⟩ := parse6_whole hall hlt
  exact address_of_parse6 hparse hc hlen

theorem address_groups_text (hall : all.length = 8) (hlt : ∀ g ∈ all, g < 65536) :
    address (groups_text all) = some (group_bytes all) ∧ 58 ∈ groups_text all ∧
      ∀ b ∈ groups_text all, isHex b = true ∨ b = 58 := by
  have hsub : ∀ {gs : List ℕ}, gs ⊆ all → ∀ g ∈ gs, g < 65536 := fun h g hg => hlt g (h hg)
  suffices h : parse6 (groups_text all) = some (group_bytes all) ∧ 58 ∈ groups_text all ∧
      (groups_text all).length ≤ MAX_ADDRESS ∧ ∀ b ∈ groups_text all, isHex b = true ∨ b = 58 from
    ⟨address_of_parse6 h.1 h.2.1 h.2.2.1, h.2.1, h.2.2.2⟩
  rcases groups_text_cases hall with ⟨-, htext⟩ | ⟨i, n, hn, hin, hrun, -, -, htext⟩
  · obtain ⟨hparse, hc, hlen⟩ := parse6_whole hall hlt
    rw [htext]
    exact ⟨hparse, hc, hlen, fun b => mem_hex_text⟩
  have hbefore := hsub (List.take_subset i all)
  have hafter := hsub (List.drop_subset (i + n) all)
  have hbytes : ∀ b ∈ concat (lit ":") ((all.take i).map hex) ++ lit "::" ++
      concat (lit ":") ((all.drop (i + n)).map hex), isHex b = true ∨ b = 58 := by
    intro b hb
    rcases List.mem_append.mp hb with hb | hb
    · rcases List.mem_append.mp hb with hb | hb
      · exact mem_hex_text hb
      · right
        simpa [lit] using hb
    · exact mem_hex_text hb
  have hlen₁ := hex_text_length hbefore
  have hlen₂ := hex_text_length hafter
  rw [List.length_take] at hlen₁
  rw [List.length_drop, hall] at hlen₂
  rw [htext]
  refine ⟨?_, by simp [lit], ?_, hbytes⟩
  · exact parse6_text hbytes (no_triple (parts_hex _) (parts_hex _))
      (elision_elided (parts_hex _) (parts_hex _)) (groups_hex _ hbefore) (groups_hex _ hafter)
      (fill_elided hall hn hin hrun)
  · have htwo : (lit "::").length = 2 := rfl
    rw [List.length_append, List.length_append, htwo]
    show _ ≤ 45
    omega

/-- The text of sixteen bytes is read as those bytes. -/
theorem address_ipv6_text (bytes : Sixteen) : address (ipv6_text bytes) = some bytes.1 := by
  have hall : (words bytes.1).length = 8 := words_length bytes.2
  unfold ipv6_text
  rw [(address_groups_text hall fun g => words_lt).1, group_bytes_words (n := 8) bytes.2]

end Cosmic.Grant
