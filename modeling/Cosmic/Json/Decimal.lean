/-
The number that a text of RFC 8259 writes, whatever its layout: its significant digits, and where the
point stands before them.

`put_canonical_number` recovers them from the text of another writer, in one pass over it.
-/
import Cosmic.Json.Rfc
import Mathlib.Data.List.DropRight

set_option autoImplicit false

namespace Cosmic.Json

open Cosmic.Base List Option Bool

/-- A number: 0.<digits> times ten to `point`. Zero has no digits. -/
structure Decimal where
  negative : Bool
  digits : Bytes
  point : ℤ
deriving DecidableEq

/-- The digit `0`. -/
def zero_digit (b : UInt8) : Bool := b = 48

def significant (s : Bytes) : Bytes := (s.dropWhile zero_digit).rdropWhile zero_digit

/-- The number of the digits before the point, those after it and the exponent. -/
def Decimal.make (negative : Bool) (whole frac : Bytes) (exponent : ℤ) : Decimal where
  negative
  digits := significant (whole ++ frac)
  point :=
    if significant (whole ++ frac) = [] then 0
    else whole.length - ((whole ++ frac).takeWhile zero_digit).length + exponent

def exponent_of : Bytes → ℤ
  | _ :: s => atoi s
  | [] => 0

/-- The number a text writes. -/
def decimal_of (s : Bytes) : Decimal :=
  let text := after_minus s
  let mantissa := text.takeWhile fun c => !is_e c
  .make (s.head? = some 45) (mantissa.takeWhile (· ≠ 46)) ((mantissa.dropWhile (· ≠ 46)).drop 1)
    (exponent_of (text.dropWhile fun c => !is_e c))

example : decimal_of (lit "-0.0250e+3") = ⟨true, lit "25", 2⟩ := by decide +kernel

/-! ## The parts of a text -/

def Digits (s : Bytes) : Prop := ∀ b ∈ s, isDigit b = true

/-- A point and digits, unless there are none. -/
def pointed (frac : Bytes) : Bytes := if frac = [] then [] else 46 :: frac

/-- `s` is a number's text, of these parts. -/
structure Spelled (s : Bytes) (negative : Bool) (whole frac exponent : Bytes) : Prop where
  text : s = (if negative then [45] else []) ++ (whole ++ (pointed frac ++ exponent))
  whole_ne : whole ≠ []
  whole : Digits whole
  frac : Digits frac
  exponent : exponent = [] ∨ ∃ c t, exponent = c :: t ∧ is_e c = true

theorem digits_takeWhile (s : Bytes) : Digits (s.takeWhile isDigit) := fun _ hb => mem_takeWhile_imp hb

theorem after_integral_parts {s t : Bytes} (h : after_integral s = some t) :
    ∃ whole, s = whole ++ t ∧ whole ≠ [] ∧ Digits whole := by
  rcases s with _ | ⟨c, s⟩
  · cases h
  rw [after_integral] at h
  split_ifs at h with hzero hdigit
  · cases h
    refine ⟨[c], rfl, cons_ne_nil _ _, fun b hb => ?_⟩
    rw [mem_singleton.mp hb, hzero]
    rfl
  · cases h
    refine ⟨c :: s.takeWhile isDigit, ?_, cons_ne_nil _ _, fun b hb => ?_⟩
    · rw [cons_append, takeWhile_append_dropWhile]
    · rcases mem_cons.mp hb with rfl | hb
      · exact digit_of_nonzero hdigit
      · exact mem_takeWhile_imp hb

theorem after_digits_parts {s t : Bytes} (h : after_digits s = some t) : ∃ ds, s = ds ++ t ∧ ds ≠ [] ∧ Digits ds := by
  unfold after_digits at h
  split_ifs at h with hempty
  cases h
  refine ⟨s.takeWhile isDigit, takeWhile_append_dropWhile.symm, ?_, digits_takeWhile s⟩
  rintro hnil
  exact hempty (by rw [hnil]; rfl)

theorem after_fraction_parts {s t : Bytes} (h : after_fraction s = some t) :
    ∃ frac, s = pointed frac ++ t ∧ Digits frac := by
  unfold after_fraction at h
  split at h
  · obtain ⟨ds, rfl, hne, hds⟩ := after_digits_parts h
    exact ⟨ds, by rw [pointed, if_neg hne, cons_append], hds⟩
  · cases h
    exact ⟨[], rfl, by simp [Digits]⟩

theorem after_exponent_parts {s : Bytes} (h : after_exponent s = some []) :
    s = [] ∨ ∃ c t, s = c :: t ∧ is_e c = true := by
  rcases s with _ | ⟨c, s⟩
  · exact .inl rfl
  right
  refine ⟨c, s, rfl, ?_⟩
  by_contra hc
  have hstays : after_exponent (c :: s) = some (c :: s) := by
    exact if_neg hc
  rw [hstays] at h
  cases h

theorem after_minus_digit {b : UInt8} {s : Bytes} (h : isDigit b = true) : after_minus (b :: s) = b :: s := by
  unfold after_minus
  split
  · rename_i heq
    rw [(List.cons.inj heq).1] at h
    cases h
  · rfl

theorem after_minus_parts (s : Bytes) : ∃ negative : Bool, s = (if negative then [45] else []) ++ after_minus s := by
  unfold after_minus
  split
  · exact ⟨true, rfl⟩
  · exact ⟨false, rfl⟩

theorem spelled_of_number {s : Bytes} (h : is_json_number s = true) :
    ∃ negative whole frac exponent, Spelled s negative whole frac exponent := by
  rw [is_json_number, decide_eq_true_iff] at h
  obtain ⟨t, h, hexponent⟩ := bind_eq_some_iff.mp h
  obtain ⟨u, hintegral, hfraction⟩ := bind_eq_some_iff.mp h
  obtain ⟨negative, hminus⟩ := after_minus_parts s
  obtain ⟨whole, hwhole, hne, hdigits⟩ := after_integral_parts hintegral
  obtain ⟨frac, rfl, hfrac⟩ := after_fraction_parts hfraction
  rw [hwhole] at hminus
  exact ⟨negative, whole, frac, t, hminus, hne, hdigits, hfrac, after_exponent_parts hexponent⟩

variable {s whole frac exponent : Bytes} {negative : Bool}

theorem Spelled.after_minus (h : Spelled s negative whole frac exponent) :
    after_minus s = whole ++ (pointed frac ++ exponent) := by
  obtain ⟨b, w, hw⟩ := exists_cons_of_ne_nil h.whole_ne
  have hb : isDigit b = true := h.whole b (by rw [hw]; exact mem_cons_self ..)
  rw [h.text]
  cases negative with
  | true => rfl
  | false =>
    rw [if_neg (by decide), nil_append, hw, cons_append]
    exact after_minus_digit hb

theorem Spelled.head (h : Spelled s negative whole frac exponent) : decide (s.head? = some 45) = negative := by
  obtain ⟨b, w, hw⟩ := exists_cons_of_ne_nil h.whole_ne
  have hb : isDigit b = true := h.whole b (by rw [hw]; exact mem_cons_self ..)
  rw [h.text]
  cases negative with
  | true => rfl
  | false =>
    rw [if_neg (by decide), nil_append, hw, cons_append, head?_cons, decide_eq_false_iff_not]
    rintro heq
    rw [some.inj heq] at hb
    cases hb

theorem not_e_of_digit {b : UInt8} (h : isDigit b = true) : is_e b = false := by
  rw [← not_eq_true]
  intro he
  rcases or_eq_true_iff.mp he with he | he
  · rw [of_decide_eq_true he] at h
    cases h
  · rw [of_decide_eq_true he] at h
    cases h

theorem Spelled.mantissa (h : Spelled s negative whole frac exponent) :
    ∀ b ∈ whole ++ pointed frac, (fun c => !is_e c) b = true := by
  intro b hb
  dsimp only
  rcases mem_append.mp hb with hb | hb
  · rw [not_e_of_digit (h.whole b hb)]
    rfl
  unfold pointed at hb
  split_ifs at hb
  · cases hb
  · rcases mem_cons.mp hb with rfl | hb
    · rfl
    · rw [not_e_of_digit (h.frac b hb)]
      rfl

theorem Spelled.takeWhile (h : Spelled s negative whole frac exponent) :
    (Json.after_minus s).takeWhile (fun c => !is_e c) = whole ++ pointed frac := by
  rw [h.after_minus, ← append_assoc, takeWhile_append_of_pos h.mantissa]
  rcases h.exponent with rfl | ⟨c, t, rfl, hc⟩
  · simp
  · rw [takeWhile_cons_of_neg (by simp [hc]), append_nil]

theorem Spelled.dropWhile (h : Spelled s negative whole frac exponent) :
    (Json.after_minus s).dropWhile (fun c => !is_e c) = exponent := by
  rw [h.after_minus, ← append_assoc, dropWhile_append_of_pos h.mantissa]
  rcases h.exponent with rfl | ⟨c, t, rfl, hc⟩
  · rfl
  · rw [dropWhile_cons_of_neg (by simp [hc])]

theorem not_point_of_digits {ds : Bytes} (h : Digits ds) : ∀ b ∈ ds, decide (b ≠ 46) = true := by
  intro b hb
  rw [decide_eq_true_iff]
  rintro rfl
  exact absurd (h 46 hb) (by decide)

theorem Spelled.decimal (h : Spelled s negative whole frac exponent) :
    decimal_of s = .make negative whole frac (exponent_of exponent) := by
  have hpoint := not_point_of_digits h.whole
  have hwhole : (whole ++ pointed frac).takeWhile (· ≠ 46) = whole := by
    rw [takeWhile_append_of_pos hpoint, pointed]
    split_ifs
    · simp
    · rw [takeWhile_cons_of_neg (by simp), append_nil]
  have hfrac : ((whole ++ pointed frac).dropWhile (· ≠ 46)).drop 1 = frac := by
    rw [dropWhile_append_of_pos hpoint, pointed]
    split_ifs with hnil
    · rw [hnil]
      rfl
    · rw [dropWhile_cons_of_neg (by simp)]
      rfl
  rw [decimal_of, h.head, h.takeWhile, h.dropWhile, hwhole, hfrac]

/-! ## The pass over a text -/

theorem zero_digit_iff {b : UInt8} : zero_digit b = true ↔ b = 48 := decide_eq_true_iff

theorem fold_zeros (p : ℤ) (seen : Bool) : ∀ ds : Bytes, (∀ b ∈ ds, zero_digit b = true) →
    ds.foldl recover_step ⟨[], p, seen⟩ = ⟨[], if seen then p - ds.length else p, seen⟩
  | [], _ => by cases seen <;> simp
  | b :: ds, h => by
      have hb : b = 48 := zero_digit_iff.mp (h b (mem_cons_self ..))
      have hrest := fold_zeros (if seen then p - 1 else p) seen ds fun b hb => h b (mem_cons_of_mem _ hb)
      rw [foldl_cons, hb]
      have hstep : recover_step ⟨[], p, seen⟩ 48 = ⟨[], if seen then p - 1 else p, seen⟩ := rfl
      rw [hstep, hrest, length_cons]
      cases seen
      · rfl
      · simp only [if_pos]
        congr 1
        omega

theorem fold_digits (seen : Bool) : ∀ (ds D : Bytes) (p : ℤ), D ≠ [] → D.length ≤ DIGITS_SIZE → Digits ds →
    ds.foldl recover_step ⟨D, p, seen⟩ = ⟨(D ++ ds).take DIGITS_SIZE, if seen then p else p + ds.length, seen⟩
  | [], D, p, _, hD, _ => by
      rw [append_nil, take_of_length_le hD]
      cases seen <;> simp
  | b :: ds, D, p, hne, hD, h => by
      have hb : b ≠ 46 := by
        rintro rfl
        exact absurd (h 46 (mem_cons_self ..)) (by decide)
      have hds : Digits ds := fun b hb => h b (mem_cons_of_mem _ hb)
      have hstep : recover_step ⟨D, p, seen⟩ b =
          ⟨if D.length < DIGITS_SIZE then D ++ [b] else D, if seen then p else p + 1, seen⟩ := by
        rw [recover_step, if_neg hb, if_neg (by simp [hne])]
      rw [foldl_cons, hstep]
      by_cases hroom : D.length < DIGITS_SIZE
      · rw [if_pos hroom, fold_digits seen ds (D ++ [b]) _ (by simp)
          (by rw [length_append, length_singleton]; exact hroom) hds, append_assoc,
          cons_append, nil_append, length_cons]
        cases seen
        · congr 1
          simp only [false_eq_true, if_false]
          omega
        · rfl
      · rw [if_neg hroom, fold_digits seen ds D _ hne hD hds, length_cons]
        have hlen : D.length = DIGITS_SIZE := by omega
        rw [← hlen, take_left, take_left]
        cases seen
        · congr 1
          simp only [false_eq_true, if_false]
          omega
        · rfl

theorem fold_run {ds : Bytes} (h : Digits ds) (p : ℤ) (seen : Bool) : ds.foldl recover_step ⟨[], p, seen⟩ =
      ⟨(ds.dropWhile zero_digit).take DIGITS_SIZE,
        if seen then p - (ds.takeWhile zero_digit).length else p + (ds.dropWhile zero_digit).length, seen⟩ := by
  conv_lhs => rw [← takeWhile_append_dropWhile (p := zero_digit) (l := ds)]
  rw [foldl_append, fold_zeros p seen _ fun b hb => mem_takeWhile_imp hb]
  rcases hrest : ds.dropWhile zero_digit with _ | ⟨b, rest⟩
  · cases seen <;> simp
  have hb : ¬zero_digit b = true := by
    have hhead := head_dropWhile_not zero_digit (by rw [hrest]; exact cons_ne_nil _ _)
    simpa [hrest] using hhead
  have hmem : ∀ c ∈ b :: rest, isDigit c = true := fun c hc =>
    h c ((dropWhile_suffix zero_digit).subset (by rw [hrest]; exact hc))
  have hne : b ≠ 46 := by
    rintro rfl
    exact absurd (hmem 46 (mem_cons_self ..)) (by decide)
  have hzero : b ≠ 48 := fun heq => hb (zero_digit_iff.mpr heq)
  generalize hp : (if seen then p - ((ds.takeWhile zero_digit).length : ℤ) else p) = p'
  have hstep : recover_step ⟨[], p', seen⟩ b = ⟨[b], if seen then p' else p' + 1, seen⟩ := by
    rw [recover_step, if_neg hne, if_neg (by simp [hzero])]
    rfl
  rw [foldl_cons, hstep, fold_digits seen rest [b] _ (by simp) (by rw [length_singleton]; decide)
    fun c hc => hmem c (mem_cons_of_mem _ hc), cons_append, nil_append, length_cons, ← hp]
  cases seen
  · congr 1
    simp only [false_eq_true, if_false]
    omega
  · rfl

theorem take_take_append (n : ℕ) (s t : Bytes) : (s.take n ++ t).take n = (s ++ t).take n := by
  rw [take_append, take_append, take_take, Nat.min_self, length_take, show n - min n s.length = n - s.length by omega]

theorem fold_mantissa (hw : Digits whole) (hf : Digits frac) :
    ∃ point seen, (whole ++ pointed frac).foldl recover_step {} =
        ⟨((whole ++ frac).dropWhile zero_digit).take DIGITS_SIZE, point, seen⟩ ∧
      ((whole ++ frac).dropWhile zero_digit ≠ [] →
        point = whole.length - ((whole ++ frac).takeWhile zero_digit).length) := by
  have hlength := congrArg List.length (takeWhile_append_dropWhile (p := zero_digit) (l := whole))
  rw [length_append] at hlength
  have hfirst := fold_run hw 0 false
  rw [foldl_append, show whole.foldl recover_step {} = _ from hfirst]
  simp only [false_eq_true, if_false, zero_add]
  rcases hrest : whole.dropWhile zero_digit with _ | ⟨b, rest⟩
  · -- zeros alone before the point
    have hall : ∀ b ∈ whole, zero_digit b = true := dropWhile_eq_nil_iff.mp hrest
    rw [dropWhile_append_of_pos hall, takeWhile_append_of_pos hall, take_nil, length_nil, Nat.cast_zero]
    unfold pointed
    split_ifs with hnil
    · exact ⟨0, false, by rw [hnil]; rfl, fun hne => absurd (by rw [hnil]; rfl) hne⟩
    · have hstep : recover_step ⟨[], 0, false⟩ 46 = ⟨[], 0, true⟩ := rfl
      rw [foldl_cons, hstep, fold_run hf 0 true]
      refine ⟨_, _, rfl, fun _ => ?_⟩
      rw [if_pos rfl, length_append]
      omega
  · have hdrop : (whole ++ frac).dropWhile zero_digit = b :: rest ++ frac := by
      rw [dropWhile_append, hrest]
      rfl
    have htake : (whole ++ frac).takeWhile zero_digit = whole.takeWhile zero_digit := by
      have hsplit := takeWhile_append_dropWhile (p := zero_digit) (l := whole ++ frac)
      rw [hdrop] at hsplit
      have hsplit' := takeWhile_append_dropWhile (p := zero_digit) (l := whole)
      rw [hrest] at hsplit'
      refine append_cancel_right (?_ : _ ++ (b :: rest ++ frac) = _ ++ (b :: rest ++ frac))
      rw [hsplit, ← append_assoc, hsplit']
    rw [hdrop, htake]
    rw [hrest] at hlength
    have hpoint : ((b :: rest).length : ℤ) = whole.length - (whole.takeWhile zero_digit).length := by omega
    unfold pointed
    split_ifs with hnil
    · exact ⟨_, false, by rw [hnil, append_nil]; rfl, fun _ => hpoint⟩
    · have hstep : recover_step ⟨(b :: rest).take DIGITS_SIZE, ((b :: rest).length : ℤ), false⟩ 46 =
          ⟨(b :: rest).take DIGITS_SIZE, ((b :: rest).length : ℤ), true⟩ := rfl
      rw [foldl_cons, hstep, fold_digits true frac _ _ (by simp [DIGITS_SIZE]) (length_take_le ..) hf,
        take_take_append]
      exact ⟨_, true, rfl, fun _ => hpoint⟩

theorem trim_zeros_append {t z : Bytes} (hne : t ≠ []) (hlast : t.rdropWhile zero_digit = t)
    (hz : ∀ b ∈ z, zero_digit b = true) : trim_zeros (t ++ z) = t := by
  obtain ⟨b, w, rfl⟩ := exists_cons_of_ne_nil hne
  have hzeros : (w ++ z).rdropWhile zero_digit = w.rdropWhile zero_digit := by
    rw [rdropWhile, rdropWhile, reverse_append, dropWhile_append_of_pos]
    exact fun b hb => hz b (mem_reverse.mp hb)
  have hself : w.rdropWhile zero_digit = w := by
    rw [rdropWhile_eq_self_iff] at hlast ⊢
    intro hw
    have hend := hlast hne
    rwa [getLast_cons hw] at hend
  have htrim : trim_zeros (b :: w ++ z) = b :: (w ++ z).rdropWhile zero_digit := rfl
  rw [htrim, hzeros, hself]

theorem Spelled.recover (h : Spelled s negative whole frac exponent) (hne : (decimal_of s).digits ≠ [])
    (hlen : (decimal_of s).digits.length ≤ DIGITS_SIZE) :
    (Json.recover s).1 ≠ [] ∧ trim_zeros (Json.recover s).1 = (decimal_of s).digits ∧
      (Json.recover s).2 = (decimal_of s).point := by
  rw [h.decimal, Decimal.make] at hne hlen ⊢
  obtain ⟨point, seen, hfold, hpoint⟩ := fold_mantissa h.whole h.frac
  -- the significant digits, and the zeros after them
  have hsplit : significant (whole ++ frac) ++ ((whole ++ frac).dropWhile zero_digit).rtakeWhile zero_digit =
      (whole ++ frac).dropWhile zero_digit := rdropWhile_append_rtakeWhile
  have hzeros : ∀ b ∈ ((whole ++ frac).dropWhile zero_digit).rtakeWhile zero_digit, zero_digit b = true :=
    fun b hb => mem_rtakeWhile_imp hb
  have hall : (whole ++ frac).dropWhile zero_digit ≠ [] := by
    intro hnil
    rw [significant, hnil] at hne
    exact hne rfl
  have hdigits : (Json.recover s).1 = ((whole ++ frac).dropWhile zero_digit).take DIGITS_SIZE := by
    rw [Json.recover, h.takeWhile, hfold]
  have hkept : (Json.recover s).1 = significant (whole ++ frac) ++
      (((whole ++ frac).dropWhile zero_digit).rtakeWhile zero_digit).take
        (DIGITS_SIZE - (significant (whole ++ frac)).length) := by
    rw [hdigits]
    conv_lhs => rw [← hsplit]
    rw [take_append, take_of_length_le hlen]
  refine ⟨?_, ?_, ?_⟩
  · rw [hkept]
    exact append_ne_nil_of_left_ne_nil hne _
  · rw [hkept]
    exact trim_zeros_append hne (rdropWhile_idempotent _ _) fun b hb => hzeros b (mem_of_mem_take hb)
  · have htotal : (Json.recover s).2 = point + exponent_of exponent := by
      rw [Json.recover, h.takeWhile, h.dropWhile, hfold]
      rcases exponent with _ | ⟨c, t⟩
      · exact (add_zero _).symm
      · rfl
    rw [htotal, hpoint hall, if_neg hne]

end Cosmic.Json
