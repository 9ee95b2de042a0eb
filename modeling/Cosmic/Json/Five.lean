/-
JSON5's decimal numbers: the same as RFC 8259's but for a leading `+` and a point with no digit before
it or none after it.

`put_raw_number` writes one in RFC 8259's form, which is the same number.
-/
import Cosmic.Json.Decimal

set_option autoImplicit false

namespace Cosmic.Json

open Cosmic.Base List

/-! ## Their grammar -/

/-- A number without a plus sign. -/
def unplus : Bytes → Bytes
  | 43 :: s => s
  | s => s

def after_sign : Bytes → Bytes
  | 43 :: s => s
  | 45 :: s => s
  | s => s

/-- Whether a number has a point or an exponent, which makes it no integer. -/
def real_of (s : Bytes) : Bool := s.any fun c => c = 46 || is_e c

/-- What may follow the digits before a point: `bare` says that there are none. -/
def is_tail5 (bare : Bool) : Bytes → Bool
  | 46 :: t => !(bare && (t.takeWhile isDigit).isEmpty) && after_exponent (t.dropWhile isDigit) = some []
  | t => !bare && after_exponent t = some []

/-- Whether `s` is a decimal number as JSON5 writes one. -/
def is_decimal5 (s : Bytes) : Bool :=
  let whole := (after_sign s).takeWhile isDigit
  (whole = [48] || whole.head? ≠ some 48) && is_tail5 whole.isEmpty ((after_sign s).dropWhile isDigit)

/-- The number that a decimal number of JSON5 writes. -/
def decimal5_of (s : Bytes) : Decimal := decimal_of (unplus s)

/-- What JSON5 has numbers for besides: a hexadecimal integer, Infinity or NaN. -/
def is_other5 (s : Bytes) : Bool :=
  match after_sign s with
  | b :: t => b = 73 || b = 105 || b = 78 || b = 110 || (b = 48 && (t.head? = some 120 || t.head? = some 88))
  | [] => false

example : decimal5_of (lit "+.50") = decimal_of (lit "0.5") ∧ is_decimal5 (lit "-5.e3") = true := by decide +kernel

/-! ## Their parts -/

/-- `s` is a decimal number of JSON5, of these parts. -/
structure Five (s sign whole frac : Bytes) (point : Bool) (exponent : Bytes) : Prop where
  text : s = sign ++ (whole ++ ((if point then 46 :: frac else []) ++ exponent))
  signed : sign = [] ∨ sign = [43] ∨ sign = [45]
  digits_whole : Digits whole
  digits_frac : Digits frac
  bare : point = false → frac = []
  ne : whole ≠ [] ∨ frac ≠ []
  ending : exponent = [] ∨ ∃ c t, exponent = c :: t ∧ is_e c = true
  no_point : ∀ b ∈ exponent, b ≠ 46

theorem after_exponent_bytes {s : Bytes} (h : after_exponent s = some []) :
    ∀ b ∈ s, is_e b = true ∨ b = 43 ∨ b = 45 ∨ isDigit b = true := by
  have hdigits {t : Bytes} (ht : after_digits t = some []) :
      ∀ b ∈ t, is_e b = true ∨ b = 43 ∨ b = 45 ∨ isDigit b = true := by
    obtain ⟨ds, rfl, -, hds⟩ := after_digits_parts ht
    rw [append_nil]
    exact fun b hb => .inr (.inr (.inr (hds b hb)))
  rcases s with _ | ⟨c, s⟩
  · exact nofun
  obtain ⟨c', t, heq, hc⟩ := (after_exponent_parts h).resolve_left (cons_ne_nil _ _)
  obtain ⟨rfl, rfl⟩ := List.cons.inj heq
  unfold after_exponent at h
  dsimp only at h
  rw [if_pos hc] at h
  rw [forall_mem_cons]
  refine ⟨.inl hc, ?_⟩
  split at h
  · rw [forall_mem_cons]
    exact ⟨.inr (.inl rfl), hdigits h⟩
  · rw [forall_mem_cons]
    exact ⟨.inr (.inr (.inl rfl)), hdigits h⟩
  · exact hdigits h

theorem after_exponent_no_point {s : Bytes} (h : after_exponent s = some []) : ∀ b ∈ s, b ≠ 46 := by
  rintro b hb rfl
  exact absurd (after_exponent_bytes h 46 hb) (by decide)

theorem after_sign_parts (s : Bytes) :
    ∃ sign, s = sign ++ after_sign s ∧ (sign = [] ∨ sign = [43] ∨ sign = [45]) := by
  unfold after_sign
  split
  · exact ⟨[43], rfl, .inr (.inl rfl)⟩
  · exact ⟨[45], rfl, .inr (.inr rfl)⟩
  · exact ⟨[], rfl, .inl rfl⟩

theorem five_of_decimal5 {s : Bytes} (h : is_decimal5 s = true) :
    ∃ sign whole frac point exponent, Five s sign whole frac point exponent := by
  obtain ⟨sign, hsign, hwhich⟩ := after_sign_parts s
  unfold is_decimal5 at h
  rw [Bool.and_eq_true] at h
  obtain ⟨-, htail⟩ := h
  have hparts : after_sign s = (after_sign s).takeWhile isDigit ++ (after_sign s).dropWhile isDigit :=
    takeWhile_append_dropWhile.symm
  have hempty (t : Bytes) : t.isEmpty = false ↔ t ≠ [] := by cases t <;> simp
  unfold is_tail5 at htail
  split at htail
  · rename_i t ht
    rw [Bool.and_eq_true, Bool.not_eq_true', Bool.and_eq_false_iff, hempty, hempty, decide_eq_true_iff] at htail
    refine ⟨sign, _, t.takeWhile isDigit, true, t.dropWhile isDigit, ?_, hwhich, digits_takeWhile _, digits_takeWhile _,
      nofun, htail.1, after_exponent_parts htail.2, after_exponent_no_point htail.2⟩
    rwa [if_pos rfl, cons_append, takeWhile_append_dropWhile, ← ht, ← hparts]
  · rw [Bool.and_eq_true, Bool.not_eq_true', hempty, decide_eq_true_iff] at htail
    refine ⟨sign, _, [], false, (after_sign s).dropWhile isDigit, ?_, hwhich, digits_takeWhile _, by simp [Digits],
      fun _ => rfl, .inl htail.1, after_exponent_parts htail.2, after_exponent_no_point htail.2⟩
    rwa [if_neg Bool.false_ne_true, nil_append, ← hparts]

variable {s sign whole frac exponent : Bytes} {point : Bool}

/-- The parts without the sign. -/
def body (whole frac : Bytes) (point : Bool) (exponent : Bytes) : Bytes :=
  whole ++ ((if point then 46 :: frac else []) ++ exponent)

theorem Five.body_head (h : Five s sign whole frac point exponent) :
    ∃ b t, body whole frac point exponent = b :: t ∧ (isDigit b = true ∨ b = 46) := by
  unfold body
  rcases whole with _ | ⟨b, w⟩
  · have hfrac : frac ≠ [] := h.ne.resolve_left fun hne => hne rfl
    have hpoint : point = true := by
      rw [← Bool.not_eq_false]
      exact fun hbare => hfrac (h.bare hbare)
    exact ⟨46, _, by rw [hpoint, if_pos rfl, nil_append, cons_append], .inr rfl⟩
  · exact ⟨b, _, rfl, .inl (h.digits_whole b (mem_cons_self ..))⟩

theorem Five.body_ne (h : Five s sign whole frac point exponent) {c : UInt8} (hc : c = 43 ∨ c = 45) (t : Bytes) :
    body whole frac point exponent ≠ c :: t := by
  obtain ⟨b, u, hbody, hb⟩ := h.body_head
  rw [hbody]
  intro heq
  obtain ⟨rfl, -⟩ := List.cons.inj heq
  rcases hc with rfl | rfl
  · exact absurd hb (by decide)
  · exact absurd hb (by decide)

theorem Five.unplus (h : Five s sign whole frac point exponent) :
    unplus s = (if sign = [45] then [45] else []) ++ body whole frac point exponent := by
  rw [h.text]
  rcases h.signed with rfl | rfl | rfl
  · rw [nil_append]
    unfold Json.unplus
    split
    · rename_i t heq
      exact absurd heq (h.body_ne (.inl rfl) t)
    · rfl
  · rfl
  · rfl

theorem Five.after_minus (h : Five s sign whole frac point exponent) :
    after_minus ((if sign = [45] then [45] else []) ++ body whole frac point exponent) =
      body whole frac point exponent := by
  by_cases hminus : sign = [45]
  · rw [if_pos hminus]
    rfl
  rw [if_neg hminus, nil_append]
  unfold Json.after_minus
  split
  · rename_i t heq
    exact absurd heq (h.body_ne (.inr rfl) t)
  · rfl

theorem Five.mantissa (h : Five s sign whole frac point exponent) :
    ∀ b ∈ whole ++ (if point then 46 :: frac else []), (fun c => !is_e c) b = true := by
  intro b hb
  dsimp only
  rcases mem_append.mp hb with hb | hb
  · rw [not_e_of_digit (h.digits_whole b hb)]
    rfl
  split_ifs at hb
  · rcases mem_cons.mp hb with rfl | hb
    · rfl
    · rw [not_e_of_digit (h.digits_frac b hb)]
      rfl
  · cases hb

theorem Five.decimal (h : Five s sign whole frac point exponent) :
    decimal5_of s = .make (sign = [45]) whole frac (exponent_of exponent) := by
  have hsplit : body whole frac point exponent = whole ++ (if point then 46 :: frac else []) ++ exponent := by
    rw [body, append_assoc]
  have htake : (body whole frac point exponent).takeWhile (fun c => !is_e c) =
      whole ++ (if point then 46 :: frac else []) := by
    rw [hsplit, takeWhile_append_of_pos h.mantissa]
    rcases h.ending with rfl | ⟨c, t, rfl, hc⟩
    · simp
    · rw [takeWhile_cons_of_neg (by simp [hc]), append_nil]
  have hdrop : (body whole frac point exponent).dropWhile (fun c => !is_e c) = exponent := by
    rw [hsplit, dropWhile_append_of_pos h.mantissa]
    rcases h.ending with rfl | ⟨c, t, rfl, hc⟩
    · rfl
    · rw [dropWhile_cons_of_neg (by simp [hc])]
  have hpoint := not_point_of_digits h.digits_whole
  have hwhole : (whole ++ (if point then 46 :: frac else [])).takeWhile (· ≠ 46) = whole := by
    rw [takeWhile_append_of_pos hpoint]
    split_ifs
    · rw [takeWhile_cons_of_neg (by simp), append_nil]
    · simp
  have hfrac : ((whole ++ (if point then 46 :: frac else [])).dropWhile (· ≠ 46)).drop 1 = frac := by
    rw [dropWhile_append_of_pos hpoint]
    split_ifs with hhas
    · rw [dropWhile_cons_of_neg (by simp)]
      rfl
    · rw [Bool.not_eq_true] at hhas
      rw [h.bare hhas]
      rfl
  have hhead : decide (((if sign = [45] then [45] else []) ++ body whole frac point exponent).head? = some 45) =
      decide (sign = [45]) := by
    by_cases hminus : sign = [45]
    · rw [if_pos hminus]
      simp [hminus]
    obtain ⟨b, t, hbody, -⟩ := h.body_head
    have hb : b ≠ 45 := by
      rintro rfl
      exact h.body_ne (.inr rfl) t hbody
    rw [if_neg hminus, nil_append, hbody, head?_cons, decide_eq_decide, Option.some_inj]
    exact iff_of_false hb hminus
  rw [decimal5_of, h.unplus, decimal_of, h.after_minus, htake, hdrop, hwhole, hfrac, hhead]

theorem Five.real (h : Five s sign whole frac point exponent) : real_of s = (point || !exponent.isEmpty) := by
  have hdigits {ds : Bytes} (hds : Digits ds) : ds.any (fun c => decide (c = 46) || is_e c) = false := by
    rw [any_eq_false]
    intro b hb
    rw [not_e_of_digit (hds b hb), Bool.or_false]
    exact fun hb' => by simpa [hb'] using not_point_of_digits hds b hb
  have hsign : sign.any (fun c => decide (c = 46) || is_e c) = false := by
    rcases h.signed with rfl | rfl | rfl <;> decide
  have hexponent : exponent.any (fun c => decide (c = 46) || is_e c) = !exponent.isEmpty := by
    rcases h.ending with rfl | ⟨c, t, rfl, hc⟩
    · rfl
    · rw [any_cons, hc, Bool.or_true, Bool.true_or]
      rfl
  rw [real_of, h.text, any_append, any_append, any_append, hsign, hdigits h.digits_whole, hexponent,
    Bool.false_or, Bool.false_or]
  congr 1
  cases point with
  | true => rw [if_pos rfl, any_cons]; rfl
  | false => rfl

/-! ## As RFC 8259 writes them -/

/-- A number as `put_raw_number` spells it out. -/
def respell (s : Bytes) : Bytes := (raw_sign s).1 ++ raw_digits (raw_sign s).2

theorem make_zeros (negative : Bool) (e : ℤ) :
    Decimal.make negative (if whole = [] then [48] else whole) frac e = .make negative whole frac e := by
  split_ifs with hwhole
  · have hsame : significant ([48] ++ frac) = significant frac := rfl
    rw [hwhole, Decimal.make, Decimal.make, nil_append, hsame]
    have htake : ([48] ++ frac).takeWhile zero_digit = 48 :: frac.takeWhile zero_digit := rfl
    rw [htake, length_singleton, length_cons, length_nil]
    congr 2
    push_cast
    ring
  · rfl

theorem make_zero_end (negative : Bool) (e : ℤ) : Decimal.make negative whole [48] e = .make negative whole [] e := by
  have hzero : zero_digit 48 = true := rfl
  rw [Decimal.make, Decimal.make, append_nil]
  by_cases hall : ∀ b ∈ whole, zero_digit b = true
  · have hdrop : whole.dropWhile zero_digit = [] := dropWhile_eq_nil_iff.mpr hall
    have hsame : significant (whole ++ [48]) = significant whole := by
      rw [significant, significant, hdrop, dropWhile_append_of_pos hall]
      rfl
    have hnil : significant whole = [] := by rw [significant, hdrop]; rfl
    rw [hsame, if_pos hnil, if_pos hnil]
  · have hdrop : (whole ++ [48]).dropWhile zero_digit = whole.dropWhile zero_digit ++ [48] := by
      rw [dropWhile_append, if_neg]
      rwa [List.isEmpty_iff, dropWhile_eq_nil_iff]
    have htake : (whole ++ [48]).takeWhile zero_digit = whole.takeWhile zero_digit := by
      rw [takeWhile_append, if_neg]
      intro hlen
      refine hall fun b hb => ?_
      rw [← (List.takeWhile_prefix zero_digit).eq_of_length hlen] at hb
      exact mem_takeWhile_imp hb
    have hsame : significant (whole ++ [48]) = significant whole := by
      rw [significant, significant, hdrop, rdropWhile_concat_pos _ _ _ hzero]
    rw [hsame, htake]

theorem Five.raw_sign (h : Five s sign whole frac point exponent) :
    raw_sign s = (if sign = [45] then [45] else [], body whole frac point exponent) := by
  rw [h.text]
  rcases h.signed with rfl | rfl | rfl
  · rw [nil_append]
    unfold Json.raw_sign
    split
    · rename_i t heq
      exact absurd heq (h.body_ne (.inl rfl) t)
    · rename_i t heq
      exact absurd heq (h.body_ne (.inr rfl) t)
    · rfl
  · rfl
  · rfl

theorem Five.raw_digits (h : Five s sign whole frac point exponent) : raw_digits (body whole frac point exponent) =
      body (if whole = [] then [48] else whole) (if point && frac.isEmpty then [48] else frac) point exponent := by
  have hpoint := not_point_of_digits h.digits_whole
  have hhead : (body whole frac point exponent).head? = some 46 ↔ whole = [] := by
    obtain ⟨b, t, hbody, hb⟩ := h.body_head
    rw [hbody, head?_cons, Option.some_inj]
    rcases whole with _ | ⟨c, w⟩
    · have hdot : body [] frac point exponent = 46 :: (frac ++ exponent) := by
        rw [body, nil_append, if_pos, cons_append]
        rw [← Bool.not_eq_false]
        exact fun hbare => h.ne.elim (fun hne => hne rfl) fun hne => hne (h.bare hbare)
      rw [hdot] at hbody
      exact iff_of_true (List.cons.inj hbody).1.symm rfl
    · obtain ⟨rfl, -⟩ := List.cons.inj (show c :: (w ++ _) = b :: t from hbody)
      exact iff_of_false (of_decide_eq_true (hpoint c (mem_cons_self ..))) (cons_ne_nil _ _)
  unfold Json.raw_digits
  simp only [hhead]
  cases point with
  | false =>
    -- no point: the digits stand as they are
    have hfrac := h.bare rfl
    have hwhole : whole ≠ [] := h.ne.resolve_right fun hne => hne hfrac
    have hdrop : (body whole frac false exponent).dropWhile (· ≠ 46) = [] := by
      rw [dropWhile_eq_nil_iff, body, if_neg Bool.false_ne_true, nil_append]
      intro b hb
      rcases mem_append.mp hb with hb | hb
      · exact hpoint b hb
      · exact decide_eq_true (h.no_point b hb)
    rw [hdrop, if_neg hwhole, if_neg hwhole]
    rfl
  | true =>
    have hbody : body whole frac true exponent = whole ++ 46 :: (frac ++ exponent) := rfl
    have htake : (body whole frac true exponent).takeWhile (· ≠ 46) = whole := by
      rw [hbody, takeWhile_append_of_pos hpoint, takeWhile_cons_of_neg (by simp), append_nil]
    have hdrop : (body whole frac true exponent).dropWhile (· ≠ 46) = 46 :: (frac ++ exponent) := by
      rw [hbody, dropWhile_append_of_pos hpoint, dropWhile_cons_of_neg (by simp)]
    rw [htake, hdrop]
    rcases frac with _ | ⟨c, f⟩
    · have hwhole : whole ≠ [] := h.ne.resolve_right fun hne => hne rfl
      have hends : (([] ++ exponent = [] : Bool) || ([] ++ exponent).head? = some 101
          || ([] ++ exponent).head? = some 69) = true := by
        rcases h.ending with rfl | ⟨c, t, rfl, hc⟩
        · rfl
        · rcases Bool.or_eq_true_iff.mp hc with hc | hc
          · rw [of_decide_eq_true hc]
            rfl
          · rw [of_decide_eq_true hc]
            rfl
      refine Eq.trans (if_pos hends) ?_
      rw [if_neg hwhole, if_neg hwhole]
      simp [body, lit]
    · have hc := h.digits_frac c (mem_cons_self ..)
      have hgoes : ¬((c :: f ++ exponent = [] : Bool) || (c :: f ++ exponent).head? = some 101
          || (c :: f ++ exponent).head? = some 69) = true := by
        have he : c ≠ 101 ∧ c ≠ 69 := by
          constructor
          · rintro rfl
            cases hc
          · rintro rfl
            cases hc
        simp [he.1, he.2]
      refine Eq.trans (if_neg hgoes) ?_
      have hfrac : ¬(true && (c :: f).isEmpty) = true := Bool.false_ne_true
      rw [if_neg hfrac]
      by_cases hwhole : whole = []
      · rw [if_pos hwhole, if_pos hwhole, hwhole]
        rfl
      · rw [if_neg hwhole, if_neg hwhole, nil_append]

theorem Five.respelled (h : Five s sign whole frac point exponent) :
    Five (respell s) (if sign = [45] then [45] else []) (if whole = [] then [48] else whole)
      (if point && frac.isEmpty then [48] else frac) point exponent := by
  constructor
  · rw [respell, h.raw_sign, h.raw_digits]
    rfl
  · split_ifs
    · exact .inr (.inr rfl)
    · exact .inl rfl
  · split_ifs
    · exact fun b hb => by rw [mem_singleton.mp hb]; rfl
    · exact h.digits_whole
  · split_ifs
    · exact fun b hb => by rw [mem_singleton.mp hb]; rfl
    · exact h.digits_frac
  · rintro rfl
    rw [if_neg (by simp)]
    exact h.bare rfl
  · left
    split_ifs with hwhole
    · exact cons_ne_nil _ _
    · exact hwhole
  · exact h.ending
  · exact h.no_point

/-- Spelled out it is the same number. -/
theorem decimal5_respell (h : is_decimal5 s = true) : decimal5_of (respell s) = decimal5_of s := by
  obtain ⟨sign, whole, frac, point, exponent, hfive⟩ := five_of_decimal5 h
  have hsign : decide ((if sign = [45] then [45] else []) = ([45] : Bytes)) = decide (sign = [45]) := by
    by_cases hminus : sign = [45]
    · rw [if_pos hminus, hminus]
    · rw [if_neg hminus]
      simp [hminus]
  rw [hfive.respelled.decimal, hfive.decimal, hsign, make_zeros]
  split_ifs with hfrac
  · rw [Bool.and_eq_true, List.isEmpty_iff] at hfrac
    rw [hfrac.2, make_zero_end]
  · rfl

theorem real_respell (h : is_decimal5 s = true) : real_of (respell s) = real_of s := by
  obtain ⟨sign, whole, frac, point, exponent, hfive⟩ := five_of_decimal5 h
  rw [hfive.respelled.real, hfive.real]

/-! ## Other numbers -/

theorem not_json_of_head {b : UInt8} {t : Bytes} (negative : Bool) (hb : isDigit b = false) (hminus : b ≠ 45) :
    is_json_number ((if negative then [45] else []) ++ b :: t) = false := by
  have hafter : after_minus ((if negative then [45] else []) ++ b :: t) = b :: t := by
    cases negative with
    | true => rfl
    | false =>
      unfold after_minus
      split
      · rename_i heq
        exact absurd (List.cons.inj heq).1 hminus
      · rfl
  have hzero : b ≠ 48 := by
    rintro rfl
    cases hb
  have hnonzero : ¬(49 ≤ b && b ≤ 57) = true := fun h => by
    rw [digit_of_nonzero h] at hb
    exact Bool.false_ne_true hb.symm
  rw [is_json_number, hafter, after_integral, if_neg hzero, if_neg hnonzero]
  rfl

theorem not_json_of_hex {x : UInt8} {t : Bytes} (negative : Bool) (hx : x = 120 ∨ x = 88) :
    is_json_number ((if negative then [45] else []) ++ 48 :: x :: t) = false := by
  rcases hx with rfl | rfl <;> cases negative <;> rfl

theorem other5_parts (h : is_other5 s = true) : ∃ sign b t, s = sign ++ b :: t ∧
    (sign = [] ∨ sign = [43] ∨ sign = [45]) ∧ (b = 73 ∨ b = 105 ∨ b = 78 ∨ b = 110 ∨
      b = 48 ∧ ∃ x u, t = x :: u ∧ (x = 120 ∨ x = 88)) := by
  obtain ⟨sign, hs, hsign⟩ := after_sign_parts s
  unfold is_other5 at h
  split at h
  · rename_i b t hafter
    refine ⟨sign, b, t, by rw [← hafter]; exact hs, hsign, ?_⟩
    simp only [Bool.or_eq_true, Bool.and_eq_true, decide_eq_true_iff, head?_eq_some_iff] at h
    rcases h with (((h | h) | h) | h) | ⟨hb, ⟨u, hu⟩ | ⟨u, hu⟩⟩
    · exact .inl h
    · exact .inr (.inl h)
    · exact .inr (.inr (.inl h))
    · exact .inr (.inr (.inr (.inl h)))
    · exact .inr (.inr (.inr (.inr ⟨hb, 120, u, hu, .inl rfl⟩)))
    · exact .inr (.inr (.inr (.inr ⟨hb, 88, u, hu, .inr rfl⟩)))
  · exact absurd h Bool.false_ne_true

theorem raw_digits_head {b : UInt8} (hb : b ≠ 46) (t : Bytes) : ∃ u, raw_digits (b :: t) = b :: u := by
  have htake : (b :: t).takeWhile (fun c => decide (c ≠ 46)) = b :: t.takeWhile fun c => decide (c ≠ 46) :=
    takeWhile_cons_of_pos (by simpa using hb)
  unfold raw_digits
  rw [head?_cons, if_neg (fun h => hb (Option.some.inj h)), htake]
  split
  · split_ifs
    · exact ⟨_, rfl⟩
    · exact ⟨_, rfl⟩
  · exact ⟨_, rfl⟩

theorem raw_digits_hex {x : UInt8} (hx : x = 120 ∨ x = 88) (t : Bytes) :
    ∃ u, raw_digits (48 :: x :: t) = 48 :: x :: u := by
  have htake : (48 :: x :: t).takeWhile (fun c => decide (c ≠ 46)) =
      48 :: x :: t.takeWhile fun c => decide (c ≠ 46) := by
    rcases hx with rfl | rfl <;> rfl
  unfold raw_digits
  rw [head?_cons, if_neg (by decide), htake]
  split
  · split_ifs
    · exact ⟨_, rfl⟩
    · exact ⟨_, rfl⟩
  · exact ⟨_, rfl⟩

/-- RFC 8259 has no text for another number, nor is it one spelled out. -/
theorem not_json_of_other5 (h : is_other5 s = true) :
    is_json_number s = false ∧ is_json_number (respell s) = false := by
  obtain ⟨sign, b, t, rfl, hsign, hb⟩ := other5_parts h
  have hne : b ≠ 43 ∧ b ≠ 45 ∧ b ≠ 46 := by
    rcases hb with rfl | rfl | rfl | rfl | ⟨rfl, -⟩ <;> decide
  have hwords : ∀ (negative : Bool) (u : Bytes), (b = 48 → ∃ x v, u = x :: v ∧ (x = 120 ∨ x = 88)) →
      is_json_number ((if negative then [45] else []) ++ b :: u) = false := by
    intro negative u hu
    rcases hb with rfl | rfl | rfl | rfl | ⟨rfl, -⟩
    · exact not_json_of_head negative rfl hne.2.1
    · exact not_json_of_head negative rfl hne.2.1
    · exact not_json_of_head negative rfl hne.2.1
    · exact not_json_of_head negative rfl hne.2.1
    · obtain ⟨x, v, rfl, hx⟩ := hu rfl
      exact not_json_of_hex negative hx
  have ht : b = 48 → ∃ x v, t = x :: v ∧ (x = 120 ∨ x = 88) := by
    rintro rfl
    rcases hb with hb | hb | hb | hb | ⟨-, hx⟩
    · cases hb
    · cases hb
    · cases hb
    · cases hb
    · exact hx
  have hdigits : ∃ u, raw_digits (b :: t) = b :: u ∧ (b = 48 → ∃ x v, u = x :: v ∧ (x = 120 ∨ x = 88)) := by
    by_cases hzero : b = 48
    · obtain ⟨x, v, rfl, hx⟩ := ht hzero
      subst hzero
      obtain ⟨u, hu⟩ := raw_digits_hex hx v
      exact ⟨x :: u, hu, fun _ => ⟨x, u, rfl, hx⟩⟩
    · obtain ⟨u, hu⟩ := raw_digits_head hne.2.2 t
      exact ⟨u, hu, fun h => absurd h hzero⟩
  obtain ⟨u, hu, hhex⟩ := hdigits
  have hbare : raw_sign (b :: t) = ([], b :: t) := by
    unfold raw_sign
    split
    · rename_i heq
      exact absurd (List.cons.inj heq).1 hne.1
    · rename_i heq
      exact absurd (List.cons.inj heq).1 hne.2.1
    · rfl
  rcases hsign with rfl | rfl | rfl
  · refine ⟨hwords false t ht, ?_⟩
    rw [nil_append, respell, hbare, hu]
    exact hwords false u hhex
  · refine ⟨not_json_of_head false rfl (by decide), ?_⟩
    show is_json_number ([] ++ raw_digits (b :: t)) = false
    rw [hu]
    exact hwords false u hhex
  · refine ⟨hwords true t ht, ?_⟩
    show is_json_number ([45] ++ raw_digits (b :: t)) = false
    rw [hu]
    exact hwords true u hhex

end Cosmic.Json
