/-
ECMAScript's Number.prototype.toString, from a number's digits; and that `put_canonical_number` writes
the same.

What is written is a text of RFC 8259 again, and it writes the number it was written of.
-/
import Cosmic.Json.Decimal
import Cosmic.Json.Format

set_option autoImplicit false

namespace Cosmic.Json

open Cosmic.Base List Option Bool

/-- `k` zeros. -/
def zeros (k : ℕ) : Bytes := List.replicate k 48

/-- Number.prototype.toString of a number that is not zero: `k` digits, and `n` the power of ten that the
point stands at. -/
def number_to_string (d : Decimal) : Bytes :=
  let k : ℤ := d.digits.length
  let n := d.point
  let e := n - 1
  let exponent := [101, if e < 0 then 45 else 43] ++ tostring e.natAbs
  (if d.negative then [45] else []) ++
    if k ≤ n ∧ n ≤ 21 then d.digits ++ zeros (n - k).toNat
    else if 0 < n ∧ n ≤ 21 then d.digits.take n.toNat ++ 46 :: d.digits.drop n.toNat
    else if -6 < n ∧ n ≤ 0 then 48 :: 46 :: (zeros (-n).toNat ++ d.digits)
    else if k = 1 then d.digits ++ exponent
    else d.digits.take 1 ++ 46 :: d.digits.drop 1 ++ exponent

/-- A number that is not zero, its digits the significant ones. -/
structure Normal (d : Decimal) : Prop where
  ne : d.digits ≠ []
  digits : Digits d.digits
  first : d.digits.dropWhile zero_digit = d.digits
  last : d.digits.rdropWhile zero_digit = d.digits

theorem lay_out_eq {d : Decimal} (h : d.digits ≠ []) :
    (if d.negative then [45] else []) ++ lay_out d.digits d.point = number_to_string d := by
  have hpos : 0 < d.digits.length := length_pos_iff.mpr h
  unfold lay_out number_to_string zeros
  congr 1
  simp only [and_eq_true, decide_eq_true_iff, ge_iff_le, gt_iff_lt]
  by_cases hwhole : (d.digits.length : ℤ) ≤ d.point ∧ d.point ≤ 21
  · rw [if_pos hwhole, if_pos hwhole]
    congr 2
    omega
  rw [if_neg hwhole, if_neg hwhole]
  by_cases hinside : 0 < d.point ∧ d.point ≤ 21
  · rw [if_pos hinside, if_pos hinside, append_assoc]
    rfl
  rw [if_neg hinside, if_neg hinside]
  by_cases hbefore : -6 < d.point ∧ d.point ≤ 0
  · rw [if_pos hbefore, if_pos hbefore]
    rfl
  rw [if_neg hbefore, if_neg hbefore]
  by_cases hone : d.digits.length = 1
  · have hnot : ¬1 < d.digits.length := by omega
    have hcast : (d.digits.length : ℤ) = 1 := by omega
    rw [if_neg hnot, if_pos hcast, append_nil, take_of_length_le (le_of_eq hone), append_assoc]
  · have hmany : 1 < d.digits.length := by omega
    have hcast : ¬(d.digits.length : ℤ) = 1 := by omega
    rw [if_pos hmany, if_neg hcast, append_assoc]

/-! ## The text read back -/

theorem atoi_tostring (e : ℤ) : atoi ((if e < 0 then 45 else 43) :: tostring e.natAbs) = e := by
  have htake : (tostring e.natAbs).takeWhile isDigit = tostring e.natAbs :=
    takeWhile_eq_self_iff.mpr fun _ hb => isDigit_of_mem_tostring hb
  split_ifs with he
  · rw [atoi, htake, digits_value_tostring]
    omega
  · rw [atoi, htake, digits_value_tostring]
    omega

/-- An exponent, as a number's text ends in one. -/
def Exponent (exponent : Bytes) (e : ℤ) : Prop :=
  (exponent = [] ∧ e = 0) ∨
    ∃ sign t, exponent = 101 :: sign :: t ∧ (sign = 43 ∨ sign = 45) ∧ t ≠ [] ∧ Digits t ∧ exponent_of exponent = e

theorem exponent_tostring (e : ℤ) : Exponent ([101, if e < 0 then 45 else 43] ++ tostring e.natAbs) e := by
  right
  refine ⟨if e < 0 then 45 else 43, tostring e.natAbs, rfl, ?_, tostring_ne_nil _,
    fun b hb => isDigit_of_mem_tostring hb, atoi_tostring e⟩
  split_ifs
  · exact .inr rfl
  · exact .inl rfl

theorem after_digits_eq {ds t : Bytes} (hne : ds ≠ []) (hds : Digits ds) (ht : t.head?.all fun b => !isDigit b) :
    after_digits (ds ++ t) = some t := by
  have htake : (ds ++ t).takeWhile isDigit = ds := by
    rw [takeWhile_append_of_pos hds]
    rcases t with _ | ⟨b, t⟩
    · simp
    · rw [head?_cons, all_some, not_eq_true'] at ht
      rw [takeWhile_cons_of_neg (by simp [ht]), append_nil]
  have hdrop : (ds ++ t).dropWhile isDigit = t := by
    rw [dropWhile_append_of_pos hds]
    rcases t with _ | ⟨b, t⟩
    · rfl
    · rw [head?_cons, all_some, not_eq_true'] at ht
      rw [dropWhile_cons_of_neg (by simp [ht])]
  unfold after_digits
  rw [htake, hdrop, if_neg]
  simpa using hne

theorem number_of_parts {negative : Bool} {whole frac exponent : Bytes} {e : ℤ} (hne : whole ≠ [])
    (hw : Digits whole) (hlead : whole = [48] ∨ whole.head? ≠ some 48) (hf : Digits frac) (he : Exponent exponent e) :
    is_json_number ((if negative then [45] else []) ++ (whole ++ (pointed frac ++ exponent))) = true := by
  obtain ⟨b, w, rfl⟩ := exists_cons_of_ne_nil hne
  have hb : isDigit b = true := hw b (mem_cons_self ..)
  have hminus : after_minus ((if negative then [45] else []) ++ (b :: w ++ (pointed frac ++ exponent))) =
      b :: w ++ (pointed frac ++ exponent) := by
    cases negative with
    | true => rfl
    | false =>
      rw [if_neg (by decide), nil_append, cons_append]
      exact after_minus_digit hb
  -- neither a point nor an exponent's letter goes on with the digits before it
  have hexponent : exponent.head?.all (fun b => !isDigit b) = true := by
    rcases he with ⟨rfl, -⟩ | ⟨sign, t, rfl, -⟩
    · rfl
    · rfl
  have hpointed : (pointed frac ++ exponent).head?.all (fun b => !isDigit b) = true := by
    unfold pointed
    split_ifs
    · exact hexponent
    · rfl
  have hintegral : after_integral (b :: w ++ (pointed frac ++ exponent)) = some (pointed frac ++ exponent) := by
    rw [cons_append, after_integral]
    by_cases hzero : b = 48
    · rcases hlead with hlead | hlead
      · rw [if_pos hzero, (List.cons.inj hlead).2, nil_append]
      · exact absurd (by rw [hzero]; rfl) hlead
    have hnonzero : (49 ≤ b && b ≤ 57) = true := by
      have hall : ∀ n < 256, isDigit (UInt8.ofNat n) = true → UInt8.ofNat n ≠ 48 →
          (49 ≤ UInt8.ofNat n && UInt8.ofNat n ≤ 57) = true := by decide +kernel
      have hone := hall b.toNat b.toNat_lt
      rw [UInt8.ofNat_toNat] at hone
      exact hone hb hzero
    have hdigits := after_digits_eq hne hw hpointed
    unfold after_digits at hdigits
    rw [if_neg hzero, if_pos hnonzero]
    have hdrop : (b :: w ++ (pointed frac ++ exponent)).dropWhile isDigit = pointed frac ++ exponent := by
      split_ifs at hdigits
      exact some.inj hdigits
    rwa [cons_append, dropWhile_cons_of_pos hb, ← some_inj] at hdrop
  have hfraction : after_fraction (pointed frac ++ exponent) = some exponent := by
    unfold pointed
    split_ifs with hnil
    · rw [nil_append]
      rcases he with ⟨rfl, -⟩ | ⟨sign, t, rfl, -⟩
      · rfl
      · rfl
    · exact after_digits_eq hnil hf hexponent
  have hend : after_exponent exponent = some [] := by
    rcases he with ⟨rfl, -⟩ | ⟨sign, t, rfl, hsign, ht, hdigits, -⟩
    · rfl
    · have hall := after_digits_eq (t := []) ht hdigits rfl
      rw [append_nil] at hall
      rcases hsign with rfl | rfl
      · exact hall
      · exact hall
  rw [is_json_number, decide_eq_true_iff, hminus, hintegral, bind_some, hfraction, bind_some, hend]

theorem zeros_all (k : ℕ) : ∀ b ∈ zeros k, zero_digit b = true := fun _ hb =>
  zero_digit_iff.mpr (eq_of_mem_replicate hb)

theorem digits_zeros (k : ℕ) : Digits (zeros k) := by
  intro b hb
  rw [eq_of_mem_replicate hb]
  rfl

theorem Digits.append {s t : Bytes} (hs : Digits s) (ht : Digits t) : Digits (s ++ t) := by
  intro b hb
  rcases mem_append.mp hb with hb | hb
  · exact hs b hb
  · exact ht b hb

variable {d : Decimal}

theorem Normal.head (h : Normal d) : ∃ b t, d.digits = b :: t ∧ zero_digit b = false := by
  obtain ⟨b, t, hd⟩ := exists_cons_of_ne_nil h.ne
  refine ⟨b, t, hd, ?_⟩
  by_contra hb
  rw [not_eq_false] at hb
  have hlength := congrArg List.length h.first
  rw [hd, dropWhile_cons_of_pos hb, length_cons] at hlength
  have hle := (dropWhile_suffix zero_digit (l := t)).length_le
  omega

theorem Normal.significant (h : Normal d) (j k : ℕ) : significant (zeros j ++ (d.digits ++ zeros k)) = d.digits ∧
    ((zeros j ++ (d.digits ++ zeros k)).takeWhile zero_digit).length = j := by
  obtain ⟨b, t, hd, hb⟩ := h.head
  have hnot : ¬zero_digit b = true := by rw [hb]; exact Bool.false_ne_true
  constructor
  · rw [Json.significant, dropWhile_append_of_pos (zeros_all j), hd, cons_append,
      dropWhile_cons_of_neg hnot, ← cons_append, ← hd]
    rw [rdropWhile, reverse_append, dropWhile_append_of_pos]
    · exact h.last
    · exact fun c hc => zeros_all k c (mem_reverse.mp hc)
  · rw [takeWhile_append_of_pos (zeros_all j), hd, cons_append, takeWhile_cons_of_neg hnot, append_nil]
    exact length_replicate ..

theorem Normal.make (h : Normal d) {whole frac : Bytes} {e : ℤ} (j k : ℕ)
    (hall : whole ++ frac = zeros j ++ (d.digits ++ zeros k)) (hpoint : whole.length - (j : ℤ) + e = d.point) :
    Decimal.make d.negative whole frac e = d := by
  obtain ⟨hdigits, hzeros⟩ := h.significant j k
  rw [Decimal.make, hall, hdigits, hzeros, if_neg h.ne, hpoint]

/-- A number's text in its parts, which make the number again. -/
structure LaidOut (d : Decimal) (whole frac exponent : Bytes) (e : ℤ) : Prop where
  text : number_to_string d = (if d.negative then [45] else []) ++ (whole ++ (pointed frac ++ exponent))
  ne : whole ≠ []
  digits_whole : Digits whole
  lead : whole = [48] ∨ whole.head? ≠ some 48
  digits_frac : Digits frac
  ending : Exponent exponent e
  make : Decimal.make d.negative whole frac e = d

theorem Normal.head_ne (h : Normal d) : d.digits.head? ≠ some 48 := by
  obtain ⟨b, t, hd, hb⟩ := h.head
  rw [hd, head?_cons]
  rintro heq
  rw [some.inj heq] at hb
  cases hb

theorem Normal.take (h : Normal d) (n : ℕ) : Digits (d.digits.take n) := fun c hc =>
  h.digits c (mem_of_mem_take hc)

theorem Normal.drop (h : Normal d) (n : ℕ) : Digits (d.digits.drop n) := fun c hc =>
  h.digits c (mem_of_mem_drop hc)

theorem Normal.take_head (h : Normal d) {n : ℕ} (hn : 0 < n) :
    d.digits.take n ≠ [] ∧ (d.digits.take n).head? ≠ some 48 := by
  obtain ⟨n, rfl⟩ := Nat.exists_eq_add_one_of_ne_zero (Nat.ne_of_gt hn)
  obtain ⟨b, t, hd, -⟩ := h.head
  have hne := h.head_ne
  rw [hd, head?_cons] at hne
  rw [hd, take_succ_cons, head?_cons]
  exact ⟨cons_ne_nil _ _, hne⟩

theorem Normal.make_take (h : Normal d) {n : ℕ} {e : ℤ} (hn : n ≤ d.digits.length) (he : n + e = d.point) :
    Decimal.make d.negative (d.digits.take n) (d.digits.drop n) e = d := by
  apply h.make 0 0
  · rw [take_append_drop, zeros, replicate_zero, nil_append, append_nil]
  · rw [length_take_of_le hn]
    omega

theorem pointed_cons {frac : Bytes} (h : frac ≠ []) : pointed frac = 46 :: frac := by
  rw [pointed, if_neg h]

theorem Normal.laid_out (h : Normal d) : ∃ whole frac exponent e, LaidOut d whole frac exponent e := by
  have hpos : 0 < d.digits.length := length_pos_iff.mpr h.ne
  by_cases hwhole : (d.digits.length : ℤ) ≤ d.point ∧ d.point ≤ 21
  · refine ⟨d.digits ++ zeros (d.point - d.digits.length).toNat, [], [], 0, ?_, ?_, h.digits.append (digits_zeros _),
      .inr ?_, forall_mem_nil _, .inl ⟨rfl, rfl⟩, ?_⟩
    · unfold number_to_string
      dsimp only
      rw [if_pos hwhole, pointed, if_pos rfl, append_nil, append_nil]
    · exact append_ne_nil_of_left_ne_nil h.ne _
    · rw [head?_append_of_ne_nil _ h.ne]
      exact h.head_ne
    · apply h.make 0 (d.point - d.digits.length).toNat
      · rw [append_nil]
        rfl
      · rw [length_append, zeros, length_replicate]
        omega
  by_cases hinside : 0 < d.point ∧ d.point ≤ 21
  · have hlt : d.point.toNat < d.digits.length := by omega
    obtain ⟨hne, hhead⟩ := h.take_head (show 0 < d.point.toNat by omega)
    refine ⟨d.digits.take d.point.toNat, d.digits.drop d.point.toNat, [], 0, ?_, hne, h.take _, .inr hhead, h.drop _,
      .inl ⟨rfl, rfl⟩, h.make_take (le_of_lt hlt) (by omega)⟩
    have hfrac : d.digits.drop d.point.toNat ≠ [] := by
      rw [ne_eq, drop_eq_nil_iff]
      omega
    unfold number_to_string
    dsimp only
    rw [if_neg hwhole, if_pos hinside, pointed_cons hfrac, append_nil]
  by_cases hbefore : -6 < d.point ∧ d.point ≤ 0
  · refine ⟨[48], zeros (-d.point).toNat ++ d.digits, [], 0, ?_, cons_ne_nil _ _, digits_zeros 1, .inl rfl,
      (digits_zeros _).append h.digits, .inl ⟨rfl, rfl⟩, ?_⟩
    · unfold number_to_string
      dsimp only
      rw [if_neg hwhole, if_neg hinside, if_pos hbefore,
        pointed_cons (append_ne_nil_of_right_ne_nil _ h.ne), append_nil]
      rfl
    · apply h.make ((-d.point).toNat + 1) 0
      · show 48 :: (zeros _ ++ d.digits) = 48 :: (zeros _ ++ (d.digits ++ []))
        rw [append_nil]
      · rw [length_singleton]
        omega
  · obtain ⟨hne, hhead⟩ := h.take_head Nat.one_pos
    refine ⟨d.digits.take 1, d.digits.drop 1, _, d.point - 1, ?_, hne, h.take _, .inr hhead, h.drop _,
      exponent_tostring (d.point - 1), h.make_take hpos (by omega)⟩
    unfold number_to_string
    dsimp only
    rw [if_neg hwhole, if_neg hinside, if_neg hbefore]
    by_cases hone : d.digits.length = 1
    · have hcast : (d.digits.length : ℤ) = 1 := by omega
      have hnil : d.digits.drop 1 = [] := by
        rw [drop_eq_nil_iff]
        omega
      rw [if_pos hcast, hnil, pointed, if_pos rfl, nil_append, take_of_length_le (le_of_eq hone)]
    · have hcast : ¬(d.digits.length : ℤ) = 1 := by omega
      have hfrac : d.digits.drop 1 ≠ [] := by
        rw [ne_eq, drop_eq_nil_iff]
        omega
      rw [if_neg hcast, pointed_cons hfrac, append_assoc]

/-- What ECMAScript writes of a number is a text of RFC 8259. -/
theorem number_to_string_json (h : Normal d) : is_json_number (number_to_string d) = true := by
  obtain ⟨whole, frac, exponent, e, hlaid⟩ := h.laid_out
  rw [hlaid.text]
  exact number_of_parts hlaid.ne hlaid.digits_whole hlaid.lead hlaid.digits_frac hlaid.ending

/-- It writes the number. -/
theorem decimal_number_to_string (h : Normal d) : decimal_of (number_to_string d) = d := by
  obtain ⟨whole, frac, exponent, e, hlaid⟩ := h.laid_out
  have hspelled : Spelled (number_to_string d) d.negative whole frac exponent := by
    refine ⟨hlaid.text, hlaid.ne, hlaid.digits_whole, hlaid.digits_frac, ?_⟩
    rcases hlaid.ending with ⟨rfl, -⟩ | ⟨sign, t, rfl, -⟩
    · exact .inl rfl
    · exact .inr ⟨101, _, rfl, rfl⟩
  have hexponent : exponent_of exponent = e := by
    rcases hlaid.ending with ⟨rfl, rfl⟩ | ⟨sign, t, -, -, -, -, he⟩
    · rfl
    · exact he
  rw [hspelled.decimal, hexponent, hlaid.make]

/-- The number of any text of RFC 8259 is in its normal form, when it is not zero. -/
theorem normal_decimal_of {s : Bytes} (h : is_json_number s = true) (hne : (decimal_of s).digits ≠ []) :
    Normal (decimal_of s) := by
  obtain ⟨negative, whole, frac, exponent, hspelled⟩ := spelled_of_number h
  rw [hspelled.decimal] at hne ⊢
  have hstart := rdropWhile_prefix (p := zero_digit) (l := (whole ++ frac).dropWhile zero_digit)
  refine ⟨hne, ?_, ?_, rdropWhile_idempotent _ _⟩
  · intro b hb
    exact (hspelled.whole.append hspelled.frac) b ((dropWhile_suffix zero_digit).subset (hstart.subset hb))
  rcases hall : (whole ++ frac).dropWhile zero_digit with _ | ⟨c, u⟩
  · rw [Decimal.make, significant, hall] at hne
    exact absurd rfl hne
  obtain ⟨b, t, hsig⟩ := exists_cons_of_ne_nil hne
  rw [hall] at hstart
  have hsame : (Decimal.make negative whole frac (exponent_of exponent)).digits = (c :: u).rdropWhile zero_digit := by
    rw [Decimal.make, significant, hall]
  rw [← hsame, hsig] at hstart
  obtain rfl : b = c := (cons_prefix_cons.mp hstart).1
  have hhead := head_dropWhile_not zero_digit (l := whole ++ frac) (by rw [hall]; exact cons_ne_nil _ _)
  rw [hsig, dropWhile_cons_of_neg]
  simpa [hall] using hhead

/-! ## Canonical numbers -/

/-- The text of a double's shortest digits, in whatever layout, is written as ECMAScript writes it. -/
theorem put_canonical_number_eq {y : Yyjson} {f : Double} {t : Bytes} (hzero : f.is_zero = false)
    (hwrite : y.write_number (.real f) = some t) (ht : is_json_number t = true) (hne : (decimal_of t).digits ≠ [])
    (hlen : (decimal_of t).digits.length ≤ DIGITS_SIZE) (hsign : (decimal_of t).negative = f.negative) :
    put_canonical_number y f = .ok (number_to_string (decimal_of t)) := by
  obtain ⟨negative, whole, frac, exponent, hspelled⟩ := spelled_of_number ht
  obtain ⟨hdigits, htrim, hpoint⟩ := hspelled.recover hne hlen
  rw [put_canonical_number, hzero, if_neg Bool.false_ne_true, hwrite]
  dsimp only
  rw [if_neg hdigits, htrim, hpoint, ← hsign, lay_out_eq hne]

end Cosmic.Json
