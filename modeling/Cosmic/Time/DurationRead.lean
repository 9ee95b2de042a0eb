/-
Durations come back as they were written.

What `format_duration` writes is read a part at a time: `Finishes` says where the rounds end from a
text, whatever byte it begins at, and each part written has one lemma. The one duration that does
not come back has the least integer of nanoseconds: its absolute value is negative, the hours come
out one too many, and the sum is past what `parse_duration` takes.
-/
import Cosmic.Time.Duration

set_option autoImplicit false

namespace Cosmic.Time

open Cosmic.Base List Option Except

/-! ## Digits -/

theorem digits_value_lt_ten {s : Bytes} (h : ∀ b ∈ s, isDigit b = true) : digits_value 10 s < 10 ^ s.length := by
  induction s using reverseRecOn with
  | nil => decide
  | append_singleton s b ih =>
    have hs := ih fun c hc => h c (mem_append_left _ hc)
    have hb := h b (mem_append_right _ mem_cons_self)
    have hdigit := digit_cases hb
    have hval : digit_value b = b.toNat - 48 := if_pos hb
    rw [digits_value_append, foldl_cons, foldl_nil, length_append, length_singleton, pow_succ, hval]
    omega

theorem digits_value_zeros (k : ℕ) (s : Bytes) : digits_value 10 (List.replicate k 48 ++ s) = digits_value 10 s := by
  induction k with
  | zero => rfl
  | succ k ih =>
    rw [replicate_succ, cons_append, ← ih]
    rfl

theorem tostring_digits (n : ℕ) : ∀ b ∈ tostring n, isDigit b = true := fun _ => isDigit_of_mem_tostring

/-! ## Fractions -/

variable {n : ℕ}

theorem nine_digits_length (hn : n < 10 ^ 9) : (nine_digits n).length = 9 := by
  have := (tostring_length_le (by decide)).mpr hn
  unfold nine_digits
  rw [length_append, length_replicate]
  omega

theorem nine_digits_digits (n : ℕ) : ∀ b ∈ nine_digits n, isDigit b = true := by
  intro b hb
  rcases mem_append.mp hb with h | h
  · rw [eq_of_mem_replicate h]
    rfl
  · exact tostring_digits n b h

theorem rdrop_zeros (s : Bytes) :
    s.rdropWhile (· == 48) ++ List.replicate (s.length - (s.rdropWhile (· == 48)).length) 48 = s := by
  have hsplit : s.rdropWhile (· == 48) ++ (s.reverse.takeWhile (· == 48)).reverse = s := by
    unfold rdropWhile
    rw [← reverse_append, takeWhile_append_dropWhile, reverse_reverse]
  have hall : ∀ b ∈ (s.reverse.takeWhile (· == 48)).reverse, b = (48 : UInt8) := fun b hb =>
    beq_iff_eq.mp (mem_takeWhile_imp (p := fun c : UInt8 => c == 48) (mem_reverse.mp hb))
  have hlen : s.length - (s.rdropWhile (· == 48)).length = (s.reverse.takeWhile (· == 48)).reverse.length := by
    have := congrArg List.length hsplit
    rw [length_append] at this
    omega
  rwa [hlen, ← eq_replicate_iff.mpr ⟨rfl, hall⟩]

theorem fraction_text_length (hn : n < 10 ^ 9) : (fraction_text n).length ≤ 9 := by
  have := (List.rdropWhile_prefix (fun b : UInt8 => b == 48) (l := nine_digits n)).length_le
  rwa [nine_digits_length hn] at this

theorem fraction_text_digits (n : ℕ) : ∀ b ∈ fraction_text n, isDigit b = true := fun b hb =>
  nine_digits_digits n b ((List.rdropWhile_prefix _ _).subset hb)

theorem fraction_ns_text (hn : n < 10 ^ 9) : fraction_ns (fraction_text n) = n := by
  have hsplit := rdrop_zeros (nine_digits n)
  rw [nine_digits_length hn] at hsplit
  unfold fraction_ns fraction_text
  rw [hsplit]
  unfold nine_digits
  rw [digits_value_zeros, digits_value_tostring]

theorem fraction_text_ne_nil (hn : n < 10 ^ 9) (hpos : n ≠ 0) : fraction_text n ≠ [] := by
  intro h
  have hval := fraction_ns_text hn
  rw [h] at hval
  exact hpos (hval.symm.trans (by decide))

/-! ## A number and its unit -/

/-- What follows a part is the next part's number, or nothing. -/
def Clear (tail : Bytes) : Prop := ∀ b ∈ tail.head?, isDigit b = true

variable {tail : Bytes}

theorem unit_of_cons {b : UInt8} (h : b ≠ 109 ∨ tail.head? ≠ some 111) :
    unit_of (b :: tail) = units.zipIdx.foldl (fun unit name => if [b] = name.1 then name.2 + 1 else unit) 0 := by
  have hmo : (b :: tail).take 2 ≠ lit "mo" := by
    intro hmo
    cases tail with
    | nil => exact absurd (congrArg List.length hmo) (show (1 : ℕ) ≠ 2 by decide)
    | cons c tail =>
      obtain ⟨hb, hc⟩ := List.cons.inj hmo
      obtain ⟨hc, -⟩ := List.cons.inj hc
      rcases h with h | h
      · exact h hb
      · exact h (congrArg some hc)
  exact if_neg hmo

variable {u : ℕ}

theorem unit_of_name (h₁ : 1 ≤ u) (h₂ : u ≤ 6) (htail : Clear tail) : unit_of (unit_name u ++ tail) = u := by
  have hhead : tail.head? ≠ some 111 := fun h => absurd (htail 111 h) (by decide)
  obtain rfl | rfl | rfl | rfl | rfl | rfl : u = 1 ∨ u = 2 ∨ u = 3 ∨ u = 4 ∨ u = 5 ∨ u = 6 := by omega
  · exact unit_of_cons (.inl (by decide))
  · rfl
  · exact unit_of_cons (.inl (by decide))
  · exact unit_of_cons (.inl (by decide))
  · exact unit_of_cons (.inr hhead)
  · exact unit_of_cons (.inl (by decide))

theorem unit_name_head (h₁ : 1 ≤ u) (h₂ : u ≤ 6) :
    ∃ b name, unit_name u = b :: name ∧ isDigit b = false ∧ b ≠ 46 := by
  obtain rfl | rfl | rfl | rfl | rfl | rfl : u = 1 ∨ u = 2 ∨ u = 3 ∨ u = 4 ∨ u = 5 ∨ u = 6 := by omega
  · exact ⟨121, [], rfl, by decide, by decide⟩
  · exact ⟨109, [111], rfl, by decide, by decide⟩
  · exact ⟨100, [], rfl, by decide, by decide⟩
  · exact ⟨104, [], rfl, by decide, by decide⟩
  · exact ⟨109, [], rfl, by decide, by decide⟩
  · exact ⟨115, [], rfl, by decide, by decide⟩

variable {ds : Bytes}

theorem takeWhile_digits_append {rest : Bytes} (hds : ∀ b ∈ ds, isDigit b = true)
    (hrest : ∀ b ∈ rest.head?, isDigit b = false) : (ds ++ rest).takeWhile isDigit = ds := by
  rw [takeWhile_append_of_pos hds]
  cases rest with
  | nil => rw [takeWhile_nil, append_nil]
  | cons b rest =>
    rw [takeWhile_cons_of_neg (by rw [hrest b rfl]; exact Bool.false_ne_true), append_nil]

variable {seen : ℕ}

theorem round_unit (hne : ds ≠ []) (hds : ∀ b ∈ ds, isDigit b = true) (hlen : ds.length ≤ 9) (h₁ : 1 ≤ u)
    (h₂ : u ≤ 6) (htail : Clear tail) (hseen : seen < u) (at_ : ℕ) (spelled : Spelled) (fraction : ℕ) :
    ∃ at', round ⟨ds ++ (unit_name u ++ tail), at_, seen, spelled, fraction⟩ =
      .next ⟨tail, at', u, spelled.set u (digits_value 10 ds), fraction⟩ := by
  obtain ⟨b, name, hname, hdigit, hdot⟩ := unit_name_head h₁ h₂
  have htake : (ds ++ (unit_name u ++ tail)).takeWhile isDigit = ds := by
    refine takeWhile_digits_append hds fun c hc => ?_
    rw [hname] at hc
    rwa [← some.inj hc]
  have hunit : read_unit (unit_name u ++ tail) (at_ + ds.length) fraction = .ok (u, fraction, 0) := by
    have hnodot : (unit_name u ++ tail).take 1 ≠ lit "." := by
      rw [hname]
      exact fun h => hdot (List.cons.inj h).1
    unfold read_unit
    rw [if_neg hnodot, unit_of_name h₁ h₂ htail]
  have hdrop : (ds ++ (unit_name u ++ tail)).drop (ds.length + 0 + (unit_name u).length) = tail := by
    rw [Nat.add_zero, ← append_assoc, ← length_append, drop_left]
  refine ⟨at_ + ds.length + 0 + (unit_name u).length, ?_⟩
  unfold round
  simp only [htake, drop_left, hunit, hdrop]
  rw [if_neg (by simp [hne]), if_neg hne, if_neg (by omega), if_neg (by omega), if_neg (by omega)]

theorem round_fraction {fs : Bytes} (tail : Bytes) (hne : ds ≠ []) (hds : ∀ b ∈ ds, isDigit b = true)
    (hlen : ds.length ≤ 9) (hfne : fs ≠ []) (hfs : ∀ b ∈ fs, isDigit b = true) (hflen : fs.length ≤ 9)
    (hseen : seen < 6) (at_ : ℕ) (spelled : Spelled) (fraction : ℕ) :
    ∃ at', round ⟨ds ++ (46 :: (fs ++ 115 :: tail)), at_, seen, spelled, fraction⟩ =
      .next ⟨tail, at', 6, spelled.set 6 (digits_value 10 ds), fraction_ns fs⟩ := by
  have htake : (ds ++ (46 :: (fs ++ 115 :: tail))).takeWhile isDigit = ds := by
    refine takeWhile_digits_append hds fun c hc => ?_
    rw [← some.inj hc]
    decide
  have hunit : read_unit (46 :: (fs ++ 115 :: tail)) (at_ + ds.length) fraction =
      .ok (6, fraction_ns fs, 1 + fs.length) := by
    have hfrac : ((46 :: (fs ++ 115 :: tail)).drop 1).takeWhile isDigit = fs := by
      refine takeWhile_digits_append hfs fun c hc => ?_
      rw [← some.inj hc]
      decide
    have hs : ((46 :: (fs ++ 115 :: tail)).drop (1 + fs.length)).take 1 = lit "s" := by
      rw [Nat.add_comm, drop_succ_cons, drop_left]
      rfl
    unfold read_unit
    rw [if_pos (by rfl)]
    simp only [hfrac, hs]
    rw [if_neg (by simp [hfne, hflen])]
  have hdrop : (ds ++ (46 :: (fs ++ 115 :: tail))).drop (ds.length + (1 + fs.length) + (unit_name 6).length) = tail := by
    have hcons : ds ++ (46 :: (fs ++ 115 :: tail)) = (ds ++ (46 :: (fs ++ [115]))) ++ tail := by simp
    rw [hcons]
    refine drop_left' ?_
    simp only [length_append, length_cons, length_nil]
    change _ = ds.length + (1 + fs.length) + 1
    omega
  refine ⟨at_ + ds.length + (1 + fs.length) + (unit_name 6).length, ?_⟩
  unfold round
  simp only [htake, drop_left, hunit, hdrop]
  rw [if_neg (by simp [hne]), if_neg hne, if_neg (by omega), if_neg (by omega), if_neg (by omega)]

/-! ## The parts that are written -/

theorem math_abs_natAbs {n : ℤ} (hn : n.natAbs < 2 ^ 63) : math_abs n = n.natAbs := signed_of_range (by omega)

theorem d_text_nat (n : ℕ) : d_text n = tostring n := by
  unfold d_text
  rw [if_neg (by omega), Int.natAbs_natCast]

theorem put_natAbs {n : ℤ} (hn : n.natAbs < 2 ^ 63) (unit : Bytes) : put n unit = put n.natAbs unit := by
  have habs : math_abs ((n.natAbs : ℕ) : ℤ) = n.natAbs := math_abs_natAbs (by omega)
  unfold put
  rw [math_abs_natAbs hn, habs]
  exact if_congr (by omega) rfl rfl

theorem put_nat (hn : n < 2 ^ 63) (unit : Bytes) : put n unit = if n ≠ 0 then [tostring n ++ unit] else [] := by
  unfold put
  rw [math_abs_natAbs (by omega), Int.natAbs_natCast, d_text_nat]
  exact if_congr (by omega) rfl rfl

theorem clear_tostring (n : ℕ) (rest : Bytes) : Clear (tostring n ++ rest) := by
  obtain ⟨b, s, hs⟩ := exists_cons_of_ne_nil (tostring_ne_nil n)
  intro c hc
  rw [hs] at hc
  rw [← some.inj hc]
  exact tostring_digits n b (hs ▸ mem_cons_self)

theorem clear_put (hn : n < 2 ^ 63) (unit : Bytes) (htail : Clear tail) : Clear ((put n unit).flatten ++ tail) := by
  rw [put_nat hn]
  split
  · rw [flatten_singleton, append_assoc]
    exact clear_tostring n _
  · exact htail

/-- The rounds from `rest` end with `result`, whatever byte it begins at. -/
def Finishes (rest : Bytes) (seen : ℕ) (spelled : Spelled) (fraction : ℕ) (result : Spelled × ℕ) : Prop :=
  ∀ at_, Yields (fun s => some (round s)) ⟨rest, at_, seen, spelled, fraction⟩ (.ok result)

theorem finishes_nil (seen : ℕ) (spelled : Spelled) (fraction : ℕ) :
    Finishes [] seen spelled fraction (spelled, fraction) := fun _ => .done rfl

theorem finishes_put {fraction : ℕ} {spelled : Spelled} {result : Spelled × ℕ} (hn : n < 10 ^ 9) (h₁ : 1 ≤ u)
    (h₂ : u ≤ 6) (hseen : seen < u) (htail : Clear tail) (hzero : spelled.set u 0 = spelled)
    (h : ∀ seen' ≤ u, Finishes tail seen' (spelled.set u n) fraction result) :
    Finishes ((put n (unit_name u)).flatten ++ tail) seen spelled fraction result := by
  rw [put_nat (by omega)]
  intro at_
  by_cases hpos : n = 0
  · rw [if_neg (by omega)]
    rw [hpos, hzero] at h
    exact h seen hseen.le at_
  · have hlen := (tostring_length_le (by decide)).mpr hn
    obtain ⟨at', hround⟩ := round_unit (tostring_ne_nil n) (tostring_digits n) hlen h₁ h₂ htail hseen at_ spelled fraction
    rw [digits_value_tostring] at hround
    rw [if_pos hpos, flatten_singleton, append_assoc]
    exact .next (congrArg some hround) (h u le_rfl at')

variable {nanos : ℕ}

theorem finishes_seconds {secs : ℕ} {spelled : Spelled} (hsecs : secs < 10 ^ 9) (hnanos : nanos < 10 ^ 9)
    (hseen : seen < 6) (hzero : spelled.set 6 0 = spelled) :
    Finishes (put_seconds secs nanos).flatten seen spelled 0 (spelled.set 6 secs, nanos) := by
  have hlen := (tostring_length_le (by decide)).mpr hsecs
  have hclear : Clear [] := nofun
  unfold put_seconds
  rw [d_text_nat, Int.toNat_natCast]
  intro at_
  by_cases hn : nanos = 0
  · subst hn
    by_cases hs : secs = 0
    · subst hs
      rw [if_neg (by omega), hzero]
      exact finishes_nil seen spelled 0 at_
    · obtain ⟨at', hround⟩ := round_unit (tostring_ne_nil secs) (tostring_digits secs) hlen (by decide)
        (Nat.le_refl 6) hclear hseen at_ spelled 0
      rw [digits_value_tostring] at hround
      rw [if_pos (by omega), if_neg (by omega), flatten_singleton, append_nil]
      exact .next (congrArg some hround) (finishes_nil 6 _ 0 at')
  · obtain ⟨at', hround⟩ := round_fraction [] (tostring_ne_nil secs) (tostring_digits secs) hlen
      (fraction_text_ne_nil hnanos hn) (fraction_text_digits nanos) (fraction_text_length hnanos) hseen at_ spelled 0
    rw [digits_value_tostring, fraction_ns_text hnanos] at hround
    rw [if_pos (by omega), if_pos (by omega), flatten_singleton]
    have hcons : tostring secs ++ (lit "." ++ fraction_text nanos) ++ lit "s" =
        tostring secs ++ (46 :: (fraction_text nanos ++ 115 :: [])) := by
      rw [append_assoc]
      rfl
    rw [hcons]
    exact .next (congrArg some hround) (finishes_nil 6 _ nanos at')

/-- The parts that a duration of these fields and nanoseconds past the second is written in. -/
def written (f : Spelled) (nanos : ℕ) : List Bytes :=
  put f.years (lit "y") ++ put f.months (lit "mo") ++ put f.days (lit "d") ++ put f.hours (lit "h") ++
    put f.minutes (lit "m") ++ put_seconds f.seconds nanos

/-- Fields of nine digits at most. -/
structure Spelled.Bounded (f : Spelled) : Prop where
  years : f.years < 10 ^ 9
  months : f.months < 10 ^ 9
  days : f.days < 10 ^ 9
  hours : f.hours < 10 ^ 9
  minutes : f.minutes < 10 ^ 9
  seconds : f.seconds < 10 ^ 9

theorem clear_seconds (secs nanos : ℕ) : Clear (put_seconds secs nanos).flatten := by
  unfold put_seconds
  rw [d_text_nat]
  split
  · rw [flatten_singleton, append_assoc]
    exact clear_tostring _ _
  · exact nofun

variable {f : Spelled}

theorem clear_written (hf : f.Bounded) (nanos : ℕ) : Clear (written f nanos).flatten := by
  obtain ⟨hy, hmo, hd, hh, hm, -⟩ := hf
  unfold written
  simp only [flatten_append, append_assoc]
  exact clear_put (by omega) _ (clear_put (by omega) _ (clear_put (by omega) _ (clear_put (by omega) _
    (clear_put (by omega) _ (clear_seconds f.seconds nanos)))))

theorem finishes_written (hf : f.Bounded) (hnanos : nanos < 10 ^ 9) :
    Finishes (written f nanos).flatten 0 ⟨0, 0, 0, 0, 0, 0⟩ 0 (f, nanos) := by
  have hseconds := clear_seconds f.seconds nanos
  have hm := clear_put (n := f.minutes) (by have := hf.minutes; omega) (unit_name 5) hseconds
  have hh := clear_put (n := f.hours) (by have := hf.hours; omega) (unit_name 4) hm
  have hd := clear_put (n := f.days) (by have := hf.days; omega) (unit_name 3) hh
  have hmo := clear_put (n := f.months) (by have := hf.months; omega) (unit_name 2) hd
  unfold written
  simp only [flatten_append, append_assoc]
  refine finishes_put (u := 1) hf.years (by decide) (by decide) (by decide) hmo rfl fun seen hseen => ?_
  refine finishes_put (u := 2) hf.months (by decide) (by decide) (by omega) hd rfl fun seen hseen => ?_
  refine finishes_put (u := 3) hf.days (by decide) (by decide) (by omega) hh rfl fun seen hseen => ?_
  refine finishes_put (u := 4) hf.hours (by decide) (by decide) (by omega) hm rfl fun seen hseen => ?_
  refine finishes_put (u := 5) hf.minutes (by decide) (by decide) (by omega) hseconds rfl fun seen hseen => ?_
  exact finishes_seconds hf.seconds hnanos (by omega) rfl

/-! ## The loop ends -/

theorem Spelled.Bounded.set (h : f.Bounded) {unit value : ℕ} (hvalue : value < 10 ^ 9) :
    (f.set unit value).Bounded := by
  unfold Spelled.set
  obtain ⟨hy, hmo, hd, hh, hm, hs⟩ := h
  split
  · exact ⟨hvalue, hmo, hd, hh, hm, hs⟩
  split
  · exact ⟨hy, hvalue, hd, hh, hm, hs⟩
  split
  · exact ⟨hy, hmo, hvalue, hh, hm, hs⟩
  split
  · exact ⟨hy, hmo, hd, hvalue, hm, hs⟩
  split
  · exact ⟨hy, hmo, hd, hh, hvalue, hs⟩
  · exact ⟨hy, hmo, hd, hh, hm, hvalue⟩

theorem read_unit_fraction {rest : Bytes} {at_ fraction unit fraction' taken : ℕ} (hfraction : fraction < 10 ^ 9)
    (h : read_unit rest at_ fraction = .ok (unit, fraction', taken)) : fraction' < 10 ^ 9 := by
  unfold read_unit at h
  split at h
  · dsimp only at h
    split at h
    · cases h
    next hok =>
    obtain ⟨-, rfl, -⟩ := h
    have hdigits : ∀ b ∈ (rest.drop 1).takeWhile isDigit ++
        List.replicate (9 - ((rest.drop 1).takeWhile isDigit).length) 48, isDigit b = true := by
      intro b hb
      rcases mem_append.mp hb with hb | hb
      · exact mem_takeWhile_imp hb
      · rw [eq_of_mem_replicate hb]
        rfl
    have hlt := digits_value_lt_ten hdigits
    rw [length_append, length_replicate] at hlt
    have hnine : ((rest.drop 1).takeWhile isDigit).length + (9 - ((rest.drop 1).takeWhile isDigit).length) = 9 := by
      omega
    rwa [hnine] at hlt
  · obtain ⟨-, rfl, -⟩ := h
    exact hfraction

theorem round_goes (s : State) (h : s.spelled.Bounded ∧ s.fraction < 10 ^ 9) :
    (∃ s', round s = .next s' ∧ (s'.spelled.Bounded ∧ s'.fraction < 10 ^ 9) ∧ s'.rest.length < s.rest.length) ∨
      ∃ r, round s = .done r ∧ ∀ f n, r = .ok (f, n) → f.Bounded ∧ n < 10 ^ 9 := by
  unfold round
  dsimp only
  split
  · refine .inr ⟨_, rfl, fun f n hr => ?_⟩
    cases hr
    exact h
  split
  · exact .inr ⟨_, rfl, nofun⟩
  next hrest hdigits =>
  split
  · exact .inr ⟨_, rfl, nofun⟩
  next hlen =>
  cases hunit : read_unit (s.rest.drop (s.rest.takeWhile isDigit).length)
      (s.at_ + (s.rest.takeWhile isDigit).length) s.fraction with
  | error why => exact .inr ⟨_, rfl, nofun⟩
  | ok read =>
    dsimp only
    split
    · exact .inr ⟨_, rfl, nofun⟩
    split
    · exact .inr ⟨_, rfl, nofun⟩
    have hdig : ∀ b ∈ s.rest.takeWhile isDigit, isDigit b = true := fun b hb => mem_takeWhile_imp hb
    have hpos := length_pos_of_ne_nil hdigits
    have hrest' := length_pos_of_ne_nil hrest
    have hvalue : digits_value 10 (s.rest.takeWhile isDigit) < 10 ^ 9 :=
      Nat.lt_of_lt_of_le (digits_value_lt_ten hdig) (Nat.pow_le_pow_right (by decide) (by omega))
    refine .inl ⟨_, rfl, ⟨h.1.set hvalue, read_unit_fraction h.2 hunit⟩, ?_⟩
    rw [length_drop]
    omega

theorem round_advances (s : State) (h : s.spelled.Bounded ∧ s.fraction < 10 ^ 9) :
    Advances (fun s => some (round s)) (fun s => s.spelled.Bounded ∧ s.fraction < 10 ^ 9) (fun s => s.rest.length)
      (fun r => ∀ f n, r = .ok (f, n) → f.Bounded ∧ n < 10 ^ 9) s := by
  rcases round_goes s h with ⟨s', hnext, hs'⟩ | ⟨r, hdone, hr⟩
  · exact .inl ⟨s', congrArg some hnext, hs'⟩
  · exact .inr ⟨r, congrArg some hdone, hr⟩

theorem zero_bounded : Spelled.Bounded ⟨0, 0, 0, 0, 0, 0⟩ :=
  ⟨by decide, by decide, by decide, by decide, by decide, by decide⟩

theorem rounds_end (rest : Bytes) (at_ : ℕ) :
    ∃ r, loop (fun s => some (round s)) (rest.length + 1) ⟨rest, at_, 0, ⟨0, 0, 0, 0, 0, 0⟩, 0⟩ = some r ∧
      ∀ f n, r = .ok (f, n) → f.Bounded ∧ n < 10 ^ 9 :=
  loop_total round_advances (rest.length + 1) _ ⟨zero_bounded, Nat.pow_pos (by decide)⟩ (Nat.lt_succ_self _)

theorem parse_written {body : Bytes} (hne : body ≠ []) (hclear : Clear body)
    (h : Finishes body 0 ⟨0, 0, 0, 0, 0, 0⟩ 0 (f, n)) (negative : Prop) [Decidable negative] :
    parse_duration ((if negative then lit "-" else []) ++ body) =
      some (duration_of (if negative then -1 else 1) f n) := by
  have hloop : ∀ at_, loop (fun s => some (round s)) (body.length + 1) ⟨body, at_, 0, ⟨0, 0, 0, 0, 0, 0⟩, 0⟩ =
      some (.ok (f, n)) := fun at_ => by
    obtain ⟨r, hr, -⟩ := rounds_end body at_
    rw [hr, (h at_).loop_eq hr]
  obtain ⟨b, s, rfl⟩ := exists_cons_of_ne_nil hne
  have hb : isDigit b = true := hclear b rfl
  by_cases hneg : negative
  · rw [if_pos hneg, if_pos hneg]
    have hsign : sign_at (lit "-" ++ b :: s) = (-1, true) := if_pos rfl
    unfold parse_duration
    rw [hsign]
    change (if b :: s = [] then _ else _) = _
    rw [if_neg hne]
    exact congrArg (Option.map _) (hloop 2)
  · rw [if_neg hneg, if_neg hneg]
    have hsign : sign_at ([] ++ b :: s) = (1, false) := by
      unfold sign_at
      rw [if_neg, if_neg]
      · exact fun heq => digit_ne hb (.inl (by decide)) (List.cons.inj heq).1
      · exact fun heq => digit_ne hb (.inl (by decide)) (List.cons.inj heq).1
    unfold parse_duration
    rw [hsign]
    change (if b :: s = [] then _ else _) = _
    rw [if_neg hne]
    exact congrArg (Option.map _) (hloop 1)

/-! ## What a duration is written as -/

/-- The fields that `format_duration` writes for these values. -/
def spelled_of (years months days span : ℤ) : Spelled where
  years := years.natAbs
  months := months.natAbs
  days := days.natAbs
  hours := (span / (3600 * NS)).natAbs
  minutes := (span % (3600 * NS) / (60 * NS)).natAbs
  seconds := (span % (60 * NS) / NS).natAbs

theorem spelled_bounded {years months days span : ℤ} (hy : years.natAbs < 10 ^ 9) (hmo : months.natAbs < 10 ^ 9)
    (hd : days.natAbs < 10 ^ 9) (hspan : -2 ^ 63 ≤ span ∧ span < 2 ^ 63) :
    (spelled_of years months days span).Bounded := by
  simp only [NS, spelled_of]
  refine ⟨hy, hmo, hd, ?_, ?_, ?_⟩
  · show (span / (3600 * 1000000000)).natAbs < 10 ^ 9
    omega
  · show (span % (3600 * 1000000000) / (60 * 1000000000)).natAbs < 10 ^ 9
    omega
  · show (span % (60 * 1000000000) / 1000000000).natAbs < 10 ^ 9
    omega

theorem parts_written {years months days span : ℤ} (hy : years.natAbs < 10 ^ 9) (hmo : months.natAbs < 10 ^ 9)
    (hd : days.natAbs < 10 ^ 9) (hspan : -2 ^ 63 ≤ span ∧ span < 2 ^ 63) :
    put years (lit "y") ++ put months (lit "mo") ++ put days (lit "d") ++ put (span / (3600 * NS)) (lit "h") ++
      put (span % (3600 * NS) / (60 * NS)) (lit "m") ++ put_seconds (span % (60 * NS) / NS) (span % NS) =
        written (spelled_of years months days span) (span % NS).natAbs := by
  have hf := spelled_bounded hy hmo hd hspan
  have hsecs : span % (60 * NS) / NS = ((span % (60 * NS) / NS).natAbs : ℕ) := by
    unfold NS
    omega
  have hnanos : span % NS = ((span % NS).natAbs : ℕ) := by
    unfold NS
    omega
  have hhours : (span / (3600 * NS)).natAbs < 10 ^ 9 := hf.hours
  have hminutes : (span % (3600 * NS) / (60 * NS)).natAbs < 10 ^ 9 := hf.minutes
  unfold written
  rw [put_natAbs (by omega), put_natAbs (by omega) (lit "mo"), put_natAbs (by omega) (lit "d"),
    put_natAbs (n := span / (3600 * NS)) (by omega), put_natAbs (n := span % (3600 * NS) / (60 * NS)) (by omega),
    hsecs, hnanos]
  simp only [spelled_of, Int.natAbs_natCast]

theorem written_nil (hf : f.Bounded) (h : written f nanos = []) : f = ⟨0, 0, 0, 0, 0, 0⟩ ∧ nanos = 0 := by
  obtain ⟨y, mo, d, hh, m, secs⟩ := f
  obtain ⟨hy, hmo, hd, hhours, hm, -⟩ := hf
  simp only at hy hmo hd hhours hm
  have hput : ∀ {n : ℕ} {unit : Bytes}, n < 10 ^ 9 → put n unit = [] → n = 0 := by
    intro n unit hn hnil
    rw [put_nat (by omega)] at hnil
    by_contra hne
    rw [if_pos hne] at hnil
    exact absurd hnil (cons_ne_nil _ _)
  simp only [written, append_eq_nil_iff] at h
  obtain ⟨⟨⟨⟨⟨h₁, h₂⟩, h₃⟩, h₄⟩, h₅⟩, h₆⟩ := h
  have hseconds : secs = 0 ∧ nanos = 0 := by
    unfold put_seconds at h₆
    by_contra hne
    rw [if_pos (by omega)] at h₆
    exact absurd h₆ (cons_ne_nil _ _)
  rw [hput hy h₁, hput hmo h₂, hput hd h₃, hput hhours h₄, hput hm h₅, hseconds.1, hseconds.2]
  exact ⟨rfl, rfl⟩

theorem written_flatten_ne_nil (h : written f nanos ≠ []) : (written f nanos).flatten ≠ [] := by
  have hunit : ∀ {b : Bytes} {unit : Bytes}, unit ≠ [] → b ++ unit ≠ [] := fun hne heq =>
    hne (append_eq_nil_iff.mp heq).2
  have hput : ∀ {n : ℤ} {unit : Bytes}, unit ≠ [] → ∀ b ∈ put n unit, b ≠ [] := by
    intro n unit hne b hb
    unfold put at hb
    split at hb
    · rw [mem_singleton.mp hb]
      exact hunit hne
    · cases hb
  have hseconds : ∀ b ∈ put_seconds (f.seconds : ℤ) nanos, b ≠ [] := by
    intro b hb
    unfold put_seconds at hb
    split at hb
    · rw [mem_singleton.mp hb]
      exact hunit (by decide)
    · cases hb
  obtain ⟨b, parts, hparts⟩ := exists_cons_of_ne_nil h
  have hb : b ∈ written f nanos := hparts ▸ mem_cons_self
  have hne : b ≠ [] := by
    simp only [written, mem_append] at hb
    obtain ((((hb | hb) | hb) | hb) | hb) | hb := hb
    · exact hput (by decide) b hb
    · exact hput (by decide) b hb
    · exact hput (by decide) b hb
    · exact hput (by decide) b hb
    · exact hput (by decide) b hb
    · exact hseconds b hb
  rw [hparts, flatten_cons]
  exact fun heq => hne (append_eq_nil_iff.mp heq).1

/-! ## The round trip -/

/-- Every field is at least zero, or every field at most zero. -/
def OneSigned (d : Duration) : Prop :=
  (0 ≤ d.years.getD 0 ∧ 0 ≤ d.months.getD 0 ∧ 0 ≤ d.days.getD 0 ∧ 0 ≤ d.ns.getD 0) ∨
    (d.years.getD 0 ≤ 0 ∧ d.months.getD 0 ≤ 0 ∧ d.days.getD 0 ≤ 0 ∧ d.ns.getD 0 ≤ 0)

/-- A duration of one sign whose calendar fields have nine digits at most: its nanoseconds are any
integer of 64 bits. -/
structure Spellable (d : Duration) : Prop where
  one_signed : OneSigned d
  years : (d.years.getD 0).natAbs < 10 ^ 9
  months : (d.months.getD 0).natAbs < 10 ^ 9
  days : (d.days.getD 0).natAbs < 10 ^ 9
  ns : -2 ^ 63 ≤ d.ns.getD 0 ∧ d.ns.getD 0 < 2 ^ 63

/-- The same years, months, days and nanoseconds, a missing field being zero. -/
def Same (d d' : Duration) : Prop :=
  d.years.getD 0 = d'.years.getD 0 ∧ d.months.getD 0 = d'.months.getD 0 ∧ d.days.getD 0 = d'.days.getD 0 ∧
    d.ns.getD 0 = d'.ns.getD 0

/-- What `format_duration` writes, `parse_duration` reads as the same duration. -/
def RoundTrips (d : Duration) : Prop :=
  ∃ text d', format_duration d = .ok text ∧ parse_duration text = some (.ok d') ∧ Same d d'

/-- Some field is below zero. -/
abbrev Negative (d : Duration) : Prop :=
  d.years.getD 0 < 0 ∨ d.months.getD 0 < 0 ∨ d.days.getD 0 < 0 ∨ d.ns.getD 0 < 0

def fields_of (d : Duration) : Spelled :=
  spelled_of (d.years.getD 0) (d.months.getD 0) (d.days.getD 0) (math_abs (d.ns.getD 0))

/-- The nanoseconds past the second that a duration is written with. -/
def nanos_of (d : Duration) : ℕ := (math_abs (d.ns.getD 0) % NS).natAbs

variable {d : Duration}

theorem format_eq (h : Spellable d) : format_duration d =
      if written (fields_of d) (nanos_of d) = [] then .ok (lit "0s")
      else .ok ((if Negative d then lit "-" else []) ++ (written (fields_of d) (nanos_of d)).flatten) := by
  have hsigned : ¬(Negative d ∧ (d.years.getD 0 > 0 ∨ d.months.getD 0 > 0 ∨ d.days.getD 0 > 0 ∨ d.ns.getD 0 > 0)) := by
    have := h.one_signed
    unfold OneSigned at this
    omega
  have hspan : -2 ^ 63 ≤ math_abs (d.ns.getD 0) ∧ math_abs (d.ns.getD 0) < 2 ^ 63 := signed_range _
  have hparts := parts_written h.years h.months h.days hspan
  unfold format_duration
  dsimp only
  rw [if_neg hsigned, hparts]
  rfl

theorem format_parse (h : Spellable d) : ∃ text, format_duration d = .ok text ∧
      parse_duration text = some (duration_of (if Negative d then -1 else 1) (fields_of d) (nanos_of d)) := by
  have hbounded : (fields_of d).Bounded := spelled_bounded h.years h.months h.days (signed_range _)
  have hnanos : nanos_of d < 10 ^ 9 := by
    unfold nanos_of NS
    omega
  rw [format_eq h]
  by_cases hnil : written (fields_of d) (nanos_of d) = []
  · obtain ⟨hf, hn⟩ := written_nil hbounded hnil
    refine ⟨_, if_pos hnil, ?_⟩
    rw [hf, hn]
    split <;> decide
  · have hfinishes := finishes_written hbounded hnanos
    refine ⟨_, if_neg hnil, parse_written (written_flatten_ne_nil hnil) ?_ hfinishes (Negative d)⟩
    exact clear_written hbounded _

theorem duration_of_fields (h : Spellable d) (hns : d.ns.getD 0 ≠ -2 ^ 63) :
    ∃ d', duration_of (if Negative d then -1 else 1) (fields_of d) (nanos_of d) = .ok d' ∧ Same d d' := by
  have hrange := h.ns
  have habs : math_abs (d.ns.getD 0) = (d.ns.getD 0).natAbs := math_abs_natAbs (by omega)
  have hsigned := h.one_signed
  unfold OneSigned at hsigned
  -- The hours, minutes, seconds and nanoseconds make up the absolute value.
  have hspan : ((fields_of d).hours * 3600 + (fields_of d).minutes * 60 + (fields_of d).seconds : ℤ) * NS +
      nanos_of d = (d.ns.getD 0).natAbs := by
    simp only [fields_of, nanos_of, spelled_of, habs, NS]
    omega
  unfold duration_of
  have hfits : ¬(((fields_of d).hours * 3600 + (fields_of d).minutes * 60 + (fields_of d).seconds : ℤ) > MAX_SPAN_S ∨
      ((fields_of d).hours * 3600 + (fields_of d).minutes * 60 + (fields_of d).seconds : ℤ) = MAX_SPAN_S ∧
        (nanos_of d : ℤ) > (2 ^ 63 - 1) % NS) := by
    unfold MAX_SPAN_S
    unfold NS at hspan ⊢
    omega
  rw [if_neg hfits, hspan]
  refine ⟨_, rfl, ?_⟩
  simp only [Same, getD_some, fields_of, spelled_of]
  by_cases hneg : Negative d
  · rw [if_pos hneg]
    omega
  · rw [if_neg hneg]
    unfold Negative at hneg
    omega

theorem duration_of_least (hns : d.ns.getD 0 = -2 ^ 63) (sign : ℤ) : duration_of sign (fields_of d) (nanos_of d) =
      .error (refuse (lit "the hours, minutes and seconds are more than 292 years")) := by
  have habs : math_abs (d.ns.getD 0) = -2 ^ 63 := by
    rw [hns]
    decide +kernel
  have hlarge : ((fields_of d).hours * 3600 + (fields_of d).minutes * 60 + (fields_of d).seconds : ℤ) > MAX_SPAN_S := by
    simp only [fields_of, spelled_of, habs]
    decide +kernel
  unfold duration_of
  rw [if_pos (.inl hlarge)]

theorem round_trips_iff (h : Spellable d) : RoundTrips d ↔ d.ns.getD 0 ≠ -2 ^ 63 := by
  obtain ⟨text, hformat, hparse⟩ := format_parse h
  constructor
  · rintro ⟨text', d', hformat', hparse', -⟩ hns
    rw [hformat] at hformat'
    rw [← ok.inj hformat', hparse, duration_of_least hns] at hparse'
    exact absurd (some.inj hparse') (by simp)
  · intro hns
    obtain ⟨d', hd', hsame⟩ := duration_of_fields h hns
    exact ⟨text, d', hformat, hparse.trans (congrArg some hd'), hsame⟩

theorem duration_of_spellable {sign : ℤ} (hsign : sign = 1 ∨ sign = -1) (hf : f.Bounded) (hn : n < 10 ^ 9)
    (h : duration_of sign f n = .ok d) :
    Spellable d ∧ d.ns.getD 0 ≠ -2 ^ 63 ∧ d = ⟨some (d.years.getD 0), some (d.months.getD 0), some (d.days.getD 0),
      some (d.ns.getD 0)⟩ := by
  obtain ⟨hy, hmo, hd, -, -, -⟩ := hf
  unfold duration_of at h
  dsimp only at h
  split at h
  · cases h
  next hfits =>
  have hspan : ((f.hours : ℤ) * 3600 + f.minutes * 60 + f.seconds) * NS + n < 2 ^ 63 := by
    simp only [MAX_SPAN_S, NS] at hfits ⊢
    omega
  have hpos : 0 ≤ ((f.hours : ℤ) * 3600 + f.minutes * 60 + f.seconds) * NS + n := by
    unfold NS
    omega
  generalize ((f.hours : ℤ) * 3600 + f.minutes * 60 + f.seconds) * NS + n = ns at h hspan hpos
  rw [← ok.inj h]
  simp only [getD_some, and_true]
  have hy' : (sign * f.years).natAbs < 10 ^ 9 := by rcases hsign with rfl | rfl <;> omega
  have hmo' : (sign * f.months).natAbs < 10 ^ 9 := by rcases hsign with rfl | rfl <;> omega
  have hd' : (sign * f.days).natAbs < 10 ^ 9 := by rcases hsign with rfl | rfl <;> omega
  have hns : -2 ^ 63 < sign * ns ∧ sign * ns < 2 ^ 63 := by rcases hsign with rfl | rfl <;> omega
  have hone : OneSigned ⟨some (sign * f.years), some (sign * f.months), some (sign * f.days), some (sign * ns)⟩ := by
    unfold OneSigned
    simp only [getD_some]
    rcases hsign with rfl | rfl <;> omega
  have hns' : -2 ^ 63 ≤ sign * ns ∧ sign * ns < 2 ^ 63 := ⟨hns.1.le, hns.2⟩
  have hleast : sign * ns ≠ -2 ^ 63 := by omega
  refine ⟨⟨hone, ?_, ?_, ?_, ?_⟩, hleast⟩
  · simpa only [getD_some] using hy'
  · simpa only [getD_some] using hmo'
  · simpa only [getD_some] using hd'
  · simpa only [getD_some] using hns'

theorem parse_round_trips {text : Bytes} (h : parse_duration text = some (.ok d)) :
    ∃ written, format_duration d = .ok written ∧ parse_duration written = some (.ok d) := by
  have hspelled : ∃ sign f n, (sign = 1 ∨ sign = -1) ∧ Spelled.Bounded f ∧ n < 10 ^ 9 ∧ duration_of sign f n = .ok d := by
    have hsign : (sign_at text).1 = 1 ∨ (sign_at text).1 = -1 := by
      unfold sign_at
      split
      · exact .inr rfl
      split <;> exact .inl rfl
    unfold parse_duration at h
    generalize sign_at text = sign at h hsign
    obtain ⟨sign, written⟩ := sign
    dsimp only at h
    generalize (if written = true then 2 else 1) = at_ at h
    split at h
    · exact absurd (some.inj h) (by simp)
    obtain ⟨r, hr, hbounded⟩ := rounds_end (text.drop (at_ - 1)) at_
    rw [hr, map_some] at h
    cases r with
    | error why => exact absurd (some.inj h) (by simp)
    | ok result =>
      obtain ⟨f, n⟩ := result
      obtain ⟨hf, hn⟩ := hbounded f n rfl
      exact ⟨sign, f, n, hsign, hf, hn, some.inj h⟩
  obtain ⟨sign, f, n, hsign, hf, hn, hd⟩ := hspelled
  obtain ⟨hspellable, hns, hfields⟩ := duration_of_spellable hsign hf hn hd
  obtain ⟨text', hformat, hparse⟩ := format_parse hspellable
  obtain ⟨d', hd', hsame⟩ := duration_of_fields hspellable hns
  rw [hd'] at hparse
  refine ⟨text', hformat, hparse.trans ?_⟩
  -- Every field of what is read is there, so the same fields are the same duration.
  have hsign' : (if Negative d then -1 else 1 : ℤ) = 1 ∨ (if Negative d then -1 else 1 : ℤ) = -1 := by
    split
    · exact .inr rfl
    · exact .inl rfl
  obtain ⟨-, -, hfields'⟩ := duration_of_spellable hsign' (spelled_bounded hspellable.years hspellable.months
    hspellable.days (signed_range _)) (by unfold nanos_of NS; omega) hd'
  obtain ⟨hy, hmo, hdays, hns'⟩ := hsame
  rw [hfields', ← hy, ← hmo, ← hdays, ← hns', ← hfields]

/-- A spellable duration comes back from its text exactly where its nanoseconds are not the least
integer, and what any text is read as comes back from what is written of it. -/
theorem durations_round_trip (d : Duration) : (Spellable d → (RoundTrips d ↔ d.ns.getD 0 ≠ -2 ^ 63)) ∧
      ∀ text, parse_duration text = some (.ok d) →
        ∃ written, format_duration d = .ok written ∧ parse_duration written = some (.ok d) :=
  ⟨fun h => round_trips_iff h, fun _ h => parse_round_trips h⟩

/-- Both parts at an hour and a half. -/
theorem durations_round_trip_ninety_minutes : RoundTrips ⟨none, none, none, some 5400000000000⟩ ∧
      ∃ written, format_duration ⟨some 0, some 0, some 0, some 5400000000000⟩ = .ok written ∧
        parse_duration written = some (.ok ⟨some 0, some 0, some 0, some 5400000000000⟩) := by
  have hspellable : Spellable ⟨none, none, none, some 5400000000000⟩ :=
    ⟨.inl (by decide), by decide, by decide, by decide, by decide⟩
  exact ⟨((durations_round_trip _).1 hspellable).mpr (by decide),
    (durations_round_trip _).2 (lit "90m") (by decide +kernel)⟩

/-- The duration of the least integer of nanoseconds is written as `-2562048h12m43.145224192s`, which
is refused. -/
theorem least_duration_refused :
    Spellable ⟨none, none, none, some (-2 ^ 63)⟩ ∧ ¬RoundTrips ⟨none, none, none, some (-2 ^ 63)⟩ := by
  have hspellable : Spellable ⟨none, none, none, some (-2 ^ 63)⟩ :=
    ⟨.inr (by decide), by decide, by decide, by decide, by decide⟩
  exact ⟨hspellable, fun h => (round_trips_iff hspellable).mp h rfl⟩

end Cosmic.Time
