/-
Integers drawn uniformly from a range: `Rand.uniform`.

A draw of 64 bits is masked to the bits of the width of the range and thrown away where it is past the width. Every value
is then what as many draws answer as any other, and no more than half of the draws are thrown away.
-/
import Cosmic.Base.Text
import Mathlib.Data.BitVec
import Mathlib.Data.Nat.Size
import Mathlib.Order.Bounds.Defs
import Mathlib.SetTheory.Cardinal.Finite

set_option autoImplicit false

namespace Cosmic.Rand

open Cosmic.Base Option Nat

/-! ## The source -/

/-- An integer of the language: 64 bits, which wrap. -/
abbrev Word := BitVec 64

/-- `("%d"):format(n)` -/
def d_text (n : Word) : Bytes := if n.toInt < 0 then 45 :: tostring n.toInt.natAbs else tostring n.toInt.natAbs

/-- The smallest all-ones mask covering `n`, read as unsigned. -/
def mask_for (n : Word) : Word :=
  let m := n
  let m := m ||| m >>> 1
  let m := m ||| m >>> 2
  let m := m ||| m >>> 4
  let m := m ||| m >>> 8
  let m := m ||| m >>> 16
  let m := m ||| m >>> 32
  m

/-- What a turn of the loop that draws `drawn` returns. -/
def attempt (min span mask drawn : Word) : Option Word :=
  let candidate := drawn &&& mask
  if ¬ span.ult candidate then some (min + candidate) else none

/-- The loop from its turn `n` on: the value, and the draws it took. -/
def attempts (draw : ℕ → Word) (min span mask : Word) : ℕ → ℕ → Option (Word × ℕ)
  | 0, _ => none
  | fuel + 1, n =>
    match attempt min span mask (draw n) with
    | some v => some (v, n + 1)
    | none => attempts draw min span mask fuel (n + 1)

/-- `Rand.uniform(draw, min, max)`, where the calls of `draw` answer `draw 0`, `draw 1` and so on. -/
def uniform (draw : ℕ → Word) (min max : Word) (fuel : ℕ) : Except Bytes (Option (Word × ℕ)) :=
  if max.slt min then
    .error (lit "rand: int(" ++ d_text min ++ lit ", " ++ d_text max ++ lit "): min is greater than max")
  else
    let span := max - min
    .ok (attempts draw min span (mask_for span) fuel 0)

/-- What an attempt at a value from `min` through `max` answers. -/
def answer (min max drawn : Word) : Option Word := attempt min (max - min) (mask_for (max - min)) drawn

/-! ## The mask -/

theorem smear_bit {n m : Word} {s : ℕ} (h : ∀ i, m.getLsbD i = true ↔ ∃ t < s, n.getLsbD (i + t) = true) (i : ℕ) :
    (m ||| m >>> s).getLsbD i = true ↔ ∃ t < 2 * s, n.getLsbD (i + t) = true := by
  rw [BitVec.getLsbD_or, BitVec.getLsbD_ushiftRight, Bool.or_eq_true, h, h]
  constructor
  · rintro (⟨t, ht, hbit⟩ | ⟨t, ht, hbit⟩)
    · exact ⟨t, by omega, hbit⟩
    · exact ⟨s + t, by omega, by rwa [show i + (s + t) = s + i + t by omega]⟩
  · rintro ⟨t, ht, hbit⟩
    by_cases hs : t < s
    · exact .inl ⟨t, hs, hbit⟩
    · exact .inr ⟨t - s, by omega, by rwa [show s + i + (t - s) = i + t by omega]⟩

theorem mask_for_bit (n : Word) (i : ℕ) : (mask_for n).getLsbD i = true ↔ 2 ^ i ≤ n.toNat := by
  have h₀ : ∀ i, n.getLsbD i = true ↔ ∃ t < 1, n.getLsbD (i + t) = true :=
    fun i => ⟨fun h => ⟨0, by decide, h⟩, fun ⟨t, ht, h⟩ => by rwa [Nat.lt_one_iff.mp ht] at h⟩
  have hall := smear_bit (smear_bit (smear_bit (smear_bit (smear_bit (smear_bit h₀))))) i
  refine hall.trans ⟨fun ⟨t, _, ht⟩ => ?_, fun h => ?_⟩
  · calc
      2 ^ i ≤ 2 ^ (i + t) := Nat.pow_le_pow_right (by decide) (by omega)
      _ ≤ n.toNat := ge_two_pow_of_testBit ht
  · obtain ⟨j, hj, hbit⟩ := exists_ge_and_testBit_of_ge_two_pow h
    have hj' := BitVec.lt_of_getLsbD hbit
    exact ⟨j - i, by omega, by rwa [show i + (j - i) = j by omega]⟩

theorem mask_for_toNat (n : Word) : (mask_for n).toNat = 2 ^ n.toNat.size - 1 := by
  refine eq_of_testBit_eq fun i => ?_
  rw [testBit_two_pow_sub_one, Bool.eq_iff_iff, decide_eq_true_iff, Nat.lt_size]
  exact mask_for_bit n i

theorem mask_for_least (n : Word) : IsLeast {m : ℕ | (∃ k, m = 2 ^ k - 1) ∧ n.toNat ≤ m} (mask_for n).toNat := by
  rw [mask_for_toNat]
  refine ⟨⟨⟨_, rfl⟩, ?_⟩, ?_⟩
  · have := Nat.lt_size_self n.toNat
    omega
  · rintro m ⟨⟨k, rfl⟩, hk⟩
    have hpos := Nat.two_pow_pos k
    have := Nat.pow_le_pow_right (show 0 < 2 by decide) (Nat.size_le.mpr (show n.toNat < 2 ^ k by omega))
    omega

theorem and_mask (d n : Word) : (d &&& mask_for n).toNat = d.toNat % 2 ^ n.toNat.size := by
  rw [BitVec.toNat_and, mask_for_toNat, and_two_pow_sub_one_eq_mod]

theorem size_dvd (n : Word) : 2 ^ n.toNat.size ∣ 2 ^ 64 := Nat.pow_dvd_pow 2 (Nat.size_le.mpr n.isLt)

/-! ## An attempt -/

theorem not_ult_iff {a b : Word} : ¬a.ult b = true ↔ b.toNat ≤ a.toNat := by
  rw [BitVec.ult, decide_eq_true_iff, Nat.not_lt]

theorem span_toNat {min max : Word} (h : min.toInt ≤ max.toInt) : ((max - min).toNat : ℤ) = max.toInt - min.toInt := by
  have h₁ := min.isLt
  have h₂ := max.isLt
  rw [BitVec.toInt_eq_toNat_cond, BitVec.toInt_eq_toNat_cond] at h ⊢
  rw [BitVec.toNat_sub]
  split at h <;> split <;> omega

section

variable {min max : Word}

theorem within_iff (h : min.toInt ≤ max.toInt) (v : Word) :
    (v - min).toNat ≤ (max - min).toNat ↔ min.toInt ≤ v.toInt ∧ v.toInt ≤ max.toInt := by
  have h₀ := v.isLt
  have h₁ := min.isLt
  have h₂ := max.isLt
  simp only [BitVec.toInt_eq_toNat_cond, BitVec.toNat_sub] at h ⊢
  split_ifs at h ⊢ <;> omega

theorem answer_iff (d v : Word) : answer min max d = some v ↔
    (v - min).toNat ≤ (max - min).toNat ∧ d.toNat % 2 ^ (max - min).toNat.size = (v - min).toNat := by
  rw [← and_mask]
  unfold answer attempt
  dsimp only
  generalize d &&& mask_for (max - min) = c
  have hv : min + c = v ↔ c.toNat = (v - min).toNat := by
    rw [BitVec.toNat_inj, eq_sub_iff_add_eq, add_comm]
  simp only [not_ult_iff]
  split
  next hc =>
    rw [some.injEq, hv]
    exact ⟨fun h => ⟨h ▸ hc, h⟩, fun h => h.2⟩
  next hc => exact iff_of_false nofun fun h => hc (h.2 ▸ h.1)

theorem answer_none_iff (d : Word) :
    answer min max d = none ↔ (max - min).toNat < d.toNat % 2 ^ (max - min).toNat.size := by
  rw [← and_mask]
  unfold answer attempt
  dsimp only
  simp only [not_ult_iff]
  split
  next hc => exact iff_of_false nofun (Nat.not_lt.mpr hc)
  next hc => exact iff_of_true rfl (Nat.not_le.mp hc)

theorem answers_card {v : Word} (hv : (v - min).toNat ≤ (max - min).toNat) :
    Nat.card {d // answer min max d = some v} = Nat.card {d // answer min max d = some min} := by
  have hlt := Nat.lt_size_self (max - min).toNat
  refine (Nat.card_congr ((Equiv.addRight (v - min)).subtypeEquiv fun d => ?_)).symm
  rw [answer_iff, answer_iff, sub_self, Equiv.coe_addRight, BitVec.toNat_add, mod_mod_of_dvd _ (size_dvd _)]
  generalize (v - min).toNat = c at *
  generalize 2 ^ (max - min).toNat.size = p at *
  have hc := Nat.mod_eq_of_lt (show c < p by omega)
  refine ⟨fun h => ⟨hv, ?_⟩, fun h => ⟨Nat.zero_le _, ?_⟩⟩
  · have h0 : d.toNat % p = 0 := h.2
    rw [add_mod, h0, Nat.zero_add, mod_mod, hc]
  · refine ModEq.add_right_cancel' c (show d.toNat + c ≡ 0 + c [MOD p] from ?_)
    rw [Nat.zero_add]
    exact h.2.trans hc.symm

theorem answers_half : 2 ^ 64 ≤ 2 * Nat.card {d // answer min max d ≠ none} := by
  have hfinite : Finite Word := Finite.of_equiv _ BitVec.equivFin.symm.toEquiv
  have htotal : Nat.card Word = 2 ^ 64 := by
    rw [Nat.card_congr BitVec.equivFin.toEquiv, Nat.card_fin]
  have hsplit := Nat.card_congr (Equiv.sumCompl fun d => answer min max d = none)
  rw [Nat.card_sum, htotal] at hsplit
  suffices Nat.card {d // answer min max d = none} ≤ Nat.card {d // answer min max d ≠ none} by
    have h : Nat.card {d // ¬answer min max d = none} = Nat.card {d // answer min max d ≠ none} := rfl
    omega
  have hlower : ∀ d, answer min max d = none →
      answer min max (d - BitVec.ofNat 64 (2 ^ ((max - min).toNat.size - 1))) ≠ none := by
    intro d hd
    obtain ⟨q, hq⟩ := size_dvd (max - min)
    rw [answer_none_iff] at hd
    rw [Ne, answer_none_iff, BitVec.toNat_sub d, mod_mod_of_dvd _ (size_dvd _), Nat.not_lt]
    generalize (max - min).toNat = s at *
    have hmod := Nat.mod_lt d.toNat (Nat.two_pow_pos s.size)
    cases hk : s.size with
    | zero =>
      rw [hk] at hd hmod
      omega
    | succ k =>
      have hlow : 2 ^ k ≤ s := Nat.lt_size.mp (by omega)
      rw [hk, pow_succ 2 k] at hd hmod hq
      rw [Nat.add_sub_cancel, BitVec.toNat_ofNat, pow_succ 2 k]
      generalize 2 ^ k = half at *
      have hrest := mod_add_div d.toNat (half * 2)
      have hq₀ : 0 < q := Nat.pos_of_ne_zero fun h => by rw [h] at hq; omega
      have hhalf : half * 2 ≤ 2 ^ 64 := hq ▸ Nat.le_mul_of_pos_right _ hq₀
      -- The draw is lowered within its rest.
      have heq : 2 ^ 64 - half % 2 ^ 64 + d.toNat =
          (d.toNat % (half * 2) - half) + half * 2 * (q + d.toNat / (half * 2)) := by
        rw [Nat.mod_eq_of_lt (by omega), Nat.mul_add, ← hq]
        omega
      rw [heq, add_mul_mod_self_left, Nat.mod_eq_of_lt (by omega)]
      omega
  exact Nat.card_le_card_of_injective (fun d => ⟨_, hlower d.1 d.2⟩) fun a b h =>
    Subtype.ext (sub_left_injective (congrArg Subtype.val h))

end

/-! ## The loop -/

theorem attempts_iff {draw : ℕ → Word} {min span mask v : Word} {fuel n last : ℕ} :
    attempts draw min span mask fuel n = some (v, last + 1) ↔ (n ≤ last ∧ last < n + fuel) ∧
      attempt min span mask (draw last) = some v ∧ ∀ i, n ≤ i → i < last → attempt min span mask (draw i) = none := by
  induction fuel generalizing n with
  | zero => exact iff_of_false nofun fun h => by omega
  | succ fuel ih =>
    unfold attempts
    cases hturn : attempt min span mask (draw n) with
    | none =>
      dsimp only
      rw [ih]
      constructor
      · rintro ⟨hlast, hv, hnone⟩
        refine ⟨by omega, hv, fun i hi hi' => ?_⟩
        rcases Nat.eq_or_lt_of_le hi with rfl | hlt
        · exact hturn
        · exact hnone i hlt hi'
      · rintro ⟨hlast, hv, hnone⟩
        have hne : n ≠ last := fun h => by rw [h, hv] at hturn; cases hturn
        exact ⟨by omega, hv, fun i hi hi' => hnone i (by omega) hi'⟩
    | some w =>
      dsimp only
      rw [some.injEq, Prod.mk.injEq, Nat.add_right_cancel_iff]
      constructor
      · rintro ⟨rfl, rfl⟩
        exact ⟨by omega, hturn, fun i hi hi' => by omega⟩
      · rintro ⟨hlast, hv, hnone⟩
        rcases Nat.eq_or_lt_of_le hlast.1 with rfl | hlt
        · exact ⟨some.inj (hturn.symm.trans hv), rfl⟩
        · rw [hnone n le_rfl hlt] at hturn
          cases hturn

/-- Drawing from `min` through `max` is uniform. -/
structure Fair (min max : Word) : Prop where
  /-- The answer is that of the first attempt that has one, whatever is drawn. -/
  first : ∀ draw fuel, ∃ r, uniform draw min max fuel = .ok r ∧ (∀ v, r ≠ some (v, 0)) ∧ ∀ v last,
    r = some (v, last + 1) ↔
      last < fuel ∧ answer min max (draw last) = some v ∧ ∀ i < last, answer min max (draw i) = none
  range : ∀ draw fuel v n, uniform draw min max fuel = .ok (some (v, n)) → min.toInt ≤ v.toInt ∧ v.toInt ≤ max.toInt
  /-- The values of the range have as many draws each. -/
  equal : ∃ count, 0 < count ∧ ∀ v : Word, min.toInt ≤ v.toInt → v.toInt ≤ max.toInt →
    Nat.card {d // answer min max d = some v} = count
  half : 2 ^ 64 ≤ 2 * Nat.card {d // answer min max d ≠ none}
  width : ((max - min).toNat : ℤ) = max.toInt - min.toInt
  mask : IsLeast {m : ℕ | (∃ k, m = 2 ^ k - 1) ∧ (max - min).toNat ≤ m} (mask_for (max - min)).toNat

theorem attempts_pos {draw : ℕ → Word} {min span mask v : Word} {fuel n : ℕ} :
    attempts draw min span mask fuel n ≠ some (v, 0) := by
  induction fuel generalizing n with
  | zero => nofun
  | succ fuel ih =>
    unfold attempts
    split
    next => nofun
    next => exact ih

theorem uniform_fair {min max : Word} (h : min.toInt ≤ max.toInt) : Fair min max := by
  have hok : ∀ draw fuel, uniform draw min max fuel =
      .ok (attempts draw min (max - min) (mask_for (max - min)) fuel 0) := by
    intro draw fuel
    unfold uniform
    rw [if_neg (by rw [BitVec.slt, decide_eq_true_iff]; omega)]
  have hfirst : ∀ draw fuel v last, attempts draw min (max - min) (mask_for (max - min)) fuel 0 = some (v, last + 1) ↔
      last < fuel ∧ answer min max (draw last) = some v ∧ ∀ i < last, answer min max (draw i) = none := by
    intro draw fuel v last
    rw [attempts_iff, Nat.zero_add]
    exact ⟨fun ⟨hl, hv, hn⟩ => ⟨hl.2, hv, fun i => hn i (Nat.zero_le i)⟩,
      fun ⟨hl, hv, hn⟩ => ⟨⟨Nat.zero_le _, hl⟩, hv, fun i _ => hn i⟩⟩
  exact {
    first := fun draw fuel => ⟨_, hok draw fuel, fun v => attempts_pos, hfirst draw fuel⟩
    range := fun draw fuel v n hv => by
      rw [hok, Except.ok.injEq] at hv
      cases n with
      | zero => exact absurd hv attempts_pos
      | succ last => exact (within_iff h v).mp ((answer_iff _ v).mp ((hfirst draw fuel v last).mp hv).2.1).1
    equal := by
      refine ⟨_, ?_, fun v h₁ h₂ => answers_card ((within_iff h v).mpr ⟨h₁, h₂⟩)⟩
      have : Finite Word := Finite.of_equiv _ BitVec.equivFin.symm.toEquiv
      have : Nonempty {d // answer min max d = some min} :=
        ⟨0, (answer_iff 0 min).mpr (by rw [sub_self]; exact ⟨Nat.zero_le _, Nat.zero_mod _⟩)⟩
      exact Nat.card_pos
    half := answers_half
    width := span_toNat h
    mask := mask_for_least _ }

/-- All integers are a range. -/
theorem uniform_fair_all : Fair (BitVec.intMin 64) (BitVec.intMax 64) := uniform_fair (by decide)

end Cosmic.Rand
