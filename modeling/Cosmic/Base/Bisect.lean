/-
Bisection: the three loops by which a place is found in an ascending order.

Each keeps an interval that holds the place and halves it; they differ in which end is known to
pass the test and which way the middle is rounded. What a loop finds is said with the place itself,
`T`: where the test holds on the interval exactly from `T` on, or up to `T`, the loop finds `T`, or
the interval's end where `T` is past it.
-/
import Mathlib.Data.Int.Notation
import Mathlib.Data.Nat.Notation
import Mathlib.Order.Defs.LinearOrder

set_option autoImplicit false

namespace Cosmic.Base

/-! ## The loops -/

/-- `while lo < hi do mid = (lo + hi + 1) // 2; if p(mid) then lo = mid else hi = mid - 1`, for at
most as many rounds as given. -/
def last_passing (p : ℕ → Bool) : ℕ → ℕ → ℕ → ℕ
  | 0, lo, _ => lo
  | rounds + 1, lo, hi =>
    if lo < hi then
      let mid := (lo + hi + 1) / 2
      if p mid then last_passing p rounds mid hi else last_passing p rounds lo (mid - 1)
    else lo

/-- `while lo < hi do mid = (lo + hi) // 2; if p(mid) then hi = mid else lo = mid + 1` -/
def first_passing (p : ℕ → Bool) : ℕ → ℕ → ℕ → ℕ
  | 0, lo, _ => lo
  | rounds + 1, lo, hi =>
    if lo < hi then
      let mid := (lo + hi) / 2
      if p mid then first_passing p rounds lo mid else first_passing p rounds (mid + 1) hi
    else lo

/-- `while hi - lo > 1 do mid = (lo + hi) // 2; if p(mid) then hi = mid else lo = mid` -/
def close_in (p : ℤ → Bool) : ℕ → ℤ → ℤ → ℤ
  | 0, _, hi => hi
  | rounds + 1, lo, hi =>
    if hi - lo > 1 then
      let mid := (lo + hi) / 2
      if p mid then close_in p rounds lo mid else close_in p rounds mid hi
    else hi

/-! ## What they find -/

theorem last_passing_eq {p : ℕ → Bool} {T rounds lo hi : ℕ} (hp : ∀ x, lo < x → x ≤ hi → (p x = true ↔ x ≤ T))
    (hlo : lo ≤ T) (hle : lo ≤ hi) (hrounds : hi - lo ≤ rounds) : last_passing p rounds lo hi = min T hi := by
  induction rounds generalizing lo hi with
  | zero =>
    unfold last_passing
    omega
  | succ rounds ih =>
    unfold last_passing
    by_cases hlt : lo < hi
    · rw [if_pos hlt]
      have hmid := hp ((lo + hi + 1) / 2) (by omega) (by omega)
      by_cases hpass : p ((lo + hi + 1) / 2) = true
      · rw [if_pos hpass, ih (fun x h₁ h₂ => hp x (by omega) h₂) (hmid.mp hpass) (by omega) (by omega)]
      · have hpast := mt hmid.mpr hpass
        rw [if_neg hpass, ih (fun x h₁ h₂ => hp x h₁ (by omega)) hlo (by omega) (by omega)]
        omega
    · rw [if_neg hlt]
      omega

theorem first_passing_eq {p : ℕ → Bool} {T rounds lo hi : ℕ} (hp : ∀ x, lo ≤ x → x < hi → (p x = true ↔ T ≤ x))
    (hlo : lo ≤ T) (hle : lo ≤ hi) (hrounds : hi - lo ≤ rounds) : first_passing p rounds lo hi = min T hi := by
  induction rounds generalizing lo hi with
  | zero =>
    unfold first_passing
    omega
  | succ rounds ih =>
    unfold first_passing
    by_cases hlt : lo < hi
    · rw [if_pos hlt]
      have hmid := hp ((lo + hi) / 2) (by omega) (by omega)
      by_cases hpass : p ((lo + hi) / 2) = true
      · have hbefore := hmid.mp hpass
        rw [if_pos hpass, ih (fun x h₁ h₂ => hp x h₁ (by omega)) hlo (by omega) (by omega)]
        omega
      · have hpast := mt hmid.mpr hpass
        rw [if_neg hpass, ih (fun x h₁ h₂ => hp x (by omega) h₂) (by omega) (by omega) (by omega)]
    · rw [if_neg hlt]
      omega

theorem close_in_eq {p : ℤ → Bool} {T lo hi : ℤ} {rounds : ℕ} (hp : ∀ x, lo < x → x < hi → (p x = true ↔ T ≤ x))
    (hlo : lo < T) (hlt : lo < hi) (hrounds : hi - lo ≤ rounds + 1) : close_in p rounds lo hi = min T hi := by
  induction rounds generalizing lo hi with
  | zero =>
    unfold close_in
    omega
  | succ rounds ih =>
    unfold close_in
    by_cases hfar : hi - lo > 1
    · rw [if_pos hfar]
      have hmid := hp ((lo + hi) / 2) (by omega) (by omega)
      by_cases hpass : p ((lo + hi) / 2) = true
      · have hbefore := hmid.mp hpass
        rw [if_pos hpass, ih (fun x h₁ h₂ => hp x h₁ (by omega)) hlo (by omega) (by omega)]
        omega
      · have hpast := mt hmid.mpr hpass
        rw [if_neg hpass, ih (fun x h₁ h₂ => hp x (by omega) h₂) (by omega) (by omega) (by omega)]
    · rw [if_neg hfar]
      omega

end Cosmic.Base
