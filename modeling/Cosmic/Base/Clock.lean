/-
A clock that is ahead of the true time by an amount that changes now and then.

At the moment `t` the clock shows `t + off t`. It is never `w` or more from the true time, and its
changes are twice `w` or further apart. So near a moment it changes once at most, and a reading that
the clock never shows is one that a change skipped: before it the clock shows less and from it more.
-/
import Mathlib.Data.Int.Notation
import Mathlib.Data.Int.Order.Basic
import Mathlib.Order.Bounds.Basic

set_option autoImplicit false

namespace Cosmic.Base

/-- A clock within `w` of the true time that is changed no more often than every `2 * w`. -/
structure Clock (off : ℤ → ℤ) (w : ℤ) : Prop where
  near : ∀ t, -w < off t ∧ off t < w
  rare : ∀ a b, off (a - 1) ≠ off a → off (b - 1) ≠ off b → a < b → 2 * w ≤ b - a

/-- The change at `t` skips the reading `m`. -/
def Skips (off : ℤ → ℤ) (m t : ℤ) : Prop := t + off (t - 1) ≤ m ∧ m < t + off t

section

variable {off : ℤ → ℤ} {w : ℤ}

/-! ## Near a moment -/

theorem steady {a b : ℤ} (hab : a ≤ b) (h : ∀ t, a < t → t ≤ b → off (t - 1) = off t) : off b = off a := by
  obtain ⟨n, rfl⟩ := Int.le.dest hab
  induction n with
  | zero => rw [Int.natCast_zero, Int.add_zero]
  | succ n ih =>
    have hlast := h (a + (n + 1 : ℕ)) (by omega) le_rfl
    rw [show a + ((n + 1 : ℕ) : ℤ) - 1 = a + n by omega] at hlast
    rw [← hlast]
    exact ih (by omega) fun t h₁ h₂ => h t h₁ (by omega)

theorem Clock.after_change (h : Clock off w) {c t : ℤ} (hc : off (c - 1) ≠ off c) (h₁ : c ≤ t) (h₂ : t < c + 2 * w) :
    off t = off c := by
  refine steady h₁ fun u hu₁ hu₂ => ?_
  by_contra hu
  have := h.rare c u hc hu hu₁
  omega

theorem Clock.around (h : Clock off w) (m : ℤ) : (∀ t, m - w ≤ t → t ≤ m + w → off t = off (m - w)) ∨
      ∃ c, m - w < c ∧ c ≤ m + w ∧ off (c - 1) ≠ off c ∧ (∀ t, m - w ≤ t → t < c → off t = off (c - 1)) ∧
        ∀ t, c ≤ t → t ≤ m + w → off t = off c := by
  by_cases hchange : ∃ c, m - w < c ∧ c ≤ m + w ∧ off (c - 1) ≠ off c
  · obtain ⟨c, h₁, h₂, hc⟩ := hchange
    have honly : ∀ t, m - w < t → t < c → off (t - 1) = off t := by
      intro t ht₁ hlt
      by_contra ht
      have := h.rare t c ht hc hlt
      omega
    refine .inr ⟨c, h₁, h₂, hc, fun t ht₁ ht₂ => ?_, fun t ht₁ ht₂ => ?_⟩
    · exact (steady (by omega) fun u hu₁ hu₂ => honly u (by omega) (by omega)).symm
    · exact h.after_change hc ht₁ (by omega)
  · refine .inl fun t ht₁ ht₂ => steady ht₁ fun u hu₁ hu₂ => ?_
    by_contra hu
    exact hchange ⟨u, hu₁, by omega, hu⟩

/-! ## When a reading is reached -/

/-- Before the first moment the clock shows `m` at, it shows less. -/
theorem Clock.before_reading (h : Clock off w) {m t : ℤ} (ht : IsLeast {t | t + off t = m} t) {u : ℤ} (hu : u < t) :
    u + off u < m := by
  have hread : t + off t = m := ht.1
  have hleast : ∀ v, v + off v = m → t ≤ v := fun v hv => ht.2 hv
  have hnear := h.near
  have hu' := hnear u
  have ht' := hnear t
  by_contra hge
  rcases h.around m with hsame | ⟨c, hc₁, hc₂, -, hbefore, hafter⟩
  · have h₁ := hsame u (by omega) (by omega)
    have h₂ := hsame t (by omega) (by omega)
    omega
  by_cases huc : u < c
  · have h₁ := hbefore u (by omega) huc
    by_cases htc : t < c
    · have h₂ := hbefore t (by omega) htc
      omega
    · have h₂ := hbefore (m - off (c - 1)) (by rw [← h₁]; omega) (by omega)
      have := hleast (m - off (c - 1)) (by omega)
      omega
  · have h₁ := hafter u (by omega) (by omega)
    have h₂ := hafter t (by omega) (by omega)
    omega

theorem Clock.skips_near (h : Clock off w) {m c : ℤ} (hc : Skips off m c) : m - w < c ∧ c < m + w := by
  have h₁ := h.near c
  have h₂ := h.near (c - 1)
  unfold Skips at hc
  omega

theorem Clock.skipped (h : Clock off w) {m c : ℤ} (hc : Skips off m c) :
    (∀ t, m - w ≤ t → t < c → off t = off (c - 1)) ∧ (∀ t, c ≤ t → t ≤ m + w → off t = off c) := by
  obtain ⟨h₁, h₂⟩ := h.skips_near hc
  unfold Skips at hc
  rcases h.around m with hsame | ⟨c', hc₁, hc₂, -, hbefore, hafter⟩
  · have h₃ := hsame c (by omega) (by omega)
    have h₄ := hsame (c - 1) (by omega) (by omega)
    omega
  obtain rfl : c' = c := by
    rcases lt_trichotomy c' c with hlt | heq | hlt
    · have h₃ := hafter c (by omega) (by omega)
      have h₄ := hafter (c - 1) (by omega) (by omega)
      omega
    · exact heq
    · have h₃ := hbefore c (by omega) (by omega)
      have h₄ := hbefore (c - 1) (by omega) (by omega)
      omega
  exact ⟨hbefore, hafter⟩

/-- The clock never shows what a change skips. -/
theorem Clock.not_reading (h : Clock off w) {m c : ℤ} (hc : Skips off m c) (t : ℤ) : t + off t ≠ m := by
  obtain ⟨hbefore, hafter⟩ := h.skipped hc
  have ht := h.near t
  unfold Skips at hc
  intro hread
  by_cases htc : t < c
  · have := hbefore t (by omega) htc
    omega
  · have := hafter t (by omega) (by omega)
    omega

/-- A reading that the clock never shows is one that a change skips. -/
theorem Clock.exists_skips (h : Clock off w) {m : ℤ} (hm : ∀ t, t + off t ≠ m) : ∃ c, Skips off m c := by
  have hnear := h.near
  rcases h.around m with hsame | ⟨c, hc₁, hc₂, -, hbefore, hafter⟩
  · have ho := hnear (m - w)
    have h₁ := hsame (m - off (m - w)) (by omega) (by omega)
    have := hm (m - off (m - w))
    omega
  refine ⟨c, ?_⟩
  have ho₁ := hnear (c - 1)
  have ho₂ := hnear c
  have hle : c ≤ m - off (c - 1) := by
    by_contra hlt
    have h₁ := hbefore (m - off (c - 1)) (by omega) (by omega)
    have := hm (m - off (c - 1))
    omega
  have hlt : m - off c < c := by
    by_contra hge
    have h₁ := hafter (m - off c) (by omega) (by omega)
    have := hm (m - off c)
    omega
  unfold Skips
  omega

/-- Before the change that skips `m` the clock shows less. -/
theorem Clock.before_skip (h : Clock off w) {m c : ℤ} (hc : Skips off m c) {u : ℤ} (hu : u < c) : u + off u < m := by
  obtain ⟨hbefore, -⟩ := h.skipped hc
  have hu' := h.near u
  unfold Skips at hc
  by_contra hge
  have := hbefore u (by omega) hu
  omega

end

end Cosmic.Base
