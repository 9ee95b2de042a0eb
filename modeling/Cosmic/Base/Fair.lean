/-
Runs without an end, and what a fair one comes to.

A system is its step: what an event makes of a state, none where the event cannot be. No event raises a
rank, and those that act lower it; so what acts again and again until it is done gets done.
-/
import Mathlib.Order.WellFounded

set_option autoImplicit false

namespace Cosmic.Base

variable {σ ε α : Type*} {step : σ → ε → Option σ}

/-- A run without an end: its states, and the event that each goes on with. -/
structure Endless (step : σ → ε → Option σ) where
  state : ℕ → σ
  event : ℕ → ε
  goes : ∀ n, step (state n) (event n) = some (state (n + 1))

theorem Endless.keeps (run : Endless step) {Inv : σ → Prop}
    (hstep : ∀ s e s', Inv s → step s e = some s' → Inv s') {n : ℕ} (h : Inv (run.state n)) :
    ∀ k, Inv (run.state (n + k)) := by
  intro k
  induction k with
  | zero => exact h
  | succ k ih => exact hstep _ _ _ ih (run.goes (n + k))

theorem Endless.done [Preorder α] [WellFoundedLT α] (run : Endless step) (rank : σ → α) (Inv Done : σ → Prop)
    (acts : ε → Prop) (hkeep : ∀ s e s', Inv s → step s e = some s' → Inv s')
    (hrank : ∀ s e s', Inv s → step s e = some s' → rank s' ≤ rank s)
    (hacts : ∀ s e s', Inv s → acts e → step s e = some s' → rank s' < rank s)
    (hfair : ∀ n, Inv (run.state n) → ¬Done (run.state n) → ∃ k, acts (run.event (n + k))) {n : ℕ}
    (hinv : Inv (run.state n)) : ∃ k, Done (run.state (n + k)) := by
  induction hr : rank (run.state n) using WellFoundedLT.induction generalizing n with
  | ind r ih =>
    by_cases hdone : Done (run.state n)
    · exact ⟨0, hdone⟩
    obtain ⟨k, hk⟩ := hfair n hinv hdone
    have hle : ∀ j, rank (run.state (n + j)) ≤ rank (run.state n) := by
      intro j
      induction j with
      | zero => exact le_rfl
      | succ j ihj => exact (hrank _ _ _ (run.keeps hkeep hinv j) (run.goes (n + j))).trans ihj
    -- the event that acts is the next that lowers the rank for good
    have hlt := (hacts _ _ _ (run.keeps hkeep hinv k) hk (run.goes (n + k))).trans_le (hle k)
    obtain ⟨j, hj⟩ := ih _ (hr ▸ hlt) (run.keeps hkeep hinv (k + 1)) rfl
    refine ⟨k + 1 + j, ?_⟩
    rwa [← Nat.add_assoc]

end Cosmic.Base
