/-
Loops that stop: the `while` loop of an imperative program, and its total-correctness rule.

One round of a loop goes on with a new state, stops with a result, or raises. A loop is given
a number of rounds it may take; the rule shows at once that it needs no more than that, that it
does not raise, and what holds of its result.
-/
import Mathlib.Data.Nat.Notation

set_option autoImplicit false

namespace Cosmic.Base

open Option

variable {σ ρ : Type}

/-- What one round of a loop leaves: a state to go on from, or the loop's result. -/
inductive Round (σ ρ : Type) where
  | next (s : σ)
  | done (r : ρ)

/-- Runs `round` from `s` until it is done. `none` where a round raises, or where `fuel` rounds do
not get there. -/
def loop (round : σ → Option (Round σ ρ)) : ℕ → σ → Option ρ
  | 0, _ => none
  | fuel + 1, s =>
    match round s with
    | none => none
    | some (.next s') => loop round fuel s'
    | some (.done r) => some r

/-- A round from `s` goes on to a state of `Inv` with less `left`, or stops with a result of
`Post`. -/
def Advances (round : σ → Option (Round σ ρ)) (Inv : σ → Prop) (left : σ → ℕ) (Post : ρ → Prop) (s : σ) : Prop :=
  (∃ s', round s = some (.next s') ∧ Inv s' ∧ left s' < left s) ∨ ∃ r, round s = some (.done r) ∧ Post r

/-- The total-correctness rule: a loop whose rounds keep `Inv` and use up `left` ends with a result
of `Post`, given one round more than there is `left`. -/
theorem loop_total {round : σ → Option (Round σ ρ)} {Inv : σ → Prop} {left : σ → ℕ}
    {Post : ρ → Prop} (hround : ∀ s, Inv s → Advances round Inv left Post s)
    (fuel : ℕ) (s : σ) (hs : Inv s) (hfuel : left s < fuel) :
    ∃ r, loop round fuel s = some r ∧ Post r := by
  induction fuel generalizing s with
  | zero => exact absurd hfuel (Nat.not_lt_zero _)
  | succ fuel ih =>
    rcases hround s hs with ⟨s', hnext, hinv, hless⟩ | ⟨r, hdone, hpost⟩
    · obtain ⟨r, hr, hpost⟩ := ih s' hinv (Nat.lt_of_lt_of_le hless (Nat.le_of_lt_succ hfuel))
      refine ⟨r, ?_, hpost⟩
      simp only [loop, hnext, hr]
    · refine ⟨r, ?_, hpost⟩
      simp only [loop, hdone]

/-- The total-correctness rule of two loops: rounds that keep their states related end with results
related by `Post`. -/
theorem loop_total₂ {τ : Type} {round : σ → Option (Round σ ρ)} {round' : τ → Option (Round τ ρ)}
    {Rel : σ → τ → Prop} {left : σ → ℕ} {Post : ρ → ρ → Prop}
    (hround : ∀ s t, Rel s t → (∃ s' t', round s = some (.next s') ∧ round' t = some (.next t') ∧ Rel s' t' ∧
        left s' < left s) ∨
        ∃ p q, round s = some (.done p) ∧ round' t = some (.done q) ∧ Post p q)
    (fuel : ℕ) (s : σ) (t : τ) (hst : Rel s t) (hfuel : left s < fuel) :
    ∃ p q, loop round fuel s = some p ∧ loop round' fuel t = some q ∧ Post p q := by
  induction fuel generalizing s t with
  | zero => exact absurd hfuel (Nat.not_lt_zero _)
  | succ fuel ih =>
    rcases hround s t hst with ⟨s', t', hs, ht, hrel, hless⟩ | ⟨p, q, hs, ht, hpost⟩
    · obtain ⟨p, q, hp, hq, hpost⟩ := ih s' t' hrel (Nat.lt_of_lt_of_le hless (Nat.le_of_lt_succ hfuel))
      refine ⟨p, q, ?_, ?_, hpost⟩
      · simp only [loop, hs, hp]
      · simp only [loop, ht, hq]
    · refine ⟨p, q, ?_, ?_, hpost⟩
      · simp only [loop, hs]
      · simp only [loop, ht]

/-- The partial-correctness rule: what `round` carries back from the state after a round to the
state before it holds of the first state of a loop that ends. -/
theorem loop_back {round : σ → Option (Round σ ρ)} {Rel : σ → ρ → Prop}
    (hdone : ∀ s r, round s = some (.done r) → Rel s r)
    (hnext : ∀ s s' r, round s = some (.next s') → Rel s' r → Rel s r)
    {fuel : ℕ} {s : σ} {r : ρ} (h : loop round fuel s = some r) : Rel s r := by
  induction fuel generalizing s with
  | zero => cases h
  | succ fuel ih =>
    rw [loop] at h
    split at h
    · cases h
    · next s' hs' => exact hnext s s' r hs' (ih h)
    · next r' hr' => exact hdone s r (by rw [hr', some.inj h])

/-- The rounds from `s` end with `r`. -/
inductive Yields (round : σ → Option (Round σ ρ)) : σ → ρ → Prop
  | done {s : σ} {r : ρ} (h : round s = some (.done r)) : Yields round s r
  | next {s s' : σ} {r : ρ} (h : round s = some (.next s')) (hr : Yields round s' r) : Yields round s r

/-- A loop that ends has the result its rounds end with. -/
theorem Yields.loop_eq {round : σ → Option (Round σ ρ)} {s : σ} {r r' : ρ} (h : Yields round s r) {fuel : ℕ}
    (hloop : loop round fuel s = some r') : r' = r := by
  induction h generalizing fuel with
  | done h =>
    cases fuel with
    | zero => cases hloop
    | succ fuel =>
      rw [loop, h] at hloop
      exact (some.inj hloop).symm
  | next h _ ih =>
    cases fuel with
    | zero => cases hloop
    | succ fuel =>
      rw [loop, h] at hloop
      exact ih hloop

end Cosmic.Base
