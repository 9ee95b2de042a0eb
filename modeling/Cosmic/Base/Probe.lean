/-
A set in an array of slots, searched from each element's own slot on.

An element stands in the first slot, from its own on and around the end, that was empty when it
entered. No slot is emptied again, so every slot between an element's own and the one it stands in
stays full, and a search for it never stops short.
-/
import Cosmic.Base.Entries
import Mathlib.Data.Finset.Card
import Mathlib.Data.Finset.Range
import Mathlib.Data.Nat.Find
import Mathlib.Data.Nat.ModEq

set_option autoImplicit false

namespace Cosmic.Base

open List Option Nat

/-- Where a search ends: at the element, or at the empty slot where it may enter. -/
inductive Slot where
  | holds
  | free (i : ℕ)
deriving DecidableEq

section

variable {α : Type} [DecidableEq α]

/-- Searches for `x` from slot `i` on, `fuel` slots at most of `m`. -/
def probe (m : ℕ) (set : Entries ℕ α) (x : α) : ℕ → ℕ → Option Slot
  | 0, _ => none
  | fuel + 1, i =>
    match set i with
    | none => some (.free i)
    | some y => if y = x then some .holds else probe m set x fuel ((i + 1) % m)

/-- `xs` entered into a set of `m` slots, each from its own slot `home`. -/
structure Probed (home : α → ℕ) (m : ℕ) (set : Entries ℕ α) (xs : List α) : Prop where
  /-- What a slot holds is one of them. -/
  sound : ∀ i x, set i = some x → x ∈ xs
  /-- Each is found after full slots alone. -/
  linked : ∀ x ∈ xs, ∃ k < m, set ((home x + k) % m) = some x ∧ ∀ j < k, set ((home x + j) % m) ≠ none
  /-- There are no more full slots than elements. -/
  full : ∃ used : Finset ℕ, used.card ≤ xs.length ∧ ∀ i, set i ≠ none → i ∈ used

variable {home : α → ℕ} {m : ℕ} {set : Entries ℕ α} {xs : List α}

omit [DecidableEq α] in
theorem probed_nil (home : α → ℕ) (m : ℕ) : Probed home m (Entries.none_entered : Entries ℕ α) [] where
  sound i x h := absurd h (by simp [Entries.none_entered])
  linked x h := absurd h not_mem_nil
  full := ⟨∅, le_rfl, fun i h => absurd rfl h⟩

/-! ## The search -/

theorem probe_skip {x : α} (h : ℕ) : ∀ (k : ℕ), (∀ j < k, ∃ y, set ((h + j) % m) = some y ∧ y ≠ x) →
    ∀ fuel, probe m set x (fuel + k) (h % m) = probe m set x fuel ((h + k) % m)
  | 0, _, fuel => rfl
  | k + 1, hfull, fuel => by
      obtain ⟨y, hy, hne⟩ := hfull k (Nat.lt_succ_self k)
      have hskip := probe_skip h k (fun j hj => hfull j (lt_succ_of_lt hj)) (fuel + 1)
      rw [show fuel + (k + 1) = fuel + 1 + k by omega, hskip, probe, hy]
      dsimp only
      rw [if_neg hne, mod_add_mod]
      rfl

/-- An element is found. -/
theorem Probed.probe_mem (hp : Probed home m set xs) {x : α} (h : x ∈ xs) :
    probe m set x m (home x % m) = some .holds := by
  obtain ⟨k, hk, hx, hfull⟩ := hp.linked x h
  -- the first slot from its own on that holds it
  have hex : ∃ k, set ((home x + k) % m) = some x := ⟨k, hx⟩
  let k₀ := Nat.find hex
  have hk₀ : set ((home x + k₀) % m) = some x := Nat.find_spec hex
  have hle : k₀ ≤ k := Nat.find_min' hex hx
  have hbefore : ∀ j < k₀, ∃ y, set ((home x + j) % m) = some y ∧ y ≠ x := by
    intro j hj
    obtain ⟨y, hy⟩ := ne_none_iff_exists'.mp (hfull j (lt_of_lt_of_le hj hle))
    refine ⟨y, hy, ?_⟩
    rintro rfl
    exact Nat.find_min hex hj hy
  have hskip := probe_skip (home x) k₀ hbefore (m - k₀ - 1 + 1)
  rw [show m - k₀ - 1 + 1 + k₀ = m by omega] at hskip
  rw [hskip, probe, hk₀]
  exact if_pos rfl

omit [DecidableEq α] in
theorem Probed.exists_free (hp : Probed home m set xs) (hm : xs.length < m) (h : ℕ) :
    ∃ k < m, set ((h + k) % m) = none := by
  by_contra hnone
  have hall : ∀ k < m, set ((h + k) % m) ≠ none := fun k hk hset => hnone ⟨k, hk, hset⟩
  obtain ⟨used, hcard, hused⟩ := hp.full
  have hinj : Set.InjOn (fun k => (h + k) % m) (Finset.range m : Set ℕ) := by
    intro a ha b hb hab
    rw [Finset.coe_range, Set.mem_Iio] at ha hb
    have hmod : a % m = b % m := ModEq.add_left_cancel' h hab
    rwa [Nat.mod_eq_of_lt ha, Nat.mod_eq_of_lt hb] at hmod
  have hsub : (Finset.range m).image (fun k => (h + k) % m) ⊆ used := by
    intro i hi
    obtain ⟨k, hk, rfl⟩ := Finset.mem_image.mp hi
    exact hused _ (hall k (Finset.mem_range.mp hk))
  have hle := Finset.card_le_card hsub
  rw [Finset.card_image_of_injOn hinj, Finset.card_range] at hle
  omega

/-- What is not in the set is not found: the search ends at an empty slot, after full ones. -/
theorem Probed.probe_not_mem (hp : Probed home m set xs) (hm : xs.length < m) {x : α} (h : x ∉ xs) :
    ∃ k < m, probe m set x m (home x % m) = some (.free ((home x + k) % m)) ∧
      set ((home x + k) % m) = none ∧ ∀ j < k, set ((home x + j) % m) ≠ none := by
  have hex := hp.exists_free hm (home x)
  have hspec := Nat.find_spec hex
  have hmin : ∀ j < Nat.find hex, set ((home x + j) % m) ≠ none := by
    intro j hj hset
    exact Nat.find_min hex hj ⟨lt_trans hj hspec.1, hset⟩
  refine ⟨Nat.find hex, hspec.1, ?_, hspec.2, hmin⟩
  have hbefore : ∀ j < Nat.find hex, ∃ y, set ((home x + j) % m) = some y ∧ y ≠ x := by
    intro j hj
    obtain ⟨y, hy⟩ := ne_none_iff_exists'.mp (hmin j hj)
    refine ⟨y, hy, ?_⟩
    rintro rfl
    exact h (hp.sound _ _ hy)
  have hskip := probe_skip (home x) _ hbefore (m - Nat.find hex - 1 + 1)
  rw [show m - Nat.find hex - 1 + 1 + Nat.find hex = m by omega] at hskip
  rw [hskip, probe, hspec.2]

omit [DecidableEq α] in
theorem Probed.enter (hp : Probed home m set xs) {x : α} {k : ℕ} (hk : k < m)
    (hfree : set ((home x + k) % m) = none) (hfull : ∀ j < k, set ((home x + j) % m) ≠ none) :
    Probed home m (set.enter ((home x + k) % m) x) (xs ++ [x]) := by
  have hkeep {i : ℕ} (hi : set i ≠ none) : set.enter ((home x + k) % m) x i = set i := by
    apply Entries.enter_ne
    rintro rfl
    exact hi hfree
  refine ⟨?_, ?_, ?_⟩
  · intro i y hy
    by_cases hi : i = (home x + k) % m
    · subst hi
      rw [Entries.enter_self] at hy
      exact mem_append_right _ (mem_singleton.mpr (some.inj hy).symm)
    · rw [Entries.enter_ne hi] at hy
      exact mem_append_left _ (hp.sound i y hy)
  · intro y hy
    rcases mem_append.mp hy with hy | hy
    · obtain ⟨n, hn, hset, hbefore⟩ := hp.linked y hy
      refine ⟨n, hn, ?_, ?_⟩
      · rw [hkeep (by rw [hset]; exact some_ne_none y), hset]
      · intro j hj
        rw [hkeep (hbefore j hj)]
        exact hbefore j hj
    · obtain rfl := mem_singleton.mp hy
      refine ⟨k, hk, Entries.enter_self _ _ _, ?_⟩
      intro j hj
      rw [hkeep (hfull j hj)]
      exact hfull j hj
  · obtain ⟨used, hcard, hused⟩ := hp.full
    refine ⟨insert ((home x + k) % m) used, ?_, ?_⟩
    · rw [length_append, length_singleton]
      exact le_trans (Finset.card_insert_le _ _) (Nat.add_le_add_right hcard 1)
    · intro i hi
      by_cases heq : i = (home x + k) % m
      · exact Finset.mem_insert.mpr (.inl heq)
      · rw [Entries.enter_ne heq] at hi
        exact Finset.mem_insert.mpr (.inr (hused i hi))

end

end Cosmic.Base
