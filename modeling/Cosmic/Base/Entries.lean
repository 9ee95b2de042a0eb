/-
Tables a program only looks up: what is entered at each key, with no order among the keys.
-/
import Mathlib.Logic.Basic

set_option autoImplicit false

namespace Cosmic.Base

open List Bool

/-- What is entered at each key, if anything is. -/
abbrev Entries (κ α : Type) : Type := κ → Option α

namespace Entries

variable {κ α : Type} [DecidableEq κ]

def none_entered : Entries κ α := fun _ => none

def enter (t : Entries κ α) (k : κ) (x : α) : Entries κ α := fun k' => if k' = k then some x else t k'

def clear (t : Entries κ α) (k : κ) : Entries κ α := fun k' => if k' = k then none else t k'

@[simp] theorem enter_self (t : Entries κ α) (k : κ) (x : α) : t.enter k x k = some x := if_pos rfl

variable {t : Entries κ α}

theorem enter_ne {k k' : κ} (h : k' ≠ k) (x : α) : t.enter k x k' = t k' := if_neg h

@[simp] theorem clear_self (t : Entries κ α) (k : κ) : t.clear k k = none := if_pos rfl

theorem clear_ne {k k' : κ} (h : k' ≠ k) : t.clear k k' = t k' := if_neg h

/-- Clearing what was entered at a new key takes it back. -/
theorem clear_enter {k : κ} (h : t k = none) (x : α) : (t.enter k x).clear k = t := by
  funext k'
  by_cases hk : k' = k
  · rw [hk, clear_self, h]
  · rw [clear_ne hk, enter_ne hk]

/-- Entering again what was cleared puts it back. -/
theorem enter_clear {k : κ} {x : α} (h : t k = some x) : (t.clear k).enter k x = t := by
  funext k'
  by_cases hk : k' = k
  · rw [hk, enter_self, h]
  · rw [enter_ne hk, clear_ne hk]

/-- Entering what is there changes nothing. -/
theorem enter_same {k : κ} {x : α} (h : t k = some x) : t.enter k x = t := by
  funext k'
  by_cases hk : k' = k
  · rw [hk, enter_self, h]
  · rw [enter_ne hk]

theorem enter_enter {k : κ} (x y : α) : (t.enter k x).enter k y = t.enter k y := by
  funext k'
  by_cases hk : k' = k
  · rw [hk, enter_self, enter_self]
  · rw [enter_ne hk, enter_ne hk, enter_ne hk]

end Entries

/-!
Edits of a keyed table, in order.

What is at a key after edits is what the last edit that says something of the key says, and what
was there before where none does.
-/

/-- One edit of a table from `κ` to `α`. -/
inductive Edit (κ α : Type) where
  | set (k : κ) (x : α)
  | delete (k : κ)
  | clear

section

variable {κ α : Type} [DecidableEq κ]

def Edit.apply (t : Entries κ α) : Edit κ α → Entries κ α
  | .set k x => t.enter k x
  | .delete k => t.clear k
  | .clear => Entries.none_entered

def edited (t : Entries κ α) (es : List (Edit κ α)) : Entries κ α := es.foldl Edit.apply t

/-- The edit says what is at the key. -/
def Edit.touches (k : κ) : Edit κ α → Bool
  | .set k' _ => k = k'
  | .delete k' => k = k'
  | .clear => true

@[simp] theorem edited_nil (t : Entries κ α) : edited t [] = t := rfl

theorem edited_append (t : Entries κ α) (es es' : List (Edit κ α)) :
    edited t (es ++ es') = edited (edited t es) es' :=
  foldl_append

@[simp] theorem edited_one (t : Entries κ α) (e : Edit κ α) : edited t [e] = e.apply t := rfl

theorem Edit.apply_touched {e : Edit κ α} {k : κ} (h : e.touches k = true) (t t' : Entries κ α) :
    e.apply t k = e.apply t' k := by
  cases e with
  | set k' x =>
    rw [of_decide_eq_true h]
    simp [Edit.apply]
  | delete k' =>
    rw [of_decide_eq_true h]
    simp [Edit.apply]
  | clear => rfl

theorem Edit.apply_untouched {e : Edit κ α} {k : κ} (h : e.touches k = false) (t : Entries κ α) :
    e.apply t k = t k := by
  cases e with
  | set k' x => exact Entries.enter_ne (of_decide_eq_false h) x
  | delete k' => exact Entries.clear_ne (of_decide_eq_false h)
  | clear => cases h

theorem edited_untouched {es : List (Edit κ α)} {k : κ} (h : ∀ e ∈ es, e.touches k = false)
    (t : Entries κ α) : edited t es k = t k := by
  induction es generalizing t with
  | nil => rfl
  | cons e es ih =>
    have hrest : ∀ e' ∈ es, e'.touches k = false := fun e' he => h e' (mem_cons_of_mem e he)
    exact (ih hrest (e.apply t)).trans (Edit.apply_untouched (h e mem_cons_self) t)

theorem edited_touched {es : List (Edit κ α)} {k : κ} (h : ∃ e ∈ es, e.touches k = true)
    (t t' : Entries κ α) : edited t es k = edited t' es k := by
  induction es generalizing t t' with
  | nil =>
    obtain ⟨e, he, -⟩ := h
    cases he
  | cons e es ih =>
    by_cases hrest : ∃ e' ∈ es, e'.touches k = true
    · exact ih hrest _ _
    -- the first edit is the last that touches the key
    · have hnone : ∀ e' ∈ es, e'.touches k = false := by
        intro e' he
        exact eq_false_iff.mpr fun htouch => hrest ⟨e', he, htouch⟩
      have hfirst : e.touches k = true := by
        obtain ⟨e', he, htouch⟩ := h
        rcases mem_cons.mp he with rfl | he
        · exact htouch
        · exact absurd ⟨e', he, htouch⟩ hrest
      have hboth := Edit.apply_touched hfirst t t'
      exact (edited_untouched hnone _).trans (hboth.trans (edited_untouched hnone _).symm)

/-- What is at a key after edits depends on what was there alone. -/
theorem edited_congr {t t' : Entries κ α} {k : κ} (h : t k = t' k) (es : List (Edit κ α)) :
    edited t es k = edited t' es k := by
  by_cases htouch : ∃ e ∈ es, e.touches k = true
  · exact edited_touched htouch t t'
  · have hnone : ∀ e ∈ es, e.touches k = false := by
      intro e he
      exact eq_false_iff.mpr fun hk => htouch ⟨e, he, hk⟩
    rw [edited_untouched hnone, edited_untouched hnone, h]

end

end Cosmic.Base
