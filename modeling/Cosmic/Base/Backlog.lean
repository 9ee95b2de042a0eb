/-
A bounded history: the last of what was entered, at consecutive indices of a table, and the stamp of the last entry that
had to go.
-/
import Cosmic.Base.Table

set_option autoImplicit false

namespace Cosmic.Base

open List Nat

/-- Entries at the indices from `first` to `last`, and the stamp of the last one evicted. -/
structure Backlog (α : Type) where
  cells : Table ℕ α
  first : ℕ
  last : ℕ
  evicted : ℕ

namespace Backlog

variable {α : Type}

def new : Backlog α := { cells := ∅, first := 1, last := 0, evicted := 0 }

/-- The backlog with `x` after its last entry. -/
def push (r : Backlog α) (x : α) : Backlog α := { r with cells := r.cells.insert (r.last + 1) x, last := r.last + 1 }

/-- Evicts the oldest entries until `limit` are left; `none` where an index holds none. A round evicts one, so as many
rounds as there are indices are enough. -/
def trim (limit : ℕ) (stamp : α → ℕ) : ℕ → Backlog α → Option (Backlog α)
  | 0, r => some r
  | rounds + 1, r =>
    if limit < r.last + 1 - r.first then
      match r.cells.lookup r.first with
      | none => none
      | some x =>
        trim limit stamp rounds { r with cells := r.cells.erase r.first, first := r.first + 1, evicted := stamp x }
    else some r

/-- Enters `x`, and evicts what is then over the limit. -/
def enter (limit : ℕ) (stamp : α → ℕ) (x : α) (r : Backlog α) : Option (Backlog α) :=
  trim limit stamp (r.last + 2 - r.first) (r.push x)

/-- The entries held, oldest first; `none` where an index holds none. -/
def held (r : Backlog α) : Option (List α) := (range' r.first (r.last + 1 - r.first)).mapM fun i => r.cells.lookup i

/-- The backlog holds `xs`, after `gone`. -/
structure Keeps (stamp : α → ℕ) (r : Backlog α) (gone xs : List α) : Prop where
  first : r.first = gone.length + 1
  last : r.last = gone.length + xs.length
  cells : ∀ i < xs.length, r.cells.lookup (r.first + i) = xs[i]?
  evicted : r.evicted = (gone.getLast?.map stamp).getD 0

variable {stamp : α → ℕ}

theorem keeps_new : (new : Backlog α).Keeps stamp [] [] where
  first := rfl
  last := rfl
  cells i h := absurd h (Nat.not_lt_zero i)
  evicted := rfl

theorem Keeps.push {r : Backlog α} {gone xs : List α} (h : r.Keeps stamp gone xs) (x : α) : (r.push x).Keeps stamp gone (xs ++ [x]) where
  first := h.first
  last := by rw [Backlog.push, length_append, length_singleton, h.last, Nat.add_assoc]
  evicted := h.evicted
  cells i hi := by
    rw [length_append, length_singleton] at hi
    rw [Backlog.push, h.last]
    rcases Nat.lt_succ_iff_lt_or_eq.mp hi with hlt | rfl
    · have hne : r.first + i ≠ gone.length + xs.length + 1 := by
        rw [h.first]
        omega
      rw [AList.lookup_insert_ne hne, h.cells i hlt, getElem?_append_left hlt]
    · have heq : r.first + xs.length = gone.length + xs.length + 1 := by
        rw [h.first]
        omega
      rw [heq, AList.lookup_insert, getElem?_concat_length]

theorem Keeps.evict {r : Backlog α} {gone xs : List α} {x : α} (h : r.Keeps stamp gone (x :: xs)) :
    r.cells.lookup r.first = some x ∧
      Keeps stamp { r with cells := r.cells.erase r.first, first := r.first + 1, evicted := stamp x } (gone ++ [x]) xs := by
  refine ⟨h.cells 0 (zero_lt_succ _), ?_, ?_, fun i hi => ?_, ?_⟩
  · rw [length_append, length_singleton, h.first]
  · rw [length_append, length_singleton, h.last, length_cons]
    omega
  · have hnext := h.cells (i + 1) (succ_lt_succ hi)
    rw [getElem?_cons_succ] at hnext
    rw [show r.first + 1 + i = r.first + (i + 1) by omega, AList.lookup_erase_ne (by omega), hnext]
  · rw [getLast?_concat]
    rfl

theorem Keeps.enter {r : Backlog α} {gone xs : List α} {limit : ℕ} (h : r.Keeps stamp gone xs) (hlimit : 0 < limit)
    (hroom : xs.length ≤ limit) (x : α) :
    ∃ r' gone' xs', enter limit stamp x r = some r' ∧ r'.Keeps stamp gone' xs' ∧ xs'.length ≤ limit ∧ xs' ≠ [] ∧
      gone' ++ xs' = gone ++ xs ++ [x] ∧ (gone' = gone ∧ xs.length < limit ∨ xs'.length = limit) := by
  have hpush := h.push x
  have hlength : (xs ++ [x]).length = xs.length + 1 := by rw [length_append]; rfl
  have hspan : (r.push x).last + 1 - (r.push x).first = xs.length + 1 := by
    rw [hpush.last, hpush.first, hlength]
    omega
  have hrounds : r.last + 2 - r.first = xs.length + 1 := by
    rw [h.last, h.first]
    omega
  rw [Backlog.enter, hrounds, trim, hspan]
  by_cases hover : limit < xs.length + 1
  · rw [if_pos hover]
    rcases hxs : xs ++ [x] with _ | ⟨y, rest⟩
    · exact absurd hxs (by simp)
    have hrest : rest.length = limit := by
      have := congrArg List.length hxs
      rw [hlength, length_cons] at this
      omega
    rw [hxs] at hpush
    obtain ⟨hlookup, hevict⟩ := hpush.evict
    rw [hlookup]
    dsimp only
    refine ⟨_, gone ++ [y], rest, ?_, hevict, Nat.le_of_eq hrest, ?_, ?_, .inr hrest⟩
    · -- one entry over the limit, so the next round evicts none
      have hspan' := hevict.last
      have hfirst' := hevict.first
      rcases xs.length with _ | rounds
      · rfl
      · rw [trim]
        refine if_neg ?_
        rw [hspan', hfirst']
        omega
    · intro hnil
      rw [hnil] at hrest
      exact absurd hlimit (by rw [← hrest]; exact Nat.lt_irrefl 0)
    · rw [append_assoc, singleton_append, ← hxs, append_assoc]
  · rw [if_neg hover]
    exact ⟨_, gone, xs ++ [x], rfl, hpush, by omega, by simp, (append_assoc _ _ _).symm, .inl ⟨rfl, by omega⟩⟩

theorem Keeps.held {r : Backlog α} {gone xs : List α} (h : r.Keeps stamp gone xs) : r.held = some xs := by
  have hspan : r.last + 1 - r.first = xs.length := by
    rw [h.last, h.first]
    omega
  have hcells := h.cells
  rw [Backlog.held, hspan]
  generalize r.first = first at hcells
  clear h hspan
  induction xs generalizing first with
  | nil => rfl
  | cons x xs ih =>
    have hhead : r.cells.lookup first = some x := hcells 0 (zero_lt_succ _)
    have htail := ih (first + 1) fun i hi => by
      rw [show first + 1 + i = first + (i + 1) by omega, hcells (i + 1) (succ_lt_succ hi), getElem?_cons_succ]
    rw [length_cons, range'_succ, mapM_cons, hhead, htail]
    rfl

end Backlog

end Cosmic.Base
