/-
A queue kept in a table: the items at consecutive 64-bit indices, from the first of them on.

An index wraps round. The items of a queue of fewer than `2 ^ 64` lie at distinct indices, so a
queue of them is the list of what the table holds from its first index on.
-/
import Cosmic.Base.Table
import Cosmic.Base.Numeral

set_option autoImplicit false

namespace Cosmic.Base

open List

/-! ## Indices that wrap -/

theorem signed_mod (n : ℤ) : signed n % 2 ^ 64 = n % 2 ^ 64 := by
  unfold signed
  omega

theorem signed_eq_iff {a b : ℤ} : signed a = signed b ↔ a % 2 ^ 64 = b % 2 ^ 64 := by
  unfold signed
  omega

@[simp] theorem signed_signed (n : ℤ) : signed (signed n) = signed n := signed_eq_iff.mpr (signed_mod n)

theorem signed_add (a b : ℤ) : signed (signed a + b) = signed (a + b) := by
  unfold signed
  omega

theorem signed_of_range {n : ℤ} (h : -2 ^ 63 ≤ n ∧ n < 2 ^ 63) : signed n = n := by
  unfold signed
  omega

theorem signed_inj {a : ℤ} {i j : ℕ} (hi : i < 2 ^ 64) (hj : j < 2 ^ 64) (h : signed (a + i) = signed (a + j)) : i = j := by
  rw [signed_eq_iff] at h
  omega

/-! ## The queue in a table -/

/-- A table of items, the index of the first of them, and how many there are. -/
structure Window (T : Type) where
  items : Table ℤ T
  first : ℤ
  count : ℕ

namespace Window

variable {T : Type}

def new : Window T := { items := ∅, first := 1, count := 0 }

/-- The window with `x` after its last item. -/
def push (w : Window T) (x : T) : Window T :=
  { w with items := w.items.insert (signed (w.first + w.count)) x, count := w.count + 1 }

/-- The first item, and the window without it. -/
def pop (w : Window T) : Option (T × Window T) :=
  (w.items.lookup w.first).map fun x =>
    (x, { items := w.items.erase w.first
          first := if w.count - 1 = 0 then 1 else signed (w.first + 1)
          count := w.count - 1 })

/-- The window holds `xs`, in their order. -/
structure Holds (w : Window T) (xs : List T) : Prop where
  count : w.count = xs.length
  first : signed w.first = w.first
  bound : xs.length < 2 ^ 64
  items : ∀ i < xs.length, w.items.lookup (signed (w.first + i)) = xs[i]?

theorem holds_new : (new : Window T).Holds [] where
  count := rfl
  first := rfl
  bound := Nat.two_pow_pos 64
  items i h := absurd h (Nat.not_lt_zero i)

theorem Holds.push {w : Window T} {xs : List T} (h : w.Holds xs) (x : T) (hbound : xs.length + 1 < 2 ^ 64) :
    (w.push x).Holds (xs ++ [x]) where
  count := by rw [length_append, Window.push, h.count]; rfl
  first := h.first
  bound := by rw [length_append]; exact hbound
  items i hi := by
    rw [length_append, length_singleton] at hi
    rw [Window.push, h.count]
    rcases Nat.lt_succ_iff_lt_or_eq.mp hi with hlt | rfl
    · have hne : signed (w.first + i) ≠ signed (w.first + xs.length) := fun heq =>
        absurd (signed_inj (by omega) h.bound heq) (Nat.ne_of_lt hlt)
      rw [AList.lookup_insert_ne hne, h.items i hlt, getElem?_append_left hlt]
    · rw [AList.lookup_insert, getElem?_concat_length]

theorem Holds.pop {w : Window T} {x : T} {xs : List T} (h : w.Holds (x :: xs)) :
    ∃ w', w.pop = some (x, w') ∧ w'.Holds xs := by
  have hlookup : w.items.lookup w.first = some x := by
    have := h.items 0 (Nat.zero_lt_succ _)
    rwa [Nat.cast_zero, add_zero, h.first] at this
  have hcount : w.count - 1 = xs.length := by rw [h.count, length_cons, Nat.add_sub_cancel]
  refine ⟨_, by rw [Window.pop, hlookup]; rfl, hcount, ?_, Nat.lt_of_succ_lt h.bound, fun i hi => ?_⟩
  · split_ifs
    · rfl
    · exact signed_signed _
  -- the queue is not empty, so its first index has moved by one
  have hne : w.count - 1 ≠ 0 := by omega
  rw [if_neg hne, signed_add, show w.first + 1 + (i : ℤ) = w.first + ((i + 1 : ℕ) : ℤ) by push_cast; ring]
  have hother : signed (w.first + ((i + 1 : ℕ) : ℤ)) ≠ w.first := by
    intro heq
    have hzero : signed (w.first + ((i + 1 : ℕ) : ℤ)) = signed (w.first + ((0 : ℕ) : ℤ)) := by
      rw [heq, Nat.cast_zero, add_zero, h.first]
    exact absurd (signed_inj (by have := h.bound; rw [length_cons] at this; omega) (by omega) hzero) (by omega)
  rw [AList.lookup_erase_ne hother, h.items (i + 1) (by rw [length_cons]; omega), getElem?_cons_succ]

end Window

end Cosmic.Base
