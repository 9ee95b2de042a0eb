/-
Indices into a string, as Lua's `string.sub` and `string.find` take them.

An index is any 64-bit integer. One below zero counts from the end of the string, and one that is
further from it than the string is long is moved to the nearest position: to the first where a
text begins, before the first where it ends.
-/
import Cosmic.Base.Window

set_option autoImplicit false

namespace Cosmic.Base

open List Option

/-- `posrelatI`: the position where a text from index `i` on begins. -/
def begins_at (len : ℕ) (i : ℤ) : ℕ :=
  if 0 < i then i.toNat
  else if i = 0 ∨ i < -len then 1
  else (len + i + 1).toNat

/-- `getendpos`: the position where a text up to index `j` ends. -/
def ends_at (len : ℕ) (j : ℤ) : ℕ :=
  if len < j then len
  else if 0 ≤ j then j.toNat
  else if j < -len then 0
  else (len + j + 1).toNat

/-- `s:sub(i, j)` -/
def slice (s : Bytes) (i j : ℤ) : Bytes := sub s (begins_at s.length i) (ends_at s.length j)

/-- `s:find(c, i, true)` of a single byte. -/
def find_byte (c : UInt8) (s : Bytes) (i : ℤ) : Option ℕ := find (· == c) s (begins_at s.length i)

/-! ## Indices that name positions -/

theorem begins_at_pos (len : ℕ) {i : ℕ} (hi : 1 ≤ i) : begins_at len i = i := by
  unfold begins_at
  rw [if_pos (by omega)]
  rfl

theorem ends_at_le {len j : ℕ} (hj : j ≤ len) : ends_at len j = j := by
  unfold ends_at
  rw [if_neg (by omega), if_pos (by omega)]
  rfl

theorem slice_eq {s : Bytes} {i j : ℕ} (hi : 1 ≤ i) (hj : j ≤ s.length) : slice s i j = sub s i j := by
  unfold slice
  rw [begins_at_pos _ hi, ends_at_le hj]

theorem find_byte_eq (c : UInt8) (s : Bytes) {i : ℕ} (hi : 1 ≤ i) : find_byte c s i = find (· == c) s i := by
  unfold find_byte
  rw [begins_at_pos _ hi]

/-! ## What follows a text -/

/-- A search from past `done` is a search of what follows it. -/
theorem find_append (p : UInt8 → Bool) (done rest : Bytes) :
    find p (done ++ rest) (done.length + 1) = (find p rest 1).map (· + done.length) := by
  unfold find
  rw [Nat.add_sub_cancel, drop_left, Option.map_map]
  exact congrArg (Option.map · _) (funext fun k => by simp only [Function.comp_apply]; omega)

theorem sub_append (done rest : Bytes) (j : ℕ) :
    sub (done ++ rest) (done.length + 1) (done.length + j) = sub rest 1 j := by
  unfold sub
  rw [Nat.add_sub_cancel, take_length_add_append, drop_left, Nat.sub_self, drop_zero]

/-- The first byte that passes stands after those that do not. -/
theorem find_first {p : UInt8 → Bool} {front rest : Bytes} {c : UInt8} (hfront : ∀ b ∈ front, p b = false)
    (hc : p c = true) : find p (front ++ c :: rest) 1 = some (front.length + 1) := by
  have hnone : front.findIdx? p = none := findIdx?_eq_none_iff.mpr hfront
  unfold find
  rw [Nat.sub_self, drop_zero, findIdx?_append, hnone, findIdx?_cons, if_pos hc]
  simp only [none_or, map_some, Nat.zero_add]

end Cosmic.Base
