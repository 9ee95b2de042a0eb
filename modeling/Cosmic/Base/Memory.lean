/-
A memory of bytes: what a store changes, and what it leaves alone.
-/
import Cosmic.Base.Text
import Mathlib.Data.List.GetD

set_option autoImplicit false

namespace Cosmic.Base

open List

/-- A byte at every address. -/
abbrev Memory : Type := ℕ → UInt8

namespace Memory

variable {m m' : Memory} {p q n k : ℕ} {s t : Bytes}

/-- The memory with the bytes of `s` from `p` on. -/
def store (m : Memory) (p : ℕ) (s : Bytes) : Memory :=
  fun q => if p ≤ q ∧ q < p + s.length then s.getD (q - p) 0 else m q

/-- The `n` bytes from `p` on. -/
def load (m : Memory) (p n : ℕ) : Bytes := (List.range n).map fun i => m (p + i)

@[simp] theorem load_length : (m.load p n).length = n := by
  rw [load, length_map, List.length_range]

theorem load_getElem {i : ℕ} (h : i < (m.load p n).length) : (m.load p n)[i] = m (p + i) := by
  simp only [load, getElem_map, getElem_range]

theorem load_congr (h : ∀ i < n, m (p + i) = m' (p + i)) : m.load p n = m'.load p n :=
  map_congr_left fun i hi => h i (mem_range.mp hi)

theorem store_of_lt (h : q < p) : m.store p s q = m q := if_neg (by omega)

theorem store_of_ge (h : p + s.length ≤ q) : m.store p s q = m q := if_neg (by omega)

theorem store_at {i : ℕ} (h : i < s.length) : m.store p s (p + i) = s.getD i 0 := by
  rw [store, if_pos (by omega), Nat.add_sub_cancel_left]

theorem load_store_take (h : n ≤ s.length) : (m.store p s).load p n = s.take n := by
  apply ext_getElem
  · rw [load_length, length_take_of_le h]
  · intro i h₁ h₂
    rw [load_length] at h₁
    rw [load_getElem, store_at (by omega), getElem_take, getD_eq_getElem]

theorem load_store : (m.store p s).load p s.length = s := by
  rw [load_store_take le_rfl, take_length]

theorem load_store_of_disjoint (h : p + n ≤ q ∨ q + s.length ≤ p) : (m.store q s).load p n = m.load p n := by
  apply load_congr
  intro i hi
  obtain h | h := h
  · exact store_of_lt (by omega)
  · exact store_of_ge (by omega)

theorem load_add : m.load p (n + k) = m.load p n ++ m.load (p + n) k := by
  unfold load
  rw [range_add, map_append, map_map]
  congr 1
  apply map_congr_left
  intro i _
  exact congrArg m (Nat.add_assoc p n i).symm

/-- A store over the middle of what is held. -/
theorem load_store_middle {a b c : Bytes} (hload : m.load p n = a ++ b ++ c)
    (hlen : b.length = s.length) (hq : p + a.length = q) : (m.store q s).load p n = a ++ s ++ c := by
  have hn : n = a.length + b.length + c.length := by
    have hlength := congrArg List.length hload
    rwa [load_length, length_append, length_append] at hlength
  rw [hn, load_add, load_add] at hload ⊢
  obtain ⟨hab, hc⟩ := append_inj hload (by rw [length_append, load_length, load_length, length_append])
  obtain ⟨ha, -⟩ := append_inj hab load_length
  have hbefore : (m.store q s).load p a.length = m.load p a.length := load_store_of_disjoint (.inl (by omega))
  have hafter : (m.store q s).load (p + (a.length + b.length)) c.length = _ :=
    load_store_of_disjoint (.inr (by omega))
  rw [hbefore, hafter, ha, hc, hq, hlen, load_store]

end Memory

end Cosmic.Base
