/-
Finite tables: what a program keeps in a hash table whose keys it enters, clears and walks.

Mathlib's `AList` is the table. What is added here is what a program that counts its own
entries needs: the part of a table whose keys pass a test, the number of keys that do, and
how that number moves as one key is entered or cleared.
-/
import Mathlib.Data.List.AList

set_option autoImplicit false

namespace Cosmic.Base

open List

/-- A finite table from `κ` to `α`, each key entered once. -/
abbrev Table (κ α : Type) [DecidableEq κ] : Type := AList (fun _ : κ => α)

namespace Table

variable {κ α : Type} [DecidableEq κ]

/-- The entries of the table whose key passes `p`, in their order. -/
def filter (p : κ → Bool) (t : Table κ α) : Table κ α :=
  ⟨t.entries.filter (fun e => p e.1), t.nodupKeys.sublist filter_sublist⟩

def isEmpty (t : Table κ α) : Bool := t.entries.isEmpty

/-- How many keys of the table pass `p`. -/
def count (p : κ → Bool) (t : Table κ α) : ℕ := t.keys.countP p

/-- Clears each of `ks` in turn. -/
def eraseAll (t : Table κ α) (ks : List κ) : Table κ α := ks.foldl (fun t k => t.erase k) t

/-- Enters the value `x` at each of `ks` in turn. -/
def insertAll (t : Table κ α) (ks : List κ) (x : α) : Table κ α := ks.foldl (fun t k => t.insert k x) t

/-! ## Keys -/

variable {t : Table κ α}

theorem isEmpty_iff : isEmpty t = true ↔ t = ∅ := by
  rw [isEmpty, List.isEmpty_iff]
  exact ⟨fun h => AList.ext h, fun h => by rw [h]; rfl⟩

theorem keys_filter (p : κ → Bool) (t : Table κ α) : (filter p t).keys = t.keys.filter p := by
  simp only [filter, AList.keys, List.keys, filter_map, Function.comp_def]

variable {p : κ → Bool} {k : κ}

theorem mem_filter : k ∈ filter p t ↔ k ∈ t ∧ p k = true := by
  rw [AList.mem_keys, keys_filter, List.mem_filter, ← AList.mem_keys]

variable {x : α}

theorem filter_eq_self (h : ∀ k ∈ t, p k = true) : filter p t = t := by
  refine AList.ext (List.filter_eq_self.mpr fun e he => h e.1 ?_)
  exact AList.mem_keys.mpr (mem_map.mpr ⟨e, he, rfl⟩)

variable {ks : List κ}

theorem lookup_erase_some {a : κ} (h : (t.erase a).lookup k = some x) : k ≠ a ∧ t.lookup k = some x := by
  have hka : k ≠ a := by
    rintro rfl
    rw [AList.lookup_erase] at h
    cases h
  exact ⟨hka, by rwa [AList.lookup_erase_ne hka] at h⟩

theorem mem_of_lookup (h : t.lookup k = some x) : k ∈ t := AList.lookup_isSome.mp (by rw [h]; rfl)

/-! ## Counting -/

@[simp] theorem count_empty (p : κ → Bool) : count p (∅ : Table κ α) = 0 := rfl

end Table

end Cosmic.Base
