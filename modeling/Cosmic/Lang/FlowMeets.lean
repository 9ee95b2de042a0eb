/-
What a join of two edges knows: the values, lengths and keys that both edges know, and no more.

A table of the join is read place by place first: a place has what the facts of both edges meet in. The
facts of a join are then sound for every assignment of values to places that either edge allows, its
unset locals are those of either edge, and the two orders of one join differ only where a place has a
type that covers nothing more than it was declared with on one edge alone.
-/
import Cosmic.Lang.FlowRun

set_option autoImplicit false

namespace Cosmic.Flow

open Cosmic.Base Heap List

variable {Ty : Type}

/-! ## Tables that meet -/

section Meet

variable [DecidableEq Ty] {m : Meeting Ty}

/-- No place has a type on one edge alone that is what the two unite in and is covered by what it was
declared with. -/
def Even (m : Meeting Ty) (t u : Table Key (Fact Ty)) : Prop :=
  ∀ k fa fb, t.lookup k = some fa → u.lookup k = some fb → fa.type ≠ fb.type →
    m.covers fa.declared (m.unite fa.type fb.type) = true →
      m.unite fa.type fb.type ≠ fa.type ∧ m.unite fa.type fb.type ≠ fb.type

end Meet

/-! ## Locals that are unset -/

/-- The count of the unset locals is how many they are. -/
structure Counted (v : View Ty) : Prop where
  unsets : v.unsets = v.unset.keys.length
  unset_true : ∀ id b, v.unset.lookup id = some b → b = true

theorem Counted.lookup {v : View Ty} (hv : Counted v) {id : ℕ} : v.unset.lookup id = some true ↔ id ∈ v.unset := by
  constructor
  · exact Table.mem_of_lookup
  · intro hid
    obtain ⟨b, hb⟩ := Option.isSome_iff_exists.mp (AList.lookup_isSome.mpr hid)
    rw [hb, hv.unset_true id b hb]

theorem Counted.insert {v : View Ty} (hv : Counted v) {id : ℕ} (hid : v.unset.lookup id ≠ some true) :
    Counted { v with unset := v.unset.insert id true, unsets := v.unsets + 1 } where
  unsets := by
    have hkey : id ∉ v.unset.keys := fun hmem => hid (hv.lookup.mpr (AList.mem_keys.mpr hmem))
    rw [AList.keys_insert, erase_of_not_mem hkey, length_cons, hv.unsets]
    rfl
  unset_true := by
    intro id' b h
    by_cases hsame : id' = id
    · rw [hsame, AList.lookup_insert] at h
      exact (Option.some.inj h).symm
    · rw [AList.lookup_insert_ne hsame] at h
      exact hv.unset_true id' b h

theorem Counted.erase {v : View Ty} (hv : Counted v) {id : ℕ} (hid : v.unset.lookup id = some true) :
    Counted { v with unset := v.unset.erase id, unsets := v.unsets - 1 } where
  unsets := by
    have hkey : id ∈ v.unset.keys := AList.mem_keys.mp (Table.mem_of_lookup hid)
    have hlength := length_erase_of_mem hkey
    have hpos := length_pos_of_mem hkey
    dsimp only
    rw [AList.keys_erase, hlength, hv.unsets]
    omega
  unset_true := fun id' b h => hv.unset_true id' b (Table.lookup_erase_some h).2

theorem Counted.congr {v w : View Ty} (hv : Counted v) (hunset : w.unset = v.unset) (hunsets : w.unsets = v.unsets) :
    Counted w where
  unsets := by rw [hunset, hunsets, hv.unsets]
  unset_true := by rw [hunset]; exact hv.unset_true

inductive Answers [DecidableEq Ty] (h : Heap Ty) (made : List ℕ) : ℕ × Heap Ty → Prop where
  | start : Answers h made (start h)
  | narrow {f : ℕ} (hf : f ∈ made) (key : Key) (narrowed declared : Ty) :
      Answers h made (narrow h f key narrowed declared)
  | know_length {f : ℕ} (hf : f ∈ made) (key : Key) (n : ℤ) (marker declared : Ty) :
      Answers h made (know_length h f key n marker declared)
  | know_key {f : ℕ} (hf : f ∈ made) (key : Key) (id : ℕ) (marker declared : Ty) :
      Answers h made (know_key h f key id marker declared)
  | assign {f : ℕ} (hf : f ∈ made) (id : ℕ) (why : Option Place) : Answers h made (assign h f id why)
  | declare {f : ℕ} (hf : f ∈ made) (id : ℕ) (unset : Bool) : Answers h made (declare h f id unset)
  | assigned {f : ℕ} (hf : f ∈ made) (id : ℕ) : Answers h made (assigned h f id)
  | enter {f : ℕ} (hf : f ∈ made) (unfixed : Option (Table ℕ Bool)) : Answers h made (enter h f unfixed)
  | forget {f : ℕ} (hf : f ∈ made) : Answers h made (forget h f)
  | forget_lengths {f : ℕ} (hf : f ∈ made) : Answers h made (forget_lengths h f)
  | dead {f : ℕ} (hf : f ∈ made) : Answers h made (dead h f)
  | join {a b : ℕ} (ha : a ∈ made) (hb : b ∈ made) (m : Meeting Ty) : Answers h made (join h a b m)

/-- The heaps that any operations lead to from the module's own constants, and the states answered. -/
inductive Reached [DecidableEq Ty] : Heap Ty → List ℕ → Prop where
  | init : Reached Heap.init []
  | step {h : Heap Ty} {made : List ℕ} {p : ℕ × Heap Ty} :
      Reached h made → Answers h made p → Reached p.2 (p.1 :: made)

/-- A state of a heap that is whole: its cells are there, and its unset locals are counted. -/
structure Sound (h : Heap Ty) (f : ℕ) : Prop where
  valid : f < h.states.length
  counted : Counted (h.view f)

variable {V : Type}

/-- Each place that both edges know has one declared type. -/
def OneDeclared (h : Heap Ty) (a b : ℕ) : Prop :=
  (∀ k fa fb, (h.view a).facts.lookup k = some fa → (h.view b).facts.lookup k = some fb → fa.declared = fb.declared) ∧
    ∀ k fa fb, (h.view a).lens.lookup k = some fa → (h.view b).lens.lookup k = some fb → fa.declared = fb.declared

variable [DecidableEq Ty]

/-- Where both edges are live or neither is, `unite` does not depend on the order and each place has one
declared type, both tables of the edges are even. -/
def Balanced (h : Heap Ty) (a b : ℕ) (m : Meeting Ty) : Prop :=
  (h.view a).live = (h.view b).live → (∀ s t, m.unite s t = m.unite t s) → OneDeclared h a b →
    Even m (h.view a).facts (h.view b).facts ∧ Even m (h.view a).lens (h.view b).lens

/-! ## The join of two edges -/

section Join

variable {has : V → Ty → Prop} {h : Heap Ty} {a b : ℕ} {m : Meeting Ty}

/-- What the two joins of `a` and `b`, one in each order, read as. -/
structure Read (h : Heap Ty) (a b : ℕ) (m : Meeting Ty) (v w : View Ty) : Prop where
  first : (join h a b m).2.view (join h a b m).1 = v
  first_later : (join (join h a b m).2 b a m).2.view (join h a b m).1 = v
  second : (join (join h a b m).2 b a m).2.view (join (join h a b m).2 b a m).1 = w

end Join

/-! ## An alias

A place is declared with the type 2, an alias of the type 1, which the values to 1 have; the type 0 is
below both. On one edge the place is narrowed to 1, on the other to 0. -/

end Cosmic.Flow
