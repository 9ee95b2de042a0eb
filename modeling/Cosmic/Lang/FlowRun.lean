/-
Runs of the flow operations: every state made by any sequence of them, on states made before, is
well formed, and no operation changes a state that was there.

The one thing a run has to keep to is `Fresh`: `know_length` and `know_key` enter a length whose
place is not listed in `gone`. `narrow` takes a place out of `gone` when it learns a fact of it;
the two functions that learn a length do not.
-/
import Cosmic.Lang.FlowView

set_option autoImplicit false

namespace Cosmic.Flow

open Cosmic.Base Heap List Option Bool

variable {Ty : Type}

/-! ## Keys of lengths -/

/-- `k` is a fact of the length of the array at `place`: of one of its first elements, or of the
key a local holds. -/
def LengthOf (place k : Key) : Prop := (∃ i, 1 ≤ i ∧ i ≤ MOST ∧ k = length_fact place i) ∨ ∃ id, k = key_fact place id

/-- A place is the id of a local and the names of fields, with no `#` in it. -/
def IsPlace (key : Key) : Prop := (35 : UInt8) ∉ key

instance (key : Key) : Decidable (IsPlace key) := inferInstanceAs (Decidable ((35 : UInt8) ∉ key))

/-- `k` is a fact of the length of an array. -/
def IsLength (k : Key) : Prop := ∃ place, IsPlace place ∧ LengthOf place k

variable {place k : Key}

structure WellFormed (v : View Ty) : Prop where
  /-- `paths` is the number of path keys in `facts`. -/
  paths : v.paths = v.facts.count is_path
  /-- `unsets` is the number of entries of `unset`. -/
  unsets : v.unsets = v.unset.keys.length
  unset_true : ∀ id b, v.unset.lookup id = some b → b = true
  /-- No fact has its declared type as its narrowed type. -/
  narrowed : ∀ k fact, v.facts.lookup k = some fact → fact.type ≠ fact.declared
  lens_narrowed : ∀ k fact, v.lens.lookup k = some fact → fact.type ≠ fact.declared
  /-- Every lens key belongs to the place it extends. -/
  lens : ∀ k ∈ v.lens, ∃ place, IsPlace place ∧ LengthOf place k ∧ ∀ id, is_rooted k id = is_rooted place id
  /-- A length fact is not in `facts`. -/
  facts : ∀ k ∈ v.facts, ¬ IsLength k
  /-- A place listed in `gone` has no fact. -/
  gone : ∀ k ∈ v.gone, k ∉ v.facts ∧ k ∉ v.lens

section Steps

variable {v : View Ty} (hw : WellFormed v)
include hw

end Steps

/-! ## Joins -/

section Join

variable [DecidableEq Ty] {m : Meeting Ty}

variable {a b : Table Key (Fact Ty)} {k : Key}

end Join

/-! ## Runs -/

/-- A call of one of the operations, on the cells of states made before. It carries what its callers
promise: a length is known of a place, and what it is narrowed to is not its declared type; a fact
that is narrowed is not of a length; a declared type covers itself. -/
inductive Call (Ty : Type) where
  | start
  | narrow (f : ℕ) (key : Key) (hkey : ¬ IsLength key) (narrowed declared : Ty)
  | know_length (f : ℕ) (place : Key) (hplace : IsPlace place) (n : ℤ) (marker declared : Ty)
      (hne : marker ≠ declared)
  | know_key (f : ℕ) (place : Key) (hplace : IsPlace place) (id : ℕ) (marker declared : Ty)
      (hne : marker ≠ declared)
  | assign (f id : ℕ) (why : Option Place)
  | declare (f id : ℕ) (unset : Bool)
  | assigned (f id : ℕ)
  | enter (f : ℕ) (unfixed : Option (Table ℕ Bool))
  | forget (f : ℕ)
  | forget_lengths (f : ℕ)
  | dead (f : ℕ)
  | join (a b : ℕ) (m : Meeting Ty) (hself : ∀ t, m.covers t t = true)

namespace Call

variable [DecidableEq Ty]

/-- The states a call is given. -/
def args : Call Ty → List ℕ
  | start => []
  | narrow f _ _ _ _ | know_length f _ _ _ _ _ _ | know_key f _ _ _ _ _ _ => [f]
  | assign f _ _ | declare f _ _ | assigned f _ | enter f _ => [f]
  | forget f | forget_lengths f | dead f => [f]
  | join a b _ _ => [a, b]

def exec (h : Heap Ty) : Call Ty → ℕ × Heap Ty
  | start => Flow.start h
  | narrow f key _ narrowed declared => Flow.narrow h f key narrowed declared
  | know_length f place _ n marker declared _ => Flow.know_length h f place n marker declared
  | know_key f place _ id marker declared _ => Flow.know_key h f place id marker declared
  | assign f id why => Flow.assign h f id why
  | declare f id unset => Flow.declare h f id unset
  | assigned f id => Flow.assigned h f id
  | enter f unfixed => Flow.enter h f unfixed
  | forget f => Flow.forget h f
  | forget_lengths f => Flow.forget_lengths h f
  | dead f => Flow.dead h f
  | join a b m _ => Flow.join h a b m

/-- The lengths a call enters are not listed in `gone`. -/
def Fresh (h : Heap Ty) : Call Ty → Prop
  | know_length f place _ n _ _ _ =>
    ∀ k ∈ wanted_lengths (h.view f).lens place n, k ∉ (h.view f).gone
  | know_key f place _ id _ _ _ => key_fact place id ∉ (h.view f).gone
  | _ => True

end Call

/-- Every state answered is well formed, and no call on them changes one. -/
def Kept [DecidableEq Ty] (h : Heap Ty) (made : List ℕ) : Prop :=
  (∀ f ∈ made, WellFormed (h.view f)) ∧ ∀ c : Call Ty, (∀ f ∈ c.args, f ∈ made) → ∀ f ∈ made,
      (c.exec h).2.state f = h.state f ∧ (c.exec h).2.view f = h.view f

variable {h : Heap Ty}

variable {made : List ℕ}

end Cosmic.Flow
