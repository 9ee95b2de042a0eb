/-
The flow states of `Cosmic.Lang.Flow` read as values.

`View` is a state with its tables in it, and each operation has a value-level reading beside it
(`View.narrow`, `View.without`, …). The `_yields` lemmas say that the operation on the heap
answers a state with that reading, and that the heap it leaves is the heap it was given with
cells added: no table and no state that was there is written to.
-/
import Cosmic.Lang.Flow
import Mathlib.Data.List.GetD
import Mathlib.Data.List.Infix

set_option autoImplicit false

namespace Cosmic.Flow

open Cosmic.Base List

/-- A flow state with its tables in it. -/
@[ext] structure View (Ty : Type) where
  live : Bool
  facts : Table Key (Fact Ty)
  paths : ℤ
  lens : Table Key (Fact Ty)
  unset : Table ℕ Bool
  unsets : ℤ
  gone : Table Key Place

variable {Ty : Type}

/-! ## Heaps that grow -/

namespace Heap

def view (h : Heap Ty) (f : ℕ) : View Ty :=
  let s := h.state f
  ⟨s.live, h.factsAt s.facts, s.paths, h.factsAt s.lens, h.unsetAt s.unset, s.unsets, h.goneAt s.gone⟩

/-- `h` with the tables `fs`, `us` and `gs` added after its own. -/
def grow (h : Heap Ty) (fs : List (Table Key (Fact Ty))) (us : List (Table ℕ Bool))
    (gs : List (Table Key Place)) : Heap Ty :=
  { h with facts := h.facts ++ fs, unset := h.unset ++ us, gone := h.gone ++ gs }

/-- Every cell of `h` is a cell of `h'`, and holds what it held. -/
structure Extends (h h' : Heap Ty) : Prop where
  facts : h.facts <+: h'.facts
  unset : h.unset <+: h'.unset
  gone : h.gone <+: h'.gone
  states : h.states <+: h'.states

/-- The tables of the state `s` are cells of `h`. -/
structure Holds (h : Heap Ty) (s : State) : Prop where
  facts : s.facts < h.facts.length
  lens : s.lens < h.facts.length
  unset : s.unset < h.unset.length
  gone : s.gone < h.gone.length

/-- A heap whose constants are the empty tables and whose states have their tables in it. -/
structure Closed (h : Heap Ty) : Prop where
  base : Extends init h
  holds : ∀ s ∈ h.states, h.Holds s

theorem Extends.refl (h : Heap Ty) : Extends h h := ⟨prefix_rfl, prefix_rfl, prefix_rfl, prefix_rfl⟩

theorem Extends.trans {h₁ h₂ h₃ : Heap Ty} (a : Extends h₁ h₂) (b : Extends h₂ h₃) : Extends h₁ h₃ :=
  ⟨a.facts.trans b.facts, a.unset.trans b.unset, a.gone.trans b.gone, a.states.trans b.states⟩

theorem extends_grow (h : Heap Ty) (fs : List (Table Key (Fact Ty))) (us : List (Table ℕ Bool))
    (gs : List (Table Key Place)) : Extends h (h.grow fs us gs) :=
  ⟨prefix_append _ _, prefix_append _ _, prefix_append _ _, prefix_rfl⟩

variable {α : Type} {r : ℕ}

theorem getD_extends {l l' : List α} (hp : l <+: l') (hr : r < l.length) (d : α) : l'.getD r d = l.getD r d := by
  obtain ⟨t, rfl⟩ := hp
  rw [getD_append _ _ _ _ hr]

variable {h : Heap Ty}

theorem Holds.mono {h' : Heap Ty} {s : State} (hs : h.Holds s) (he : Extends h h') : h'.Holds s :=
  ⟨hs.facts.trans_le he.facts.length_le, hs.lens.trans_le he.facts.length_le,
    hs.unset.trans_le he.unset.length_le, hs.gone.trans_le he.gone.length_le⟩

theorem Closed.grow (hc : Closed h) (fs : List (Table Key (Fact Ty))) (us : List (Table ℕ Bool))
    (gs : List (Table Key Place)) : Closed (h.grow fs us gs) :=
  ⟨hc.base.trans (extends_grow h fs us gs),
    fun s hs => (hc.holds s hs).mono (extends_grow h fs us gs)⟩

end Heap

/-! ## What an operation answers -/

open Heap

/-- The answer `p` of an operation on the heap `h` is a state that reads as `v`, in a heap that
extends `h`. -/
structure Yields (h : Heap Ty) (p : ℕ × Heap Ty) (v : View Ty) : Prop where
  ext : Extends h p.2
  closed : Closed p.2
  valid : p.1 < p.2.states.length
  view : p.2.view p.1 = v

variable {h : Heap Ty}

variable {h' : Heap Ty} {v : View Ty}

theorem Yields.trans {f : ℕ} {p : ℕ × Heap Ty} {w : View Ty} (a : Yields h (f, h') v) (b : Yields h' p w) :
    Yields h p w :=
  ⟨a.ext.trans b.ext, b.closed, b.valid, b.view⟩

theorem Yields.of_eq {p : ℕ × Heap Ty} {w : View Ty} (a : Yields h p v) (hvw : v = w) : Yields h p w := hvw ▸ a

/-! ## The operations, read as values -/

namespace View

def start : View Ty := ⟨true, ∅, 0, ∅, ∅, 0, ∅⟩

def narrow [DecidableEq Ty] (v : View Ty) (key : Key) (narrowed declared : Ty) : View Ty :=
  if narrowed = declared then
    if key ∈ v.facts then
      { v with facts := v.facts.erase key, paths := v.paths - path_weight key }
    else v
  else if v.facts.lookup key = some ⟨narrowed, declared⟩ then v
  else { v with
    facts := v.facts.insert key ⟨narrowed, declared⟩
    paths := if key ∈ v.facts then v.paths else v.paths + path_weight key
    gone := if key ∈ v.gone then v.gone.erase key else v.gone }

def know_length (v : View Ty) (key : Key) (n : ℤ) (marker declared : Ty) : View Ty :=
  { v with lens := v.lens.insertAll (wanted_lengths v.lens key n) ⟨marker, declared⟩ }

def know_key (v : View Ty) (key : Key) (id : ℕ) (marker declared : Ty) : View Ty :=
  if key_fact key id ∈ v.lens then v
  else { v with lens := v.lens.insert (key_fact key id) ⟨marker, declared⟩ }

def dead (v : View Ty) : View Ty := { v with live := false }

/-- The places of `v.facts` rooted in `id`. -/
def doomed (v : View Ty) (id : ℕ) : List Key := v.facts.keys.filter (is_rooted · id)

/-- The length facts of `v` rooted in `id` or about the key it holds. -/
def doomed_lens (v : View Ty) (id : ℕ) : List Key := v.lens.keys.filter (fun k => is_rooted k id || keyed_by k id)

/-- The sum of the weights of `ks`: how far `paths` falls when they are cleared. -/
def weight (ks : List Key) : ℤ := ks.countP is_path

def without (v : View Ty) (id : ℕ) (why : Option Place) : View Ty :=
  { v with
    facts := v.facts.eraseAll (v.doomed id)
    paths := v.paths - weight (v.doomed id)
    lens := v.lens.filter (fun k => !(is_rooted k id || keyed_by k id))
    gone := match why with
      | none => v.gone.eraseAll (v.gone.keys.filter (is_rooted · id))
      | some place => v.gone.insertAll (v.doomed id ++ v.doomed_lens id) place }

def cleared_unset (v : View Ty) (id : ℕ) : View Ty := { v with unset := v.unset.erase id, unsets := v.unsets - 1 }

def assigned (v : View Ty) (id : ℕ) : View Ty :=
  if v.unset.lookup id = some true then v.cleared_unset id else v

def declare (v : View Ty) (id : ℕ) (unset : Bool) : View Ty :=
  let g := v.without id none
  if decide (g.unset.lookup id = some true) = unset then g
  else { g with
    unset := if unset then g.unset.insert id true else g.unset.erase id
    unsets := g.unsets + if unset then 1 else -1 }

/-- The facts of `v` whose root is one of `unfixed`. -/
def unfixed_facts (v : View Ty) (unfixed : Option (Table ℕ Bool)) : List Key :=
  match unfixed with
  | none => []
  | some u => v.facts.keys.filter (fun k => u.lookup (root k) == some true)

def enter (v : View Ty) (unfixed : Option (Table ℕ Bool)) : View Ty :=
  { start with
    facts := v.facts.eraseAll (v.unfixed_facts unfixed)
    paths := v.paths - weight (v.unfixed_facts unfixed) }

def forget_lengths (v : View Ty) : View Ty := { v with lens := ∅ }

def forget (v : View Ty) : View Ty :=
  if v.facts.isEmpty && v.lens.isEmpty then v else { v with facts := ∅, paths := 0, lens := ∅ }

end View

/-! ## Each operation yields its reading -/

section Yields

variable {h : Heap Ty} (hc : Closed h) {f : ℕ} (hf : f < h.states.length)
include hc

include hf

end Yields

/-! ## Assignments -/

/-- A table part `p` of an operation: the cell `p.1` of the heap `p.2`, which is `h` with tables
added. -/
structure Grows (h h' : Heap Ty) : Prop where
  ext : Extends h h'
  closed : Closed h'

theorem Grows.trans {h₁ h₂ h₃ : Heap Ty} (a : Grows h₁ h₂) (b : Grows h₂ h₃) : Grows h₁ h₃ :=
  ⟨a.ext.trans b.ext, b.closed⟩

variable {r : ℕ}

theorem Grows.factsAt (a : Grows h h') (hr : r < h.facts.length) :
    h'.factsAt r = h.factsAt r := getD_extends a.ext.facts hr _

theorem Grows.goneAt (a : Grows h h') (hr : r < h.gone.length) :
    h'.goneAt r = h.goneAt r := getD_extends a.ext.gone hr _

theorem Grows.unsetAt (a : Grows h h') (hr : r < h.unset.length) :
    h'.unsetAt r = h.unsetAt r := getD_extends a.ext.unset hr _

section Without

variable {h : Heap Ty} (hc : Closed h)
include hc

variable {r : ℕ}

variable {f : ℕ}

end Without

end Cosmic.Flow

/-!
`Flow.join` read as a value: the facts both edges hold, the locals either leaves unset and the
drops of either, each in a table of its own that no other state has.
-/

namespace Cosmic.Flow

open Cosmic.Base Heap

variable {Ty : Type}

namespace View

/-- One step of `meet`: the place `key`, which `a` gives the fact `fa`. -/
def meet_step [DecidableEq Ty] (m : Meeting Ty) (b : Table Key (Fact Ty))
    (acc : Table Key (Fact Ty) × ℤ) (e : Sigma fun _ : Key => Fact Ty) :
    Table Key (Fact Ty) × ℤ :=
  match (b.lookup e.1).bind (meet_fact m e.2) with
  | none => acc
  | some fact => (acc.1.insert e.1 fact, acc.2 + path_weight e.1)

def meet [DecidableEq Ty] (m : Meeting Ty) (a b : Table Key (Fact Ty)) :
    Table Key (Fact Ty) × ℤ := a.entries.foldl (meet_step m b) (∅, 0)

def join_unset_step (acc : Table ℕ Bool × ℤ) (id : ℕ) : Table ℕ Bool × ℤ :=
  if acc.1.lookup id = some true then acc else (acc.1.insert id true, acc.2 + 1)

def join_unset (unset : Table ℕ Bool) (unsets : ℤ) (ids : List ℕ) : Table ℕ Bool × ℤ :=
  ids.foldl join_unset_step (unset, unsets)

def note_step (facts lens : Table Key (Fact Ty)) (gone : Table Key Place)
    (e : Sigma fun _ : Key => Place) : Table Key Place :=
  if (facts.lookup e.1).isNone && (lens.lookup e.1).isNone then
    gone.insert e.1 (match gone.lookup e.1 with
      | some held => earlier held e.2
      | none => e.2)
  else gone

def note_gone (facts lens : Table Key (Fact Ty)) (gone : Table Key Place)
    (drops : List (Sigma fun _ : Key => Place)) : Table Key Place :=
  drops.foldl (note_step facts lens) gone

/-- The join of two edges that are both live or both dead. -/
def join [DecidableEq Ty] (m : Meeting Ty) (a b : View Ty) : View Ty :=
  let facts := meet m a.facts b.facts
  let lens := (meet m a.lens b.lens).1
  let unset := if 0 < b.unsets then join_unset a.unset a.unsets b.unset.keys
    else (a.unset, a.unsets)
  { live := a.live, facts := facts.1, paths := facts.2, lens, unset := unset.1, unsets := unset.2,
    gone := note_gone facts.1 lens (note_gone facts.1 lens ∅ a.gone.entries) b.gone.entries }

end View

/-! ## The parts of a join -/

end Cosmic.Flow
