/-
`lang/flow.tl`: what the checker knows at one point of a function's body.

A flow state holds tables keyed by the text of a place: the facts, the lengths of arrays
(`lens`), the locals no path has assigned (`unset`) and the assignments that dropped a fact
(`gone`). The tables are shared between states, and every function copies a table before it
writes to it. That is a property of the writes, so the model keeps them: a table is a cell of a
`Heap`, a copy is a new cell, and a write goes to whatever cell the source writes to. A state is
a cell as well, since `join` asks whether its two arguments are one object.
-/
import Cosmic.Base.Table
import Cosmic.Base.Text
import Mathlib.Data.List.Infix

set_option autoImplicit false

namespace Cosmic.Flow

open Cosmic.Base

/-! ## Places -/

/-- The text of a place: a local's id, then `.` and a field for each step of a path. -/
abbrev Key : Type := Bytes

/-- `Scopes.Place`: where an assignment is. -/
structure Place where
  y : ℕ
  x : ℕ
  offset : ℕ
  length : ℕ
  deriving DecidableEq, Repr

def is_path (key : Key) : Bool := key.contains 46

def LENGTH : Key := lit ".#len"

/-- The most elements of an array a fact tells. -/
def MOST : ℕ := 16

/-- The key of the fact that the array at `key` has an element at `i`. -/
def length_fact (key : Key) (i : ℕ) : Key := key ++ LENGTH ++ tostring i

/-- The key of the fact that the array at `key` has the key the local `id` holds. -/
def key_fact (key : Key) (id : ℕ) : Key := key ++ LENGTH ++ lit ".@" ++ tostring id

/-- Whether `key` is the place `id` or a path from it. -/
def is_rooted (key : Key) (id : ℕ) : Bool := key == tostring id || (tostring id ++ lit ".").isPrefixOf key

/-- Whether `key` is a fact of a length about the key the local `id` holds. -/
def keyed_by (key : Key) (id : ℕ) : Bool := (lit ".@" ++ tostring id).isSuffixOf key && decide (LENGTH <:+: key)

/-- The id of the local a place key is rooted in: the number before the first dot, 0 where that
is none. -/
def root (key : Key) : ℕ :=
  let head := key.takeWhile (· != 46)
  if head ≠ [] ∧ head.all isDigit then head.foldl (fun n b => 10 * n + (b.toNat - 48)) 0 else 0

/-! ## States -/

/-- A narrowed place: what it has been narrowed to and what it was declared with. -/
structure Fact (Ty : Type) where
  type : Ty
  declared : Ty
  deriving DecidableEq, Repr

/-- `Flow.State`, each table being the cell it is in. -/
structure State where
  live : Bool
  facts : ℕ
  paths : ℤ
  lens : ℕ
  unset : ℕ
  unsets : ℤ
  gone : ℕ
  deriving DecidableEq, Repr

/-- The tables and states made so far. Facts and lengths are tables of one type. -/
structure Heap (Ty : Type) where
  facts : List (Table Key (Fact Ty))
  unset : List (Table ℕ Bool)
  gone : List (Table Key Place)
  states : List State

namespace Heap

variable {Ty : Type}

/-- What the module makes when it is loaded: `NONE`, `NO_LENS`, `NO_UNSET` and `NO_GONE`. -/
def init : Heap Ty := { facts := [∅, ∅], unset := [∅], gone := [∅], states := [] }

def state (h : Heap Ty) (f : ℕ) : State := h.states.getD f ⟨false, 0, 0, 1, 0, 0, 0⟩

def factsAt (h : Heap Ty) (r : ℕ) : Table Key (Fact Ty) := h.facts.getD r ∅

def unsetAt (h : Heap Ty) (r : ℕ) : Table ℕ Bool := h.unset.getD r ∅

def goneAt (h : Heap Ty) (r : ℕ) : Table Key Place := h.gone.getD r ∅

def newFacts (h : Heap Ty) (t : Table Key (Fact Ty)) : ℕ × Heap Ty :=
  (h.facts.length, { h with facts := h.facts ++ [t] })

def newUnset (h : Heap Ty) (t : Table ℕ Bool) : ℕ × Heap Ty := (h.unset.length, { h with unset := h.unset ++ [t] })

def newGone (h : Heap Ty) (t : Table Key Place) : ℕ × Heap Ty := (h.gone.length, { h with gone := h.gone ++ [t] })

def copy_facts (h : Heap Ty) (r : ℕ) : ℕ × Heap Ty := h.newFacts (h.factsAt r)

def copy_unset (h : Heap Ty) (r : ℕ) : ℕ × Heap Ty := h.newUnset (h.unsetAt r)

def copy_gone (h : Heap Ty) (r : ℕ) : ℕ × Heap Ty := h.newGone (h.goneAt r)

/-- Writes to the table of facts at `r`. -/
def writeFacts (h : Heap Ty) (r : ℕ) (w : Table Key (Fact Ty) → Table Key (Fact Ty)) : Heap Ty :=
  { h with facts := h.facts.modify r w }

def writeUnset (h : Heap Ty) (r : ℕ) (w : Table ℕ Bool → Table ℕ Bool) : Heap Ty :=
  { h with unset := h.unset.modify r w }

def writeGone (h : Heap Ty) (r : ℕ) (w : Table Key Place → Table Key Place) : Heap Ty :=
  { h with gone := h.gone.modify r w }

/-- A state of these parts: its cell, and the heap with it. -/
def made (h : Heap Ty) (live : Bool) (facts : ℕ) (paths : ℤ) (lens unset : ℕ) (unsets : ℤ) (gone : ℕ) : ℕ × Heap Ty :=
  (h.states.length, { h with states := h.states ++ [⟨live, facts, paths, lens, unset, unsets, gone⟩] })

end Heap

def NONE : ℕ := 0
def NO_LENS : ℕ := 1
def NO_UNSET : ℕ := 0
def NO_GONE : ℕ := 0

variable {Ty : Type}

/-! ## Operations -/

def start (h : Heap Ty) : ℕ × Heap Ty := h.made true NONE 0 NO_LENS NO_UNSET 0 NO_GONE

def get (h : Heap Ty) (f : ℕ) (key : Key) : Option (Fact Ty) :=
  ((h.factsAt (h.state f).facts).lookup key).or ((h.factsAt (h.state f).lens).lookup key)

/-- One for a path, none for a local: what a key adds to `paths`. -/
def path_weight (key : Key) : ℤ := if is_path key then 1 else 0

def narrow [DecidableEq Ty] (h : Heap Ty) (f : ℕ) (key : Key) (narrowed declared : Ty) : ℕ × Heap Ty :=
  let s := h.state f
  let held := (h.factsAt s.facts).lookup key
  if narrowed = declared then
    match held with
    | none => (f, h)
    | some _ =>
      let (facts, h) := h.copy_facts s.facts
      let h := h.writeFacts facts (·.erase key)
      h.made s.live facts (s.paths - path_weight key) s.lens s.unset s.unsets s.gone
  else if held = some ⟨narrowed, declared⟩ then (f, h)
  else
    let (facts, h) := h.copy_facts s.facts
    let h := h.writeFacts facts (·.insert key ⟨narrowed, declared⟩)
    let (gone, h) :=
      if ((h.goneAt s.gone).lookup key).isSome then
        let (gone, h) := h.copy_gone s.gone
        (gone, h.writeGone gone (·.erase key))
      else (s.gone, h)
    let paths := if held = none then s.paths + path_weight key else s.paths
    h.made s.live facts paths s.lens s.unset s.unsets gone

/-- The keys of the first `n` elements that `lens` lacks. -/
def wanted_lengths (lens : Table Key (Fact Ty)) (key : Key) (n : ℤ) : List Key :=
  ((List.range (min n MOST).toNat).map fun i => length_fact key (i + 1)).filter (fun at_ => (lens.lookup at_).isNone)

def know_length (h : Heap Ty) (f : ℕ) (key : Key) (n : ℤ) (marker declared : Ty) : ℕ × Heap Ty :=
  let s := h.state f
  let wanted := wanted_lengths (h.factsAt s.lens) key n
  if wanted = [] then (f, h)
  else
    let (lens, h) := h.copy_facts s.lens
    let h := wanted.foldl (fun h at_ => h.writeFacts lens (·.insert at_ ⟨marker, declared⟩)) h
    h.made s.live s.facts s.paths lens s.unset s.unsets s.gone

def know_key (h : Heap Ty) (f : ℕ) (key : Key) (id : ℕ) (marker declared : Ty) : ℕ × Heap Ty :=
  let s := h.state f
  let at_ := key_fact key id
  if ((h.factsAt s.lens).lookup at_).isSome then (f, h)
  else
    let (lens, h) := h.copy_facts s.lens
    let h := h.writeFacts lens (·.insert at_ ⟨marker, declared⟩)
    h.made s.live s.facts s.paths lens s.unset s.unsets s.gone

def dead (h : Heap Ty) (f : ℕ) : ℕ × Heap Ty :=
  let s := h.state f
  if s.live then h.made false s.facts s.paths s.lens s.unset s.unsets s.gone else (f, h)

/-- Clears each of `doomed` from the table of facts at `facts`, counting the paths down. -/
def clear_facts (h : Heap Ty) (facts : ℕ) (paths : ℤ) (doomed : List Key) : ℤ × Heap Ty :=
  doomed.foldl (fun (paths, h) k => (paths - path_weight k, h.writeFacts facts (·.erase k))) (paths, h)

/-- The table of facts at `facts` without `doomed`, in a copy where there is any, and how many paths
it has. -/
def without_facts (h : Heap Ty) (facts : ℕ) (paths : ℤ) (doomed : List Key) : ℕ × ℤ × Heap Ty :=
  if doomed = [] then (facts, paths, h)
  else
    let (facts, h) := h.copy_facts facts
    let (paths, h) := clear_facts h facts paths doomed
    (facts, paths, h)

/-- The lengths at `lens` without the ones rooted in `id` or of the keys it holds (`doomed_lens`). -/
def without_lens (h : Heap Ty) (lens id : ℕ) (doomed_lens : List Key) : ℕ × Heap Ty :=
  if doomed_lens = [] then (lens, h)
  else h.newFacts (Table.filter (fun k => !(is_rooted k id || keyed_by k id)) (h.factsAt lens))

/-- The tombstones at `gone` without `old` where no assignment is the reason, else with one for each
of `marked`. -/
def without_gone (h : Heap Ty) (gone : ℕ) (why : Option Place) (old marked : List Key) : ℕ × Heap Ty :=
  match why with
  | none =>
    if old = [] then (gone, h)
    else
      let (gone, h) := h.copy_gone gone
      (gone, old.foldl (fun h k => h.writeGone gone (·.erase k)) h)
  | some place =>
    let (gone, h) := h.copy_gone gone
    (gone, marked.foldl (fun h k => h.writeGone gone (·.insert k place)) h)

/-- `f` without the facts rooted in `id` or of the keys it holds, and without the tombstones of its
places. Where `why` is given the places that held a fact keep a tombstone of it. -/
def without (h : Heap Ty) (f id : ℕ) (why : Option Place) : ℕ × Heap Ty :=
  let s := h.state f
  let doomed := (h.factsAt s.facts).keys.filter (is_rooted · id)
  let doomed_lens := (h.factsAt s.lens).keys.filter (fun k => is_rooted k id || keyed_by k id)
  let old := (h.goneAt s.gone).keys.filter (is_rooted · id)
  if doomed = [] ∧ doomed_lens = [] ∧ (why ≠ none ∨ old = []) then (f, h)
  else
    let (facts, paths, h) := without_facts h s.facts s.paths doomed
    let (lens, h) := without_lens h s.lens id doomed_lens
    let (gone, h) := without_gone h s.gone why old (doomed ++ doomed_lens)
    h.made s.live facts paths (if (h.factsAt lens).isEmpty then NO_LENS else lens) s.unset s.unsets gone

/-- `f` with `id` taken out of its table of unset locals. -/
def cleared_unset (h : Heap Ty) (f id : ℕ) : ℕ × Heap Ty :=
  let s := h.state f
  let (unset, h) := h.copy_unset s.unset
  let h := h.writeUnset unset (·.erase id)
  h.made s.live s.facts s.paths s.lens unset (s.unsets - 1) s.gone

def assigned (h : Heap Ty) (f id : ℕ) : ℕ × Heap Ty :=
  if (h.unsetAt (h.state f).unset).lookup id ≠ some true then (f, h) else cleared_unset h f id

def assign (h : Heap Ty) (f id : ℕ) (why : Option Place) : ℕ × Heap Ty :=
  let (g, h) := without h f id why
  if (h.unsetAt (h.state g).unset).lookup id = some true then cleared_unset h g id else (g, h)

def declare (h : Heap Ty) (f id : ℕ) (unset : Bool) : ℕ × Heap Ty :=
  let (g, h) := without h f id none
  let s := h.state g
  let was := decide ((h.unsetAt s.unset).lookup id = some true)
  if was = unset then (g, h)
  else
    let (out, h) := h.copy_unset s.unset
    let h := h.writeUnset out (fun t => if unset then t.insert id true else t.erase id)
    h.made s.live s.facts s.paths s.lens out (s.unsets + if unset then 1 else -1) s.gone

/-- The state a function's body starts from; `unfixed` holds the locals whose facts do not hold
inside, `none` where there are none. -/
def enter (h : Heap Ty) (f : ℕ) (unfixed : Option (Table ℕ Bool)) : ℕ × Heap Ty :=
  let s := h.state f
  let doomed := match unfixed with
    | none => []
    | some u => (h.factsAt s.facts).keys.filter (fun k => u.lookup (root k) == some true)
  let (facts, paths, h) := without_facts h s.facts s.paths doomed
  h.made true facts paths NO_LENS NO_UNSET 0 NO_GONE

def forget_lengths (h : Heap Ty) (f : ℕ) : ℕ × Heap Ty :=
  let s := h.state f
  if (h.factsAt s.lens).isEmpty then (f, h)
  else h.made s.live s.facts s.paths NO_LENS s.unset s.unsets s.gone

def forget (h : Heap Ty) (f : ℕ) : ℕ × Heap Ty :=
  let s := h.state f
  if (h.factsAt s.facts).isEmpty && (h.factsAt s.lens).isEmpty then (f, h)
  else h.made s.live NONE 0 NO_LENS s.unset s.unsets s.gone

def earlier (a b : Place) : Place := if b.offset < a.offset then b else a

/-! ## Joins -/

/-- What `join` is told of types: the type two are united in, and whether the union of two edges
tells nothing that the declared type did not. -/
structure Meeting (Ty : Type) where
  unite : Ty → Ty → Ty
  covers : Ty → Ty → Bool

/-- The fact that a place keeps where it has `fa` on one edge and `fb` on the other. -/
def meet_fact [DecidableEq Ty] (m : Meeting Ty) (fa fb : Fact Ty) : Option (Fact Ty) :=
  let t := if fb.type ≠ fa.type then m.unite fa.type fb.type else fa.type
  if t = fa.type ∧ fa.declared = fb.declared then some fa
  else if m.covers fa.declared t then none
  else some ⟨t, fa.declared⟩

/-- One pass of the loop of `meet`: the place `e.1` has the fact `e.2` on one edge, `other` holds the
facts of the other, and `acc` is the number of paths so far. -/
def meet_place [DecidableEq Ty] (m : Meeting Ty) (other : Table Key (Fact Ty)) (out : ℕ)
    (acc : ℤ × Heap Ty) (e : Sigma fun _ : Key => Fact Ty) : ℤ × Heap Ty :=
  match other.lookup e.1 with
  | none => acc
  | some fb =>
    match meet_fact m e.2 fb with
    | none => acc
    | some fact => (acc.1 + path_weight e.1, acc.2.writeFacts out (·.insert e.1 fact))

/-- The facts of `a` that `b` holds too, in a new table, and how many of them are paths. -/
def meet [DecidableEq Ty] (h : Heap Ty) (a b : ℕ) (m : Meeting Ty) : ℕ × ℤ × Heap Ty :=
  let (out, h) := h.newFacts ∅
  let (paths, h) := (h.factsAt a).entries.foldl (meet_place m (h.factsAt b) out) (0, h)
  (out, paths, h)

/-- One pass of the loop of `join` over the unset locals of `b`: `acc` is the table of unset locals,
how many they are and the heap. The table of `a` is copied when the first local is added. -/
def join_unset_local (a : State) (acc : ℕ × ℤ × Heap Ty) (id : ℕ) : ℕ × ℤ × Heap Ty :=
  if (acc.2.2.unsetAt acc.1).lookup id = some true then acc
  else
    let p := if acc.1 = a.unset then acc.2.2.copy_unset acc.1 else (acc.1, acc.2.2)
    (p.1, acc.2.1 + 1, p.2.writeUnset p.1 (·.insert id true))

def join_unset (h : Heap Ty) (a : State) (ids : List ℕ) : ℕ × ℤ × Heap Ty :=
  ids.foldl (join_unset_local a) (a.unset, a.unsets, h)

/-- Notes in the table at `gone` each drop of `drops` whose place has no fact now. -/
def note_gone (facts lens : Table Key (Fact Ty)) (gone : ℕ) (h : Heap Ty)
    (drops : List (Sigma fun _ : Key => Place)) : Heap Ty :=
  drops.foldl (fun h ⟨key, place⟩ =>
    if (facts.lookup key).isNone && (lens.lookup key).isNone then
      let place := match (h.goneAt gone).lookup key with
        | some held => earlier held place
        | none => place
      h.writeGone gone (·.insert key place)
    else h) h

def join [DecidableEq Ty] (h : Heap Ty) (a b : ℕ) (m : Meeting Ty) : ℕ × Heap Ty :=
  let sa := h.state a
  let sb := h.state b
  if a = b then (a, h)
  else if !sa.live && sb.live then (b, h)
  else if sa.live && !sb.live then (a, h)
  else
    let (facts, paths, h) := meet h sa.facts sb.facts m
    let (lens, _, h) := meet h sa.lens sb.lens m
    let (unset, unsets, h) :=
      if 0 < sb.unsets then join_unset h sa (h.unsetAt sb.unset).keys
      else (sa.unset, sa.unsets, h)
    let (gone, h) := h.newGone ∅
    let h := note_gone (h.factsAt facts) (h.factsAt lens) gone h (h.goneAt sa.gone).entries
    let h := note_gone (h.factsAt facts) (h.factsAt lens) gone h (h.goneAt sb.gone).entries
    h.made sa.live (if (h.factsAt facts).isEmpty then NONE else facts) paths
      (if (h.factsAt lens).isEmpty then NO_LENS else lens) unset unsets
      (if (h.goneAt gone).isEmpty then NO_GONE else gone)

/-- Whether two tables hold the same places, narrowed to the same types. -/
def same_facts [DecidableEq Ty] (a b : Table Key (Fact Ty)) : Bool :=
  a.entries.all (fun ⟨key, fa⟩ => (b.lookup key).any (fun fb => fb.type = fa.type)) &&
    a.entries.length == b.entries.length

/-- Whether `a` and `b` hold the same facts and the same unset locals, and are both live or both
dead. -/
def same [DecidableEq Ty] (h : Heap Ty) (a b : ℕ) : Bool :=
  let sa := h.state a
  let sb := h.state b
  if a = b then true
  else if sa.live ≠ sb.live ∨ sa.unsets ≠ sb.unsets then false
  else
    same_facts (h.factsAt sa.facts) (h.factsAt sb.facts) && same_facts (h.factsAt sa.lens) (h.factsAt sb.lens) &&
      (h.unsetAt sa.unset).keys.all (fun id => (h.unsetAt sb.unset).lookup id == some true)

end Cosmic.Flow
