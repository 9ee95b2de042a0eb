/-
`Scopes.in_scope` against the resolution made while walking.

The bindings visible at a token, which `in_scope` answers from the ranges kept in `list`, are those
that the names standing there were resolved to, but for the type names that a binding overtakes.
-/
import Cosmic.Lang.ScopesCalls
import Cosmic.Lang.ScopesFits

set_option autoImplicit false

namespace Cosmic.Scopes

open Cosmic.Base Cosmic.Ast Option Function
open Cosmic.Base.Lexical (Shape Key Site Spot Fits Closed Exact Around At choose pick sites)

/-! ## What a build keeps of the walk -/

theorem settle_same (S : State) (r : ℕ) : Same S (settle S r) := by
  unfold settle
  cases S.list[r]? with
  | none => exact Same.refl S
  | some v =>
    dsimp only
    split
    · exact Same.refl S
    · exact Same.modify S r fun _ => rfl

theorem settles_same (rs : List ℕ) (S : State) : Same S (rs.foldl settle S) := by
  induction rs generalizing S with
  | nil => exact Same.refl S
  | cons r rs ih => exact (settle_same S r).trans (ih _)

theorem build_keys (chunk : Chunk) (declared : Bytes → Option Global) :
    (build chunk declared).list.map Var.key = (walked chunk declared).made_keys :=
  (settles_same (walked chunk declared).captured (walked chunk declared)).keys

theorem build_resolved (chunk : Chunk) (declared : Bytes → Option Global) :
    (build chunk declared).resolved = (walked chunk declared).resolved :=
  (settles_same (walked chunk declared).captured (walked chunk declared)).resolved

/-! ## The bindings at a token -/

theorem in_scope_key (answer : Scoped) (at_ : ℕ) (x : Bytes) :
    (in_scope answer at_ x).map Var.key = pick (answer.list.map Var.key) at_ x := by
  unfold in_scope pick
  generalize answer.list = list
  -- what has been picked of the bindings met
  have hheld : Option.map Var.key ((fun _ => none : Bytes → Option Var) x) = none := rfl
  generalize hout : (fun _ => none : Bytes → Option Var) = out, hnone : (none : Option (Key Bytes)) = held at hheld ⊢
  clear hout hnone
  induction list generalizing out held with
  | nil => exact hheld
  | cons v list ih =>
    refine ih _ _ ?_
    unfold choose
    dsimp only
    by_cases hcovers : v.from_ ≤ at_ ∧ at_ ≤ v.to_
    · rw [if_pos hcovers]
      by_cases hname : v.name = x
      · rw [if_pos ⟨hname, hcovers⟩, ← hheld, hname]
        cases hout : out x with
        | none =>
          dsimp only
          rw [put, update_self]
          rfl
        | some w =>
          dsimp only [map_some]
          change _ = if w.from_ ≤ v.from_ then some v.key else some w.key
          split
          · rw [put, update_self]
            rfl
          · rw [hout]
            rfl
      · have hother : ∀ value, put out v.name value x = out x := fun value =>
          update_of_ne (Ne.symm hname) _ _
        rw [if_neg fun h => hname h.1, ← hheld]
        cases out v.name with
        | none =>
          dsimp only
          rw [hother]
        | some w =>
          dsimp only
          split
          · rw [hother]
          · rfl
    · rw [if_neg hcovers, if_neg fun h => hcovers h.2, hheld]

theorem in_scope_id (answer : Scoped) (at_ : ℕ) (x : Bytes) :
    (in_scope answer at_ x).map Var.id = (pick (answer.list.map Var.key) at_ x).map Key.id := by
  rw [← in_scope_key, Option.map_map]
  rfl

/-! ## The tree's numbers -/

/-- The number of the binding that a call makes. -/
def Act.binding_node : Act → List ℕ
  | .declare b _ _ _ _ _ _ => if b.name = [] then [] else [b.id]
  | _ => []

/-- `Ast.number` gives no two nodes of a tree the same number: not two names that are used, nor two
that are introduced. -/
structure Numbered (chunk : Chunk) : Prop where
  uses : (nodes (walk chunk)).Nodup
  bindings : ((calls (walk chunk)).flatMap Act.binding_node).Nodup

mutual

theorem Act.binding_ids : ∀ (a : Act) (e : ℕ), (Lexical.keys e a.shape).map Key.id = a.calls.flatMap Act.binding_node
  | .frame _ _ body, e | .loop _ body, e | .defer _ body, e | .floor body, e => binding_ids body e
  | .scope last body, e => by
    simp only [Act.shape, Lexical.keys, Shape.keys, List.append_nil]
    exact binding_ids body last
  | .declare b _ _ _ _ _ _, e => by
    simp only [Act.shape, Act.calls, List.flatMap_cons, List.flatMap_nil, List.append_nil, Act.binding_node]
    split
    · rfl
    · rfl
  | .use_name _ _, _ | .narrows _ _, _ | .assign_end _, _ | .report _ _, _ | .own_off, _ => rfl
  | .use_type t path, _ => by
    unfold Act.shape
    cases head_of path with
    | none => rfl
    | some head => rfl

theorem binding_ids : ∀ (as : List Act) (e : ℕ),
    (Lexical.keys e (shapes as)).map Key.id = (calls as).flatMap Act.binding_node
  | [], _ => rfl
  | a :: as, e => by
    rw [shapes, Lexical.keys_append, List.map_append, calls, List.flatMap_append, Act.binding_ids a e, binding_ids as e]

end

/-! ## A walk and its intervals -/

theorem walked_ran (chunk : Chunk) (declared : Bytes → Option Global) (hnumbered : Numbered chunk) :
    Ran 0 [] (shapes (walk chunk)) (nodes (walk chunk)) { declared := declared } (walked chunk declared) := by
  refine runs_ran (walk chunk) ⟨⟨rfl, fun _ => rfl⟩, rfl, nofun, hnumbered.uses,
    fun _ _ => ⟨rfl, List.not_mem_nil⟩⟩

theorem walked_keys (chunk : Chunk) (declared : Bytes → Option Global) (hnumbered : Numbered chunk) :
    (walked chunk declared).made_keys = Lexical.keys 0 (shapes (walk chunk)) :=
  (walked_ran chunk declared hnumbered).keys

/-- At each name the binding picked by the intervals is the one found in the scopes, unless a binding
overtakes it. -/
theorem walk_exact {chunk : Chunk} (hplaced : chunk.Placed) (hnumbered : Numbered chunk) :
    ∀ s ∈ sites 0 [] (shapes (walk chunk)), Exact (Lexical.keys 0 (shapes (walk chunk))) (overtaken chunk) s := by
  have hshape : shapes (walk chunk) = [.scope chunk.last (shapes (block_stats chunk.tokens chunk.body))] := by
    simp only [walk, shapes, Act.shape, List.append_nil]
  have hfits : Fits [] chunk.body.base.first chunk.last (shapes (block_stats chunk.tokens chunk.body))
      (overtaken chunk) := by
    have hbody := block_rest chunk.tokens chunk.body hplaced.1 hplaced.2.le fun m _ _ => Fits.nil [] m chunk.last
    rwa [List.append_nil, List.append_nil] at hbody
  have hids : (Lexical.ids (shapes (walk chunk))).Nodup := hnumbered.uses.sublist (shapes_ids (walk chunk))
  have hkeys : (Lexical.keys 0 (shapes (walk chunk))).Nodup := by
    refine List.Nodup.of_map Key.id ?_
    rw [binding_ids]
    exact hnumbered.bindings
  intro s hs
  rw [hshape] at hs hids hkeys ⊢
  simp only [sites, Shape.sites, Lexical.ids, Shape.ids, Lexical.keys, Shape.keys, List.append_nil] at hs hids hkeys ⊢
  have haround : Around [] chunk.body.base.first chunk.last ([] : List (Key Bytes)) [] [] := by
    refine ⟨by simp, fun p _ _ => ⟨List.Sublist.refl _, ?_, List.Pairwise.nil, ?_, ?_, ?_⟩⟩
    · exact by simp
    · exact by simp
    · exact by simp
    · exact by simp
  have hexact := hfits.exact hids le_rfl haround (by simpa using hkeys) s hs
  simpa using hexact

/-- A name that does not wait, at its place: what is answered for it there against what it was resolved
to. -/
theorem walk_agrees {chunk : Chunk} (hplaced : chunk.Placed) (hnumbered : Numbered chunk)
    (declared : Bytes → Option Global) {s : Site Bytes} (hs : s ∈ sites 0 [] (shapes (walk chunk)))
    (hwaited : s.id ∉ (walked chunk declared).waited) :
    (s.id ∉ overtaken chunk →
      (in_scope (build chunk declared) s.place s.name).map Var.id = (build chunk declared).resolved s.id) ∧
    (s.id ∈ overtaken chunk → ∀ i, (build chunk declared).resolved s.id = some i →
      (in_scope (build chunk declared) s.place s.name).map Var.id ≠ some i) := by
  obtain ⟨hout, hin⟩ := walk_exact hplaced hnumbered s hs
  rw [in_scope_id, build_keys, build_resolved, walked_keys chunk declared hnumbered,
    (walked_ran chunk declared hnumbered).answers s hs hwaited]
  refine ⟨fun h => congrArg (Option.map Key.id) (hout h), fun h i hi hpicked => ?_⟩
  obtain ⟨v, hv, rfl⟩ := map_eq_some_iff.mp hi
  obtain ⟨w, hw, hid⟩ := map_eq_some_iff.mp hpicked
  -- No two bindings have one number.
  have hvmem : v ∈ Lexical.keys 0 (shapes (walk chunk)) := by
    simpa only [List.append_nil] using Lexical.seen_mem hv hs
  have hnodup : ((Lexical.keys 0 (shapes (walk chunk))).map Key.id).Nodup := by
    rw [binding_ids]
    exact hnumbered.bindings
  have : w = v := List.inj_on_of_nodup_map hnodup (Lexical.pick_mem hw) hvmem hid
  exact hin h v hv (this ▸ hw)

/-! ## What is answered at a name -/

def value_names (chunk : Chunk) : List Name :=
  (calls (walk chunk)).filterMap fun c => match c with
    | .use_name n _ => some n
    | _ => none

/-- The type names that a program uses, each with its head; a primitive is none. -/
def type_names (chunk : Chunk) : List (Base × Bytes) :=
  (calls (walk chunk)).filterMap fun c => match c with
    | .use_type t path => (head_of path).map fun head => (t, head)
    | _ => none

theorem value_name_call {chunk : Chunk} {n : Name} (hn : n ∈ value_names chunk) :
    ∃ write, .use_name n write ∈ calls (walk chunk) := by
  obtain ⟨c, hc, hmatch⟩ := List.mem_filterMap.mp hn
  split at hmatch
  next n' write =>
    cases hmatch
    exact ⟨write, hc⟩
  next => cases hmatch

theorem type_name_call {chunk : Chunk} {t : Base × Bytes} (ht : t ∈ type_names chunk) :
    ∃ path, .use_type t.1 path ∈ calls (walk chunk) ∧ head_of path = some t.2 := by
  obtain ⟨c, hc, hmatch⟩ := List.mem_filterMap.mp ht
  split at hmatch
  next b path =>
    obtain ⟨head, hhead, rfl⟩ := map_eq_some_iff.mp hmatch
    exact ⟨path, hc, hhead⟩
  next => cases hmatch

theorem value_name_agrees {chunk : Chunk} (hplaced : chunk.Placed) (hnumbered : Numbered chunk)
    (declared : Bytes → Option Global) {n : Name} (hn : n ∈ value_names chunk) :
    (in_scope (build chunk declared) n.first n.text).map Var.id = (build chunk declared).resolved n.id := by
  obtain ⟨write, hc⟩ := value_name_call hn
  have htype := value_not_type hnumbered.uses hc
  obtain ⟨s, hs, hplace, hname, hid⟩ := site_of_call (walk chunk) (u := ⟨n.text, n.first, n.id⟩) hc rfl [] 0
  dsimp only at hplace hname hid
  have hwaited : s.id ∉ (walked chunk declared).waited := by
    intro hmem
    rcases runs_waits (walk chunk) { declared := declared } hmem with h | h
    · cases h
    · exact htype (hid ▸ h)
  have hover : s.id ∉ overtaken chunk := fun hmem => htype (hid ▸ overtaken_walk chunk hmem)
  rw [← hplace, ← hname, ← hid]
  exact (walk_agrees hplaced hnumbered declared hs hwaited).1 hover

theorem type_name_agrees {chunk : Chunk} (hplaced : chunk.Placed) (hnumbered : Numbered chunk)
    (declared : Bytes → Option Global) {t : Base × Bytes} (ht : t ∈ type_names chunk)
    (hwaited : t.1.id ∉ (walked chunk declared).waited) {i : ℕ}
    (hresolved : (build chunk declared).resolved t.1.id = some i) :
    (in_scope (build chunk declared) t.1.first t.2).map Var.id = some i ↔ t.1.id ∉ overtaken chunk := by
  obtain ⟨path, hc, hhead⟩ := type_name_call ht
  have hshape : (Act.use_type t.1 path).shape = [Spot.use ⟨t.2, t.1.first, t.1.id⟩] := by
    rw [Act.shape, hhead]
    rfl
  obtain ⟨s, hs, hplace, hname, hid⟩ := site_of_call (walk chunk) hc hshape [] 0
  dsimp only at hplace hname hid
  rw [← hid] at hwaited hresolved ⊢
  rw [← hplace, ← hname]
  obtain ⟨hout, hin⟩ := walk_agrees hplaced hnumbered declared hs hwaited
  exact ⟨fun h hmem => hin hmem i hresolved h, fun h => (hout h).trans hresolved⟩

/-- In every program, the answer for a value name at its token is what it was resolved to, and for a
type name resolved where it stands just when no binding overtakes it. -/
theorem in_scope_agrees (chunk : Chunk) (declared : Bytes → Option Global) (hplaced : chunk.Placed)
    (hnumbered : Numbered chunk) :
    (∀ n ∈ value_names chunk,
      (in_scope (build chunk declared) n.first n.text).map Var.id = (build chunk declared).resolved n.id) ∧
    ∀ t ∈ type_names chunk, t.1.id ∉ (walked chunk declared).waited →
      ∀ i, (build chunk declared).resolved t.1.id = some i →
        ((in_scope (build chunk declared) t.1.first t.2).map Var.id = some i ↔ t.1.id ∉ overtaken chunk) :=
  ⟨fun _ hn => value_name_agrees hplaced hnumbered declared hn,
    fun _ ht hwaited _ hresolved => type_name_agrees hplaced hnumbered declared ht hwaited hresolved⟩

/-- `local record _T end local function f(_T: _T) return _T end`, whose tokens are numbered from 1. -/
def shadowing : Chunk where
  first := 1
  last := 16
  id := 1
  tokens i := ([[], lit "local", lit "record", lit "_T", lit "end", lit "local", lit "function", lit "f", lit "(",
    lit "_T", lit ":", lit "_T", lit ")", lit "return", lit "_T", lit "end"].getD i [])
  body := .mk ⟨1, 16, 2⟩
    [.Decl (.Record ⟨1, 4, 3⟩ (some .loc) { first := 3, last := 3, id := 4, name := lit "_T", attr := none } [] [] none []),
      .LocalFunction ⟨5, 15, 5⟩ { first := 7, last := 7, id := 6, name := lit "f", attr := none } []
        (.mk ⟨8, 15, 7⟩
          [{ first := 9, last := 11, id := 8,
             name := some { first := 9, last := 9, id := 9, name := lit "_T", attr := none }
             optional := false, variadic := false
             type := some (.TypeName ⟨11, 11, 10⟩ [lit "_T"] []) }]
          none
          (.mk ⟨13, 15, 11⟩
            [.Return ⟨13, 14, 12⟩ [.Name { first := 14, last := 14, id := 13, text := lit "_T" }]] 15))] 16

theorem shadowing_placed : shadowing.Placed := by
  simp [shadowing, Chunk.Placed, Block.Placed, Block.base, Tiled, placed_stats, Stat.Placed, Stat.base, Decl.Placed,
    Decl.base, head_placed, Binding.Placed, placed_types, placed_members, Fn.Placed, Fn.base, signature_placed,
    Param.Placed, placed_rets, Ty.Placed, Ty.base, placed_exps, Exp.Placed, Exp.base]
  decide

theorem shadowing_numbered : Numbered shadowing := ⟨by decide +kernel, by decide +kernel⟩

theorem in_scope_agrees_shadowing :
    (in_scope (build shadowing fun _ => none) 14 (lit "_T")).map Var.id =
      (build shadowing fun _ => none).resolved 13 ∧
    ((in_scope (build shadowing fun _ => none) 11 (lit "_T")).map Var.id = some 4 ↔ 10 ∉ overtaken shadowing) :=
  have h := in_scope_agrees shadowing (fun _ => none) shadowing_placed shadowing_numbered
  ⟨h.1 { first := 14, last := 14, id := 13, text := lit "_T" } (by decide +kernel),
    h.2 (⟨11, 11, 10⟩, lit "_T") (by decide +kernel) (by decide +kernel) 4 (by decide +kernel)⟩

/-- The type of the parameter is the record, and the answer at its token is the parameter. -/
theorem in_scope_shadowing :
    shadowing.Placed ∧ Numbered shadowing ∧ (⟨11, 11, 10⟩, lit "_T") ∈ type_names shadowing ∧
      10 ∉ (walked shadowing fun _ => none).waited ∧ (build shadowing fun _ => none).resolved 10 = some 4 ∧
      (in_scope (build shadowing fun _ => none) 11 (lit "_T")).map Var.id = some 9 :=
  ⟨shadowing_placed, shadowing_numbered, by decide +kernel, by decide +kernel, by decide +kernel, by decide +kernel⟩

end Cosmic.Scopes
