/-
The scopes of a run: what a walk's calls do to the table of scopes, and what its uses see there.

An act has a shape among the lexical walks of `Base.Lexical`: the scopes it opens, the names it
binds and the names it uses. A run of the acts opens and closes what the shape does, appends the
bindings of the shape to `list`, and resolves each name to the binding that is innermost there.
-/
import Cosmic.Base.LexicalFits
import Cosmic.Lang.Scopes

set_option autoImplicit false

namespace Cosmic.Scopes

open Cosmic.Base Cosmic.Ast List Option Function
open Cosmic.Base.Lexical (Shape Key Site keys binds sites see)

/-! ## The shape of an act -/

/-- A binding with the tokens it is visible at. -/
def Var.key (v : Var) : Key Bytes := ⟨v.name, v.from_, v.to_, v.id⟩

/-- The head of a type name that is looked for: a primitive is not. -/
def head_of : List Bytes → Option Bytes
  | [] => none
  | head :: rest => if rest = [] ∧ head ∈ primitives then none else some head

mutual

def Act.shape : Act → List (Shape Bytes)
  | .frame _ _ body | .loop _ body | .defer _ body | .floor body => shapes body
  | .scope last body => [.scope last (shapes body)]
  | .declare b _ from_ _ _ _ _ => if b.name = [] then [] else [.bind b.name from_ b.id]
  | .use_name n _ => [.use n.first n.text n.id]
  | .use_type t path => ((head_of path).map fun head => [Shape.use t.first head t.id]).getD []
  | .assign_end _ | .narrows _ _ | .report _ _ | .own_off => []

def shapes : List Act → List (Shape Bytes)
  | [] => []
  | a :: acts => a.shape ++ shapes acts

end

mutual

def Act.nodes : Act → List ℕ
  | .frame _ _ body | .loop _ body | .defer _ body | .floor body | .scope _ body => nodes body
  | .use_name n _ => [n.id]
  | .use_type t path => if (head_of path).isSome then [t.id] else []
  | .narrows id _ => [id]
  | .declare _ _ _ _ _ _ _ | .assign_end _ | .report _ _ | .own_off => []

def nodes : List Act → List ℕ
  | [] => []
  | a :: acts => a.nodes ++ nodes acts

end

@[simp] theorem shapes_append (as bs : List Act) : shapes (as ++ bs) = shapes as ++ shapes bs := by
  induction as with
  | nil => rfl
  | cons a as ih => simp only [cons_append, shapes, ih, append_assoc]

/-! ## What a change leaves -/

/-- The bindings made so far. -/
def State.made_keys (S : State) : List (Key Bytes) := S.list.map Var.key

/-- A change that leaves the scopes, the bindings and what is resolved as they were. -/
structure Same (S S' : State) : Prop where
  keys : S'.made_keys = S.made_keys
  visible : S'.visible = S.visible
  names : S'.names = S.names
  marks : S'.marks = S.marks
  ends : S'.ends = S.ends
  resolved : S'.resolved = S.resolved
  pending : S'.pending = S.pending
  waited : S'.waited = S.waited

theorem Same.refl (S : State) : Same S S := ⟨rfl, rfl, rfl, rfl, rfl, rfl, rfl, rfl⟩

variable {S T U : State}

theorem Same.trans (h : Same S T) (h' : Same T U) : Same S U :=
  ⟨h'.keys.trans h.keys, h'.visible.trans h.visible, h'.names.trans h.names, h'.marks.trans h.marks,
    h'.ends.trans h.ends, h'.resolved.trans h.resolved, h'.pending.trans h.pending, h'.waited.trans h.waited⟩

theorem map_modify_of_forall {α β : Type} {f : α → α} {g : α → β} (h : ∀ a, g (f a) = g a) (l : List α) (i : ℕ) :
    (l.modify i f).map g = l.map g := by
  induction l generalizing i with
  | nil => rw [modify_nil]
  | cons a l ih =>
    cases i with
    | zero => rw [modify_zero_cons, map_cons, map_cons, h]
    | succ i => rw [modify_succ_cons, map_cons, map_cons, ih]

theorem Same.modify (S : State) (r : ℕ) {f : Var → Var} (h : ∀ v, (f v).key = v.key) : Same S (S.modify r f) :=
  ⟨map_modify_of_forall h S.list r, rfl, rfl, rfl, rfl, rfl, rfl, rfl⟩

theorem Same.report (S : State) (code : Code) (token : ℕ) (other : Option ℕ) : Same S (S.report code token other) :=
  ⟨rfl, rfl, rfl, rfl, rfl, rfl, rfl, rfl⟩

variable {S' : State}

theorem Same.of_eq (h₁ : S'.list = S.list) (h₂ : S'.visible = S.visible) (h₃ : S'.names = S.names)
    (h₄ : S'.marks = S.marks) (h₅ : S'.ends = S.ends) (h₆ : S'.resolved = S.resolved) (h₇ : S'.pending = S.pending)
    (h₈ : S'.waited = S.waited) : Same S S' :=
  ⟨congrArg (List.map Var.key) h₁, h₂, h₃, h₄, h₅, h₆, h₇, h₈⟩

theorem Same.use_global (S : State) (n : Name) (write : Bool) : Same S (S.use_global n write) := by
  unfold State.use_global State.add_global State.report
  dsimp only
  cases S.declared n.text with
  | none => dsimp only; split_ifs <;> exact Same.of_eq rfl rfl rfl rfl rfl rfl rfl rfl
  | some g => dsimp only; split_ifs <;> exact Same.of_eq rfl rfl rfl rfl rfl rfl rfl rfl

theorem Same.report_if (h : Same S T) (p : Prop) [Decidable p] (code : Code) (token : ℕ) (other : Option ℕ) :
    Same S (if p then T.report code token other else T) := by
  split_ifs
  · exact h.trans (Same.report _ _ _ _)
  · exact h

theorem Same.write_name (S : State) (n : Name) (r : ℕ) (v : Var) : Same S (S.write_name n r v) := by
  have h₁ : Same S (S.modify r fun v => { v with writes := v.writes ++ [n.id], assigned := true }) :=
    Same.modify S r fun _ => rfl
  refine Same.report_if ?_ _ _ _ _
  split_ifs
  · exact h₁.trans (Same.report _ _ _ _)
  · exact h₁.trans (Same.modify _ r fun _ => rfl)
  · exact h₁.trans (Same.of_eq rfl rfl rfl rfl rfl rfl rfl rfl)

theorem Same.read_name (S : State) (n : Name) (r : ℕ) (v : Var) : Same S (S.read_name n r v) := by
  unfold State.read_name
  have h₁ : Same S (S.modify r fun v => { v with reads := v.reads ++ [n.id] }) := Same.modify S r fun _ => rfl
  dsimp only
  split
  · refine Same.trans (Same.trans h₁ ?_) (Same.modify _ r fun _ => rfl)
    split <;> exact Same.of_eq rfl rfl rfl rfl rfl rfl rfl rfl
  · exact h₁

theorem Same.fields (S : State) (f : Fields) : Same S (f.set S) := by
  cases f with
  | none => exact Same.refl S
  | value e => exact Same.modify S _ fun _ => rfl
  | decl nested module => exact Same.modify S _ fun _ => rfl
  | readonly r => exact Same.modify S _ fun _ => rfl
  | fn id =>
    refine Same.trans (Same.modify S (S.list.length - 1) (f := fun v => { v with fn := some id }) fun _ => rfl) ?_
    exact Same.of_eq rfl rfl rfl rfl rfl rfl rfl rfl

/-! ## The open scopes -/

/-- The bindings `env` are those in scope, the innermost first. -/
structure State.Holds (S : State) (env : List (Key Bytes)) : Prop where
  names : S.names = env.map Key.name
  visible : ∀ x, (S.visible x).map (S.made_keys[·]?) = (env.filter fun k => k.name = x).map some

variable {env : List (Key Bytes)}

theorem Same.holds (h : Same S S') (hS : S.Holds env) : S'.Holds env where
  names := h.names.trans hS.names
  visible x := by
    rw [h.visible, h.keys]
    exact hS.visible x

theorem State.Holds.lookup (h : S.Holds env) (x : Bytes) : (S.lookup x).bind (S.made_keys[·]?) = see env x := by
  have hv := h.visible x
  have hhead := congrArg head? hv
  rw [head?_map, head?_map, head?_filter] at hhead
  unfold State.lookup see
  cases hfound : (S.visible x).head? with
  | none =>
    rw [hfound, map_none] at hhead
    cases henv : env.find? fun k => decide (k.name = x) with
    | none => rfl
    | some k =>
      rw [henv, map_some] at hhead
      cases hhead
  | some r =>
    rw [hfound, map_some] at hhead
    cases henv : env.find? fun k => decide (k.name = x) with
    | none =>
      rw [henv, map_none] at hhead
      cases hhead
    | some k =>
      rwa [henv, map_some, some.injEq] at hhead

variable {x : Bytes}

theorem State.Holds.found (h : S.Holds env) {r : ℕ} (hr : S.lookup x = some r) :
    ∃ v, S.list[r]? = some v ∧ see env x = some v.key := by
  have hlookup := h.lookup x
  rw [hr, bind_some] at hlookup
  have hvisible := h.visible x
  have hmem : S.made_keys[r]? ∈ (S.visible x).map (S.made_keys[·]?) := mem_map_of_mem (mem_of_mem_head? hr)
  rw [hvisible] at hmem
  obtain ⟨k, -, hk⟩ := mem_map.mp hmem
  unfold State.made_keys at hk hlookup
  rw [getElem?_map] at hk hlookup
  cases hv : S.list[r]? with
  | none =>
    rw [hv, map_none] at hk
    cases hk
  | some v =>
    rw [hv, map_some] at hlookup
    exact ⟨v, rfl, hlookup.symm⟩

theorem State.Holds.not_found (h : S.Holds env) (hr : S.lookup x = none) : see env x = none := by
  have hlookup := h.lookup x
  rw [hr, bind_none] at hlookup
  exact hlookup.symm

theorem State.Holds.forget {new : List (Key Bytes)} (h : S.Holds (new ++ env)) :
    (S.forget new.length).Holds env ∧ (S.forget new.length).made_keys = S.made_keys ∧
      (S.forget new.length).marks = S.marks ∧ (S.forget new.length).ends = S.ends ∧
      (S.forget new.length).resolved = S.resolved ∧ (S.forget new.length).pending = S.pending ∧
      (S.forget new.length).waited = S.waited := by
  induction new generalizing S with
  | nil => exact ⟨h, rfl, rfl, rfl, rfl, rfl, rfl⟩
  | cons k new ih =>
    have hnames : S.names = k.name :: (new ++ env).map Key.name := h.names
    rw [length_cons, State.forget, hnames]
    refine ih (S := { S with visible := put S.visible k.name (S.visible k.name).tail,
                             names := (new ++ env).map Key.name }) ⟨rfl, fun x => ?_⟩
    have hv := h.visible x
    rw [cons_append, filter_cons] at hv
    change (put S.visible k.name (S.visible k.name).tail x).map (S.made_keys[·]?) = _
    by_cases hx : x = k.name
    · subst hx
      rw [if_pos (by simp), map_cons] at hv
      have htail := congrArg List.tail hv
      rw [tail_cons, ← map_tail] at htail
      rwa [put, update_self]
    · rw [if_neg (by simpa using fun h => hx h.symm)] at hv
      rwa [put, update_of_ne hx]

/-! ## What a run does -/

/-- What a run of acts of the shape `ts` does, from `S` to `S'`, with the bindings `env` in scope in a
scope that ends at `e`; `ids` are the nodes it may resolve. -/
structure Ran (e : ℕ) (env : List (Key Bytes)) (ts : List (Shape Bytes)) (ids : List ℕ) (S S' : State) : Prop where
  keys : S'.made_keys = S.made_keys ++ Lexical.keys e ts
  holds : S'.Holds ((binds e ts).reverse ++ env)
  marks : S'.marks = S.marks
  ends : S'.ends = S.ends
  waited : S.waited ⊆ S'.waited
  fresh : ∀ i ∈ S'.waited, i ∈ S.waited ∨ i ∈ ids
  pending : ∀ p ∈ S'.pending, p.node.id ∈ S'.waited
  kept : ∀ i, i ∉ ids → i ∉ S.waited → S'.resolved i = S.resolved i
  answers : ∀ s ∈ sites e env ts, s.id ∉ S'.waited → S'.resolved s.id = s.seen.map Key.id

/-- A state that acts may run in: `ids` are not resolved in it. -/
structure Ready (e : ℕ) (env : List (Key Bytes)) (ids : List ℕ) (S : State) : Prop where
  holds : S.Holds env
  ends : S.ends.headD 0 = e
  pending : ∀ p ∈ S.pending, p.node.id ∈ S.waited
  nodup : ids.Nodup
  fresh : ∀ i ∈ ids, S.resolved i = none ∧ i ∉ S.waited

variable {e : ℕ} {ids : List ℕ}

theorem Same.ran (h : Same S S') (hS : Ready e env ids S) : Ran e env [] [] S S' where
  keys := by rw [h.keys]; exact (append_nil _).symm
  holds := h.holds hS.holds
  marks := h.marks
  ends := h.ends
  waited := by rw [h.waited]; exact List.Subset.refl _
  fresh i hi := .inl (h.waited ▸ hi)
  pending p hp := by
    rw [h.pending] at hp
    rw [h.waited]
    exact hS.pending p hp
  kept i _ _ := by rw [h.resolved]
  answers s hs := absurd hs not_mem_nil

variable {ts : List (Shape Bytes)} {ids' : List ℕ}

theorem Ran.append {us : List (Shape Bytes)} (h : Ran e env ts ids S T)
    (h' : Ran e ((binds e ts).reverse ++ env) us ids' T U) (hids : ∀ s ∈ sites e env ts, s.id ∈ ids)
    (hnodup : (ids ++ ids').Nodup) :
    Ran e env (ts ++ us) (ids ++ ids') S U where
  keys := by rw [h'.keys, h.keys, Lexical.keys_append, append_assoc]
  holds := by
    rw [Lexical.binds_append, reverse_append, append_assoc]
    exact h'.holds
  marks := h'.marks.trans h.marks
  ends := h'.ends.trans h.ends
  waited := List.Subset.trans h.waited h'.waited
  fresh i hi := by
    rcases h'.fresh i hi with hi | hi
    · exact (h.fresh i hi).imp_right (mem_append_left _)
    · exact .inr (mem_append_right _ hi)
  pending := h'.pending
  kept i hi hw := by
    rw [mem_append, not_or] at hi
    have hT : i ∉ T.waited := fun hmem => (h.fresh i hmem).elim hw hi.1
    rw [h'.kept i hi.2 hT, h.kept i hi.1 hw]
  answers s hs hw := by
    rw [Lexical.sites_append] at hs
    rcases mem_append.mp hs with hs | hs
    · have hT : s.id ∉ T.waited := fun hmem => hw (h'.waited hmem)
      rw [h'.kept s.id (disjoint_of_nodup_append hnodup (hids s hs)) hT]
      exact h.answers s hs hT
    · exact h'.answers s hs hw

theorem Ran.ready (h : Ran e env ts ids S T) (hS : Ready e env (ids ++ ids') S) :
    Ready e ((binds e ts).reverse ++ env) ids' T where
  holds := h.holds
  ends := by rw [h.ends]; exact hS.ends
  pending := h.pending
  nodup := hS.nodup.of_append_right
  fresh i hi := by
    obtain ⟨hnone, hw⟩ := hS.fresh i (mem_append_right _ hi)
    have hout : i ∉ ids := fun hmem => disjoint_of_nodup_append hS.nodup hmem hi
    exact ⟨(h.kept i hout hw).trans hnone, fun hmem => (h.fresh i hmem).elim hw hout⟩

theorem Ready.left (h : Ready e env (ids ++ ids') S) : Ready e env ids S :=
  ⟨h.holds, h.ends, h.pending, h.nodup.of_append_left, fun i hi => h.fresh i (mem_append_left _ hi)⟩

mutual

theorem Act.shape_ids : ∀ (a : Act), (Lexical.ids a.shape).Sublist a.nodes
  | .frame _ _ body | .loop _ body | .defer _ body | .floor body => shapes_ids body
  | .scope _ body => by
    simp only [Act.shape, Lexical.ids, Shape.ids, append_nil]
    exact shapes_ids body
  | .declare b _ _ _ _ _ _ => by
    unfold Act.shape
    split <;> exact nil_sublist _
  | .use_name n _ => List.Sublist.refl _
  | .use_type t path => by
    unfold Act.shape Act.nodes
    cases head_of path with
    | none => exact nil_sublist _
    | some head => exact List.Sublist.refl _
  | .assign_end _ | .narrows _ _ | .report _ _ | .own_off => nil_sublist _

theorem shapes_ids : ∀ (as : List Act), (Lexical.ids (shapes as)).Sublist (nodes as)
  | [] => nil_sublist _
  | a :: as => by
    rw [shapes, nodes, Lexical.ids_append]
    exact (Act.shape_ids a).append (shapes_ids as)

end

theorem Ready.same (h : Ready e env ids S) (hsame : Same S S') : Ready e env ids S' where
  holds := hsame.holds h.holds
  ends := by rw [hsame.ends]; exact h.ends
  pending p hp := by
    rw [hsame.pending] at hp
    rw [hsame.waited]
    exact h.pending p hp
  nodup := h.nodup
  fresh i hi := by
    rw [hsame.resolved, hsame.waited]
    exact h.fresh i hi

theorem Ran.same {T' : State} (h : Ran e env ts ids S' T) (hS : Same S S') (hT : Same T T') :
    Ran e env ts ids S T' where
  keys := by rw [hT.keys, h.keys, hS.keys]
  holds := hT.holds h.holds
  marks := by rw [hT.marks, h.marks, hS.marks]
  ends := by rw [hT.ends, h.ends, hS.ends]
  waited := by rw [hT.waited, ← hS.waited]; exact h.waited
  fresh i hi := by rw [← hS.waited]; exact h.fresh i (hT.waited ▸ hi)
  pending p hp := by
    rw [hT.pending] at hp
    rw [hT.waited]
    exact h.pending p hp
  kept i hi hw := by rw [hT.resolved, h.kept i hi (by rw [hS.waited]; exact hw), hS.resolved]
  answers s hs hw := by
    rw [hT.resolved]
    exact h.answers s hs (by rw [← hT.waited]; exact hw)

/-! ## The end of a scope -/

/-- A change that resolves none but the nodes `ids`, and leaves the scopes and the bindings as they
were. -/
structure Settling (ids : List ℕ) (S S' : State) : Prop where
  keys : S'.made_keys = S.made_keys
  visible : S'.visible = S.visible
  names : S'.names = S.names
  marks : S'.marks = S.marks
  ends : S'.ends = S.ends
  waited : S'.waited = S.waited
  pending : ∀ p ∈ S'.pending, p.node.id ∈ ids
  kept : ∀ i, i ∉ ids → S'.resolved i = S.resolved i

variable {t : Base}

theorem Same.type_use {r : ℕ} {v : Var} (hv : S.list[r]? = some v) :
    Same { S with resolved := put S.resolved t.id (some v.id) } (S.type_use t r) := by
  unfold State.type_use
  rw [hv]
  refine Same.report_if ?_ _ _ _ _
  exact Same.modify _ r fun _ => rfl

theorem Settling.resolve_one (h : Settling ids S T) {p : Pending} (hp : p.node.id ∈ ids) (depth : ℕ) :
    Settling ids S (T.resolve_one depth p) := by
  unfold State.resolve_one
  cases T.lookup p.name with
  | some r =>
    dsimp only
    cases hv : T.list[r]? with
    | none =>
      have hsame : T.type_use p.node r = T := by
        unfold State.type_use
        rw [hv]
      rwa [hsame]
    | some v =>
      have hsame := Same.type_use (t := p.node) hv
      refine ⟨hsame.keys.trans h.keys, hsame.visible.trans h.visible, hsame.names.trans h.names,
        hsame.marks.trans h.marks, hsame.ends.trans h.ends, hsame.waited.trans h.waited,
        fun q hq => h.pending q (hsame.pending ▸ hq), fun i hi => ?_⟩
      rw [hsame.resolved]
      change put T.resolved p.node.id (some v.id) i = _
      rw [put, update_of_ne (fun heq : i = p.node.id => hi (heq ▸ hp)), h.kept i hi]
  | none =>
    dsimp only
    split
    · refine ⟨h.keys, h.visible, h.names, h.marks, h.ends, h.waited, fun q hq => ?_, h.kept⟩
      rcases mem_append.mp hq with hq | hq
      · exact h.pending q hq
      · rwa [mem_singleton.mp hq]
    · exact ⟨h.keys, h.visible, h.names, h.marks, h.ends, h.waited, h.pending, h.kept⟩

theorem Settling.resolve_pending (S : State) (depth : ℕ) :
    Settling (S.pending.map fun p => p.node.id) S (S.resolve_pending depth) := by
  have hfold : ∀ (taken : List Pending) (T : State), (∀ p ∈ taken, p ∈ S.pending) →
      Settling (S.pending.map fun p => p.node.id) S T →
      Settling (S.pending.map fun p => p.node.id) S (taken.foldl (State.resolve_one depth) T) := by
    intro taken
    induction taken with
    | nil => exact fun T _ hT => hT
    | cons p taken ih =>
      intro T hmem hT
      exact ih _ (fun q hq => hmem q (mem_cons_of_mem _ hq))
        (hT.resolve_one (mem_map_of_mem (hmem p mem_cons_self)) depth)
  refine hfold _ _ (fun p hp => ?_) ⟨rfl, rfl, rfl, rfl, rfl, rfl, fun p hp => ?_, fun _ _ => rfl⟩
  · exact mem_reverse.mp ((takeWhile_sublist _).subset (mem_reverse.mp hp))
  · exact mem_map_of_mem (mem_of_mem_take hp)

theorem State.Holds.close {new : List (Key Bytes)} {mark : ℕ} {marks : List ℕ} (h : S.Holds (new ++ env))
    (hmarks : S.marks = mark :: marks) (hmark : mark = env.length)
    (hpending : ∀ p ∈ S.pending, p.node.id ∈ S.waited) :
    S.close.Holds env ∧ S.close.made_keys = S.made_keys ∧ S.close.marks = marks ∧ S.close.ends = S.ends.tail ∧
      S.close.waited = S.waited ∧ (∀ p ∈ S.close.pending, p.node.id ∈ S.waited) ∧
      ∀ i, i ∉ S.waited → S.close.resolved i = S.resolved i := by
  have hsettled : ∃ T, (if S.pending = [] then S else S.resolve_pending S.marks.length) = T ∧
      Settling (S.pending.map fun p => p.node.id) S T := by
    split
    · exact ⟨S, rfl, rfl, rfl, rfl, rfl, rfl, rfl, fun p hp => mem_map_of_mem hp, fun _ _ => rfl⟩
    · exact ⟨_, rfl, Settling.resolve_pending S S.marks.length⟩
  obtain ⟨T, hT, hsettling⟩ := hsettled
  have hids : ∀ i ∈ S.pending.map (fun p => p.node.id), i ∈ S.waited := by
    intro i hi
    obtain ⟨p, hp, rfl⟩ := mem_map.mp hi
    exact hpending p hp
  have hholds : T.Holds (new ++ env) :=
    ⟨hsettling.names.trans h.names, fun x => by rw [hsettling.visible, hsettling.keys]; exact h.visible x⟩
  have hcount : T.names.length - S.marks.headD 0 = new.length := by
    rw [hholds.names, hmarks, length_map, length_append, headD_cons, hmark]
    omega
  obtain ⟨hkept, hkeys, hm, he, hr, hp, hw⟩ := hholds.forget
  have hclose : S.close = { T.forget new.length with
      marks := (T.forget new.length).marks.tail, ends := (T.forget new.length).ends.tail } := by
    unfold State.close
    dsimp only
    rw [hT, hcount]
  rw [hclose]
  refine ⟨⟨hkept.names, hkept.visible⟩, hkeys.trans hsettling.keys, ?_, ?_, hw.trans hsettling.waited, ?_, ?_⟩
  · rw [hm, hsettling.marks, hmarks, tail_cons]
  · rw [he, hsettling.ends]
  · intro p hp'
    rw [hp] at hp'
    exact hids _ (hsettling.pending p hp')
  · intro i hi
    rw [hr]
    exact hsettling.kept i fun hmem => hi (hids i hmem)

/-! ## One call -/

theorem Same.in_loop (S : State) (id : ℕ) : Same S (S.in_loop id) := by
  unfold State.in_loop
  cases S.frames with
  | nil => exact Same.refl S
  | cons f frames => exact Same.of_eq rfl rfl rfl rfl rfl rfl rfl rfl

theorem Same.enter_loop (S : State) (id : ℕ) : Same S (S.enter_loop id) :=
  (Same.of_eq rfl rfl rfl rfl rfl rfl rfl rfl : Same S { S with
    loop_parent := put S.loop_parent id S.frame.loop
    loop_level := put S.loop_level id (S.loop_level S.frame.loop + 1) }).trans (Same.in_loop _ id)

theorem Ran.scope {last : ℕ} (hS : S.Holds env) (h : Ran last env ts ids (S.open_ last) T) :
    Ran e env [.scope last ts] ids S T.close := by
  obtain ⟨hholds, hkeys, hmarks, hends, hwaited, hpending, hkept⟩ :=
    h.holds.close h.marks (by rw [hS.names, length_map]) h.pending
  have hshape : Lexical.keys e [Shape.scope last ts] = Lexical.keys last ts := append_nil _
  refine ⟨?_, hholds, hmarks, ?_, ?_, ?_, ?_, fun i hi hw => ?_, fun s hs hw => ?_⟩
  · rw [hkeys, h.keys, hshape]
    rfl
  · rw [hends, h.ends]
    rfl
  · rw [hwaited]
    exact h.waited
  · rw [hwaited]
    exact h.fresh
  · rwa [hwaited]
  · rw [hkept i fun hmem => (h.fresh i hmem).elim hw hi]
    exact h.kept i hi hw
  · rw [hwaited] at hw
    rw [hkept s.id hw]
    exact h.answers s (by simpa only [sites, Shape.sites, append_nil] using hs) hw

/-- What a use may do before changes that are not the scopes': it resolves its node to what it sees, or
waits. -/
structure Used (i : ℕ) (seen : Option (Key Bytes)) (S T : State) : Prop where
  keys : T.made_keys = S.made_keys
  visible : T.visible = S.visible
  names : T.names = S.names
  marks : T.marks = S.marks
  ends : T.ends = S.ends
  waited : S.waited ⊆ T.waited
  fresh : ∀ j ∈ T.waited, j ∈ S.waited ∨ j = i
  pending : ∀ q ∈ T.pending, q.node.id ∈ T.waited
  kept : ∀ j, j ≠ i → T.resolved j = S.resolved j
  answer : i ∉ T.waited → T.resolved i = seen.map Key.id

variable {i : ℕ}

theorem Used.ran {p : ℕ} (hS : Ready e env [i] S) (h : Used i (see env x) S T) (hsame : Same T S') :
    Ran e env [.use p x i] [i] S S' := by
  have hran : Ran e env [.use p x i] [i] S T := by
    refine ⟨h.keys.trans (append_nil _).symm, ?_, h.marks, h.ends, h.waited, fun j hj => ?_, h.pending,
      fun j hj _ => h.kept j (by simpa using hj), fun s hs hw => ?_⟩
    · exact ⟨h.names.trans hS.holds.names, fun y => by rw [h.visible, h.keys]; exact hS.holds.visible y⟩
    · exact (h.fresh j hj).imp_right mem_singleton.mpr
    · rw [mem_singleton.mp hs] at hw ⊢
      exact h.answer hw
  exact hran.same (Same.refl S) hsame

theorem Used.unseen (hS : Ready e env [i] S) : Used i none S S := by
  obtain ⟨hnone, -⟩ := hS.fresh i (mem_singleton_self _)
  exact ⟨rfl, rfl, rfl, rfl, rfl, List.Subset.refl _, fun _ hj => .inl hj, hS.pending, fun _ _ => rfl, fun _ => hnone⟩

theorem Used.seen (hS : Ready e env [i] S) (v : Var) (binding : ℕ → Option ℕ) : Used i (some v.key) S { S with
      binding := binding
      resolved := put S.resolved i (some v.id) } :=
  ⟨rfl, rfl, rfl, rfl, rfl, List.Subset.refl _, fun _ hj => .inl hj, hS.pending,
    fun _ hj => update_of_ne hj _ _, fun _ => update_self _ _ _⟩

theorem Ran.use_name {n : Name} (hS : Ready e env [n.id] S) (write : Bool) :
    Ran e env [.use n.first n.text n.id] [n.id] S (S.use_name n write) := by
  unfold State.use_name
  cases hr : S.lookup n.text with
  | none =>
    refine Used.ran hS ?_ (Same.use_global S n write)
    rw [hS.holds.not_found hr]
    exact Used.unseen hS
  | some r =>
    obtain ⟨v, hv, hsee⟩ := hS.holds.found hr
    dsimp only
    rw [hv]
    refine Used.ran hS (hsee ▸ Used.seen hS v (put S.binding n.id (some v.id))) ?_
    cases write with
    | true => exact (Same.report_if (Same.refl _) _ _ _ _).trans (Same.write_name _ n r v)
    | false => exact (Same.report_if (Same.refl _) _ _ _ _).trans (Same.read_name _ n r v)

theorem Ran.wait {head : Bytes} (hS : Ready e env [t.id] S) (hsee : see env head = none) :
    Ran e env [.use t.first head t.id] [t.id] S (S.wait t head) := by
  unfold State.wait
  split
  · have hused : Used t.id (see env head) S { S with
        pending := S.pending ++ [⟨t, head, min S.marks.length S.floor⟩]
        waited := S.waited ++ [t.id] } := by
      refine ⟨rfl, rfl, rfl, rfl, rfl, subset_append_left _ _, fun j hj => ?_, fun q hq => ?_,
        fun _ _ => rfl, fun hout => ?_⟩
      · exact (mem_append.mp hj).imp_right mem_singleton.mp
      · rcases mem_append.mp hq with hq | hq
        · exact mem_append_left _ (hS.pending q hq)
        · rw [mem_singleton.mp hq]
          exact mem_append_right _ (mem_singleton_self _)
      · exact absurd (mem_append_right _ (mem_singleton_self _)) hout
    exact Used.ran hS hused (Same.refl _)
  · exact Used.ran (T := S) hS (hsee ▸ Used.unseen hS) (Same.of_eq rfl rfl rfl rfl rfl rfl rfl rfl)

theorem Ran.use_type {path : List Bytes} {head : Bytes} (hhead : head_of path = some head)
    (hS : Ready e env [t.id] S) :
    Ran e env [.use t.first head t.id] [t.id] S (S.use_type t path) := by
  cases path with
  | nil => cases hhead
  | cons first rest =>
    unfold head_of at hhead
    dsimp only at hhead
    split at hhead
    · cases hhead
    next hprimitive =>
    rw [some.injEq] at hhead
    subst hhead
    unfold State.use_type
    dsimp only
    rw [if_neg hprimitive]
    cases hr : S.lookup first with
    | some r =>
      obtain ⟨v, hv, hsee⟩ := hS.holds.found hr
      exact Used.ran hS (hsee ▸ Used.seen hS v S.binding) (Same.type_use hv)
    | none =>
      have hsee := hS.holds.not_found hr
      cases S.declared first with
      | none => exact Ran.wait hS hsee
      | some g =>
        dsimp only
        split
        · exact Used.ran (T := S) hS (hsee ▸ Used.unseen hS) (Same.of_eq rfl rfl rfl rfl rfl rfl rfl rfl)
        · exact Ran.wait hS hsee

theorem use_type_primitive {path : List Bytes} (hhead : head_of path = none) : S.use_type t path = S := by
  cases path with
  | nil => rfl
  | cons first rest =>
    unfold head_of at hhead
    dsimp only at hhead
    split at hhead
    · next hprimitive =>
      unfold State.use_type
      dsimp only
      rw [if_pos hprimitive]
    · cases hhead

theorem Same.ite {p : Prop} [Decidable p] (h : Same S T) (h' : Same S U) : Same S (if p then T else U) := by
  split_ifs
  · exact h
  · exact h'

theorem State.Holds.push (h : S.Holds env) (v : Var) : ({ S with
      list := S.list ++ [v]
      visible := put S.visible v.name (S.list.length :: S.visible v.name)
      names := v.name :: S.names } : State).Holds (v.key :: env) where
  names := congrArg (v.name :: ·) h.names
  visible x := by
    -- The bindings that were in scope are where they were in the longer list.
    have hold : ∀ y,
        (S.visible y).map (fun r => ((S.list ++ [v]).map Var.key)[r]?) = (env.filter fun k => k.name = y).map some := by
      intro y
      rw [← h.visible y]
      refine map_congr_left fun r hr => ?_
      have hmem : S.made_keys[r]? ∈ (S.visible y).map (S.made_keys[·]?) := mem_map_of_mem hr
      rw [h.visible y] at hmem
      obtain ⟨k, -, hk⟩ := mem_map.mp hmem
      have hlt : r < S.made_keys.length := by
        by_contra hge
        rw [getElem?_eq_none (by omega)] at hk
        cases hk
      rw [map_append]
      exact getElem?_append_left hlt
    change (put S.visible v.name (S.list.length :: S.visible v.name) x).map
      (fun r => ((S.list ++ [v]).map Var.key)[r]?) = _
    rw [filter_cons]
    by_cases hx : x = v.name
    · subst hx
      rw [put, update_self, map_cons, hold, if_pos (by simp [Var.key]), map_cons]
      congr 1
      simp
    · have hne : v.key.name ≠ x := Ne.symm hx
      rw [put, update_of_ne hx, hold, if_neg (by simpa using hne)]

theorem Ran.declare (hS : Ready e env [] S) (b : Binding) (kind : Kind) (from_ : ℕ) (check : Bool)
    (copy : Option Name) (is_global : Bool) :
    Ran e env (if b.name = [] then [] else [.bind b.name from_ b.id]) [] S
      (S.declare b kind from_ check copy is_global) := by
  unfold State.declare
  extract_lets name token prior reported v
  have hreported : Same S reported :=
    Same.ite (Same.report _ _ _ _) (Same.ite (Same.report _ _ _ _) (Same.ite (Same.report _ _ _ _) (Same.refl S)))
  have hname : b.name = name := rfl
  rw [hname]
  split
  · exact hreported.ran hS
  have hkey : v.key = Lexical.key e name from_ b.id := by
    rw [← hS.ends]
    rfl
  have hpush := hS.holds.push v
  have hran : Ran e env [.bind name from_ b.id] [] S { S with
      list := S.list ++ [v]
      visible := put S.visible v.name (S.list.length :: S.visible v.name)
      names := v.name :: S.names } := by
    refine ⟨?_, ?_, rfl, rfl, List.Subset.refl _, fun _ hj => .inl hj, hS.pending, fun _ _ _ => rfl, nofun⟩
    · have hkeys : Lexical.keys e [.bind name from_ b.id] = [v.key] := by rw [hkey]; rfl
      rw [hkeys]
      exact map_append
    · have hbinds : binds e [.bind name from_ b.id] = [v.key] := by rw [hkey]; rfl
      rwa [hbinds]
  exact hran.same (Same.refl S)
    ⟨rfl, rfl, rfl, hreported.marks, hreported.ends, hreported.resolved, hreported.pending, hreported.waited⟩

theorem Ran.narrows {id bound : ℕ} (hS : Ready e env [id] S) :
    Ran e env [] [id] S { S with resolved := put S.resolved id (some bound) } where
  keys := (append_nil _).symm
  holds := ⟨hS.holds.names, hS.holds.visible⟩
  marks := rfl
  ends := rfl
  waited := List.Subset.refl _
  fresh _ hi := .inl hi
  pending := hS.pending
  kept _ hi _ := update_of_ne (by simpa using hi) _ _
  answers _ hs := absurd hs not_mem_nil

/-! ## A whole run -/

mutual

theorem run_ran : ∀ (a : Act) {e : ℕ} {env : List (Key Bytes)} {S : State}, Ready e env a.nodes S →
    Ran e env a.shape a.nodes S (run a S)
  | .frame id last body, e, env, S, hS => by
    have hpush : Same S (S.push_frame id last) := Same.of_eq rfl rfl rfl rfl rfl rfl rfl rfl
    exact (runs_ran body (hS.same hpush)).same hpush (Same.of_eq rfl rfl rfl rfl rfl rfl rfl rfl)
  | .scope last body, e, env, S, hS => by
    refine Ran.scope hS.holds (runs_ran body ⟨?_, rfl, hS.pending, hS.nodup, hS.fresh⟩)
    exact ⟨hS.holds.names, hS.holds.visible⟩
  | .loop id body, e, env, S, hS => by
    exact (runs_ran body (hS.same (Same.enter_loop S id))).same (Same.enter_loop S id) (Same.in_loop _ _)
  | .defer value body, e, env, S, hS => by
    have hset : Same S { S with defer := value } := Same.of_eq rfl rfl rfl rfl rfl rfl rfl rfl
    exact (runs_ran body (hS.same hset)).same hset (Same.of_eq rfl rfl rfl rfl rfl rfl rfl rfl)
  | .floor body, e, env, S, hS => by
    have hset : Same S { S with floor := S.marks.length - 1 } := Same.of_eq rfl rfl rfl rfl rfl rfl rfl rfl
    exact (runs_ran body (hS.same hset)).same hset (Same.of_eq rfl rfl rfl rfl rfl rfl rfl rfl)
  | .declare b kind from_ check copy is_global fields, e, env, S, hS => by
    refine (Ran.declare hS b kind from_ check copy is_global).same (Same.refl S) ?_
    exact Same.ite (Same.refl _) (Same.fields _ _)
  | .use_name n write, e, env, S, hS => Ran.use_name hS write
  | .assign_end last, e, env, S, hS => by
    have hset : Same S { S with assign_end := last } := Same.of_eq rfl rfl rfl rfl rfl rfl rfl rfl
    exact hset.ran hS
  | .use_type t path, e, env, S, hS => by
    unfold Act.shape run
    unfold Act.nodes at hS ⊢
    cases hhead : head_of path with
    | none =>
      rw [use_type_primitive hhead]
      exact Same.ran (Same.refl S) hS
    | some head =>
      rw [hhead] at hS
      exact Ran.use_type hhead hS
  | .narrows id bound, e, env, S, hS => Ran.narrows hS
  | .report code token, e, env, S, hS => Same.ran (Same.report _ _ _ _) hS
  | .own_off, e, env, S, hS => by
    have hset : Same S { S with own := none } := Same.of_eq rfl rfl rfl rfl rfl rfl rfl rfl
    exact hset.ran hS

theorem runs_ran : ∀ (as : List Act) {e : ℕ} {env : List (Key Bytes)} {S : State}, Ready e env (nodes as) S →
    Ran e env (shapes as) (nodes as) S (runs as S)
  | [], e, env, S, hS => Same.ran (Same.refl S) hS
  | a :: as, e, env, S, hS => by
    have ha := run_ran a hS.left
    refine ha.append (runs_ran as (ha.ready hS)) (fun s hs => ?_) hS.nodup
    exact (Act.shape_ids a).subset (Lexical.site_id (by simpa only [sites, append_nil] using hs))

end

end Cosmic.Scopes

/-!
The type names for which the scopes of a walk and the intervals of its bindings differ.

Three kinds of type name are found in the scopes to be one binding and by the intervals to be
another. In the signature of a function: the parameters are bound after it is walked, though each
is visible from its own token. In the type of an alias and in the constraints of its type
parameters, for the alias's own name. In the constraint of a type parameter that names a later one
of its list: all of them are bound before the constraints are walked. `overtaken` has the type
names of a program that stand so.
-/

namespace Cosmic.Scopes

open Cosmic.Base Cosmic.Ast
open Cosmic.Base.Lexical (Spot Over Ahead unbound)

/-! ## The type names that a binding overtakes -/

/-- The names that are bound late, each with its own token. -/
abbrev Lates := List (Bytes × ℕ)

def spots (typeparams : List TypeParam) : List (Spot Bytes) :=
  typeparams.map fun p => match p with
    | .mk _ name _ => ⟨name.name, name.first, name.id⟩

/-- The type names that are looked for in the constraints of a list of type parameters. -/
def heads (typeparams : List TypeParam) : List (Spot Bytes) :=
  typeparams.filterMap fun p => match p with
    | .mk _ _ (some (.TypeName c path _)) => (head_of path).map fun head => ⟨head, c.first, c.id⟩
    | .mk _ _ _ => none

def overtaken_typeparams (late : Lates) (typeparams : List TypeParam) : List ℕ :=
  ((heads typeparams).filter fun u => Ahead (spots typeparams) late u).map Spot.id

mutual

def overtaken_type (late : Lates) : Ty → List ℕ
  | .TypeName b path args =>
    (match head_of path with
      | some head => if Over late b.first head then [b.id] else []
      | none => []) ++ overtaken_types late args
  | .TypeBool _ _ | .TypeNil _ | .TypeError _ => []
  | .TypeArray _ element => overtaken_type late element
  | .TypeMap _ key value => overtaken_type late key ++ overtaken_type late value
  | .TypeUnion _ members => overtaken_types late members
  | .TypeOptional _ inner | .TypeMut _ inner => overtaken_type late inner
  | .TypeFunction _ typeparams params rets =>
    overtaken_typeparams late typeparams ++ (overtaken_ptypes (unbound (spots typeparams) late) params ++
        overtaken_rets (unbound (spots typeparams) late) (ptype_names params) rets)

def overtaken_types (late : Lates) : List Ty → List ℕ
  | [] => []
  | t :: list => overtaken_type late t ++ overtaken_types late list

def overtaken_ptypes (late : Lates) : List PType → List ℕ
  | [] => []
  | .mk _ _ _ _ type :: list => overtaken_type late type ++ overtaken_ptypes late list

def overtaken_rets (late : Lates) (params : Bytes → Option ℕ) : Option Rets → List ℕ
  | none => []
  | some (.mk _ lists _) => overtaken_lists late params lists

def overtaken_lists (late : Lates) (params : Bytes → Option ℕ) : List (List RType) → List ℕ
  | [] => []
  | list :: lists => overtaken_rtypes late params list ++ overtaken_lists late params lists

def overtaken_rtypes (late : Lates) (params : Bytes → Option ℕ) : List RType → List ℕ
  | [] => []
  | .type t :: list => overtaken_type late t ++ overtaken_rtypes late params list
  | .Narrows _ param type _ :: list =>
    -- The type of a narrowing return that names no parameter is not walked.
    (if (params param).isSome then overtaken_type late type else []) ++ overtaken_rtypes late params list

end

/-- The names of a function's parameters. -/
def param_spots (params : List Param) : List (Spot Bytes) :=
  params.filterMap fun p => p.name.map fun name => ⟨name.name, name.first, name.id⟩

def lates (bs : List (Spot Bytes)) : Lates := bs.map fun b => (b.name, b.at_)

def overtaken_params (late : Lates) : List Param → List ℕ
  | [] => []
  | p :: params => (p.type.map (overtaken_type late)).getD [] ++ overtaken_params late params

/-- Those of the types of a signature, which its own parameters overtake. -/
def overtaken_signature (params : List Param) (rets : Option Rets) : List ℕ :=
  overtaken_params (lates (param_spots params)) params ++
    overtaken_rets (lates (param_spots params)) (param_names params) rets

mutual

def overtaken_exp : Exp → List ℕ
  | .Name _ | .Nil _ | .Boolean _ _ | .Integer _ | .Float _ | .String _ _ _ | .Vararg _ | .Error _ => []
  | .Paren _ inner => overtaken_exp inner
  | .FunctionLit _ fn => overtaken_fn [] fn
  | .Table _ items => overtaken_items items
  | .Unary _ _ operand => overtaken_exp operand
  | .IfExp _ arms else_value => overtaken_exp_arms arms ++ overtaken_exp else_value
  | .Field _ object _ => overtaken_exp object
  | .Binary _ _ left right => overtaken_exp left ++ overtaken_exp right
  | .Call _ callee args => overtaken_exp callee ++ overtaken_exps args
  | .MethodCall _ object _ args => overtaken_exp object ++ overtaken_exps args
  | .Index _ object key => overtaken_exp object ++ overtaken_exp key
  | .IsTest _ value type | .Cast _ value type => overtaken_exp value ++ overtaken_type [] type

def overtaken_exps : List Exp → List ℕ
  | [] => []
  | e :: list => overtaken_exp e ++ overtaken_exps list

def overtaken_items : List Item → List ℕ
  | [] => []
  | .Positional _ value :: items | .Spread _ value :: items | .Named _ _ value :: items =>
    overtaken_exp value ++ overtaken_items items
  | .Keyed _ key value :: items => overtaken_exp key ++ overtaken_exp value ++ overtaken_items items

def overtaken_exp_arms : List ExpArm → List ℕ
  | [] => []
  | .mk _ cond value :: arms => overtaken_exp cond ++ overtaken_exp value ++ overtaken_exp_arms arms

def overtaken_fn (typeparams : List TypeParam) : Fn → List ℕ
  | .mk _ params rets body =>
    overtaken_typeparams [] typeparams ++ (overtaken_signature params rets ++ overtaken_block body)

def overtaken_block : Block → List ℕ
  | .mk _ list _ => overtaken_stats list

def overtaken_stat : Stat → List ℕ
  | .Local _ _ _ types values => overtaken_types [] types ++ overtaken_exps values
  | .LocalFunction _ _ typeparams fn | .Function _ _ typeparams fn => overtaken_fn typeparams fn
  | .Assign _ targets values => overtaken_exps values ++ overtaken_exps targets
  | .CallStat _ call => overtaken_exp call
  | .Return _ values => overtaken_exps values
  | .Do _ body => overtaken_block body
  | .Break _ | .Continue _ | .Error _ => []
  | .While _ cond body => overtaken_exp cond ++ overtaken_block body
  | .Repeat _ body cond => overtaken_block body ++ overtaken_exp cond
  | .If _ arms none => overtaken_arms arms
  | .If _ arms (some else_body) => overtaken_arms arms ++ overtaken_block else_body
  | .Match _ scrutinee arms => overtaken_exp scrutinee ++ overtaken_match_arms arms
  | .ForNum _ _ from_ to_ none body => overtaken_exp from_ ++ overtaken_exp to_ ++ overtaken_block body
  | .ForNum _ _ from_ to_ (some step) body =>
    overtaken_exp from_ ++ overtaken_exp to_ ++ overtaken_exp step ++ overtaken_block body
  | .ForIn _ _ iterators body => overtaken_exps iterators ++ overtaken_block body
  | .Decl d => overtaken_decl d

def overtaken_stats : List Stat → List ℕ
  | [] => []
  | s :: list => overtaken_stat s ++ overtaken_stats list

def overtaken_arms : List Arm → List ℕ
  | [] => []
  | .mk _ cond body :: arms => overtaken_exp cond ++ overtaken_block body ++ overtaken_arms arms

def overtaken_match_arms : List MatchArm → List ℕ
  | [] => []
  | .mk _ _ body :: arms => overtaken_block body ++ overtaken_match_arms arms

def overtaken_decl : Decl → List ℕ
  | .Record _ _ _ typeparams supers array members =>
    overtaken_typeparams [] typeparams ++
      (overtaken_types [] supers ++ ((array.map (overtaken_type [])).getD [] ++ overtaken_members members))
  | .Interface _ _ _ typeparams supers members | .Class _ _ _ typeparams supers members =>
    overtaken_typeparams [] typeparams ++ (overtaken_types [] supers ++ overtaken_members members)
  | .Enum _ _ _ _ | .Import _ _ _ _ => []
  | .Alias _ _ name typeparams type =>
    overtaken_typeparams [(name.name, name.first)] typeparams ++
      overtaken_type (unbound (spots typeparams) [(name.name, name.first)]) type

def overtaken_members : List Member → List ℕ
  | [] => []
  | .FieldDecl _ _ _ _ type :: list => overtaken_type [] type ++ overtaken_members list
  | .Decl d :: list => overtaken_decl d ++ overtaken_members list
  | .Method _ _ params rets body :: list =>
    overtaken_signature params rets ++ overtaken_block body ++ overtaken_members list
  | .Userdata _ :: list | .Error _ :: list => overtaken_members list

end

/-- The type names of a program that a binding overtakes. -/
def overtaken (chunk : Chunk) : List ℕ := overtaken_block chunk.body

end Cosmic.Scopes
