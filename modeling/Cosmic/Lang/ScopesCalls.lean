/-
The calls of a walk one by one, and the type names among them.

What waits for a later declaration, and what a binding overtakes, is always a type name: a value
name is never either.
-/
import Cosmic.Lang.ScopesRun
import Mathlib.Data.List.Pairwise

set_option autoImplicit false

namespace Cosmic.Scopes

open Cosmic.Base Cosmic.Ast List
open Cosmic.Base.Lexical (Shape Key Site Spot Ahead sites)

/-! ## Calls -/

mutual

/-- The calls that an act makes on its state, with those made while it holds. -/
def Act.calls : Act → List Act
  | .frame _ _ body | .loop _ body | .defer _ body | .floor body | .scope _ body => calls body
  | a => [a]

def calls : List Act → List Act
  | [] => []
  | a :: acts => a.calls ++ calls acts

end

@[simp] theorem calls_append (as bs : List Act) : calls (as ++ bs) = calls as ++ calls bs := by
  induction as with
  | nil => rfl
  | cons a as ih => simp only [cons_append, calls, ih, append_assoc]

mutual

theorem Act.nodes_calls : ∀ (a : Act), a.nodes = a.calls.flatMap Act.nodes
  | .frame _ _ body | .loop _ body | .defer _ body | .floor body | .scope _ body => nodes_calls body
  | .declare _ _ _ _ _ _ _ | .use_name _ _ | .use_type _ _ | .narrows _ _ | .assign_end _ | .report _ _ | .own_off =>
    (append_nil _).symm

theorem nodes_calls : ∀ (as : List Act), nodes as = (calls as).flatMap Act.nodes
  | [] => rfl
  | a :: as => by rw [nodes, calls, flatMap_append, Act.nodes_calls a, nodes_calls as]

end

mutual

theorem Act.site_of_call : ∀ (a : Act) {c : Act} {u : Spot Bytes}, c ∈ a.calls → c.shape = [u.use] →
    ∀ (env : List (Key Bytes)) (e : ℕ), ∃ s ∈ sites e env a.shape, s.place = u.at_ ∧ s.name = u.name ∧ s.id = u.id
  | .frame _ _ body, _, _, hc, hu, env, e | .loop _ body, _, _, hc, hu, env, e
  | .defer _ body, _, _, hc, hu, env, e | .floor body, _, _, hc, hu, env, e => site_of_call body hc hu env e
  | .scope last body, _, _, hc, hu, env, e => by
    obtain ⟨s, hs, hu⟩ := site_of_call body hc hu env last
    exact ⟨s, by simpa only [Act.shape, sites, Shape.sites, append_nil] using hs, hu⟩
  | .declare _ _ _ _ _ _ _, _, u, hc, hu, env, e | .use_name _ _, _, u, hc, hu, env, e
  | .use_type _ _, _, u, hc, hu, env, e | .narrows _ _, _, u, hc, hu, env, e | .assign_end _, _, u, hc, hu, env, e
  | .report _ _, _, u, hc, hu, env, e | .own_off, _, u, hc, hu, env, e => by
    rw [mem_singleton.mp hc] at hu
    rw [hu]
    exact ⟨⟨u.at_, u.name, u.id, _⟩, mem_singleton_self _, rfl, rfl, rfl⟩

theorem site_of_call : ∀ (as : List Act) {c : Act} {u : Spot Bytes}, c ∈ calls as → c.shape = [u.use] →
    ∀ (env : List (Key Bytes)) (e : ℕ), ∃ s ∈ sites e env (shapes as), s.place = u.at_ ∧ s.name = u.name ∧ s.id = u.id
  | [], _, _, hc, _, _, _ => absurd hc not_mem_nil
  | a :: as, c, u, hc, hu, env, e => by
    rw [shapes, Lexical.sites_append]
    rcases mem_append.mp hc with hc | hc
    · obtain ⟨s, hs, hu⟩ := Act.site_of_call a hc hu env e
      exact ⟨s, mem_append_left _ hs, hu⟩
    · obtain ⟨s, hs, hu⟩ := site_of_call as hc hu _ e
      exact ⟨s, mem_append_right _ hs, hu⟩

end

/-! ## Type names -/

def Act.type_node : Act → List ℕ
  | .use_type t path => if (head_of path).isSome then [t.id] else []
  | _ => []

def type_ids (acts : List Act) : List ℕ := (calls acts).flatMap Act.type_node

theorem type_ids_append (as bs : List Act) : type_ids (as ++ bs) = type_ids as ++ type_ids bs := by
  unfold type_ids
  rw [calls_append, flatMap_append]

theorem type_ids_cons (a : Act) (as : List Act) : type_ids (a :: as) = type_ids [a] ++ type_ids as :=
  type_ids_append [a] as

theorem type_ids_use_type (t : Base) (path : List Bytes) :
    type_ids [.use_type t path] = (Act.use_type t path).type_node := append_nil _

theorem type_ids_scope (last : ℕ) (body : List Act) : type_ids [.scope last body] = type_ids body := by
  simp only [type_ids, calls, Act.calls, append_nil]

theorem type_ids_loop (id : ℕ) (body : List Act) : type_ids [.loop id body] = type_ids body := by
  simp only [type_ids, calls, Act.calls, append_nil]

theorem type_node_of_head {t : Base} {path : List Bytes} {head : Bytes} (h : head_of path = some head) :
    (Act.use_type t path).type_node = [t.id] := by
  simp only [Act.type_node, h, Option.isSome_some, if_true]

/-- A call that uses a value name is none of the calls of type names. -/
theorem value_not_type {acts : List Act} (hnodup : (nodes acts).Nodup) {n : Name} {write : Bool}
    (hn : Act.use_name n write ∈ calls acts) : n.id ∉ type_ids acts := by
  intro hmem
  obtain ⟨c, hc, hid⟩ := mem_flatMap.mp hmem
  rw [nodes_calls, nodup_flatMap] at hnodup
  have hne : Act.use_name n write ≠ c := by
    rintro rfl
    cases hid
  have : Std.Symm (Function.onFun List.Disjoint Act.nodes) := ⟨fun _ _ h _ ha hb => h hb ha⟩
  have hdisjoint : List.Disjoint (Act.use_name n write).nodes c.nodes := hnodup.2.forall hn hc hne
  refine hdisjoint (mem_singleton_self _) ?_
  cases c with
  | use_type t path => exact hid
  | _ => exact absurd hid not_mem_nil

/-! ## What waits -/

theorem forget_waited (S : State) (n : ℕ) : (S.forget n).waited = S.waited := by
  induction n generalizing S with
  | zero => rfl
  | succ n ih =>
    unfold State.forget
    split
    · rfl
    · exact ih _

theorem close_waited (S : State) : S.close.waited = S.waited := by
  unfold State.close
  rw [forget_waited]
  split
  · rfl
  · exact (Settling.resolve_pending S _).waited

theorem declare_waited (S : State) (b : Binding) (kind : Kind) (from_ : ℕ) (check : Bool) (copy : Option Name)
    (is_global : Bool) : (S.declare b kind from_ check copy is_global).waited = S.waited := by
  unfold State.declare State.report
  dsimp only
  split_ifs <;> rfl

theorem use_name_waited (S : State) (n : Name) (write : Bool) : (S.use_name n write).waited = S.waited := by
  unfold State.use_name
  cases S.lookup n.text with
  | none => exact (Same.use_global S n write).waited
  | some r =>
    dsimp only
    cases S.list[r]? with
    | none => rfl
    | some v =>
      cases write with
      | true => exact (Same.write_name _ n r v).waited.trans (Same.report_if (Same.refl _) _ _ _ _).waited
      | false => exact (Same.read_name _ n r v).waited.trans (Same.report_if (Same.refl _) _ _ _ _).waited

theorem type_use_waited (S : State) (t : Base) (r : ℕ) : (S.type_use t r).waited = S.waited := by
  cases hv : S.list[r]? with
  | none =>
    unfold State.type_use
    rw [hv]
  | some v => exact (Same.type_use hv).waited

theorem wait_waited {S : State} {t : Base} {head : Bytes} {i : ℕ} (h : i ∈ (S.wait t head).waited) :
    i ∈ S.waited ∨ i = t.id := by
  unfold State.wait at h
  split at h
  · exact (mem_append.mp h).imp_right mem_singleton.mp
  · exact .inl h

theorem use_type_waited {S : State} {t : Base} {path : List Bytes} {i : ℕ} (h : i ∈ (S.use_type t path).waited) :
    i ∈ S.waited ∨ i ∈ (Act.use_type t path).type_node := by
  cases path with
  | nil => exact .inl h
  | cons head rest =>
    unfold State.use_type at h
    dsimp only at h
    split at h
    · exact .inl h
    next hprimitive =>
    have hhead : head_of (head :: rest) = some head := if_neg hprimitive
    rw [type_node_of_head hhead, mem_singleton]
    split at h
    · rw [type_use_waited] at h
      exact .inl h
    · split at h
      · split at h
        · exact .inl h
        · exact wait_waited h
      · exact wait_waited h

mutual

theorem run_waits : ∀ (a : Act) (S : State) {i : ℕ}, i ∈ (run a S).waited → i ∈ S.waited ∨ i ∈ a.calls.flatMap Act.type_node
  | .frame id last body, S, i, h => runs_waits body (S.push_frame id last) h
  | .scope last body, S, i, h => by
    unfold run at h
    rw [close_waited] at h
    exact runs_waits body (S.open_ last) h
  | .loop id body, S, i, h => by
    unfold run State.leave_loop at h
    rw [(Same.in_loop _ _).waited] at h
    have := runs_waits body (S.enter_loop id) h
    rwa [(Same.enter_loop S id).waited] at this
  | .defer value body, S, i, h => runs_waits body { S with defer := value } h
  | .floor body, S, i, h => runs_waits body { S with floor := S.marks.length - 1 } h
  | .declare b kind from_ check copy is_global fields, S, i, h => by
    unfold run at h
    split at h
    · rw [declare_waited] at h
      exact .inl h
    · rw [(Same.fields _ fields).waited, declare_waited] at h
      exact .inl h
  | .use_name n write, S, i, h => .inl (use_name_waited S n write ▸ h)
  | .use_type t path, S, i, h => by
    have := use_type_waited h
    simpa only [Act.calls, flatMap_cons, flatMap_nil, append_nil] using this
  | .narrows _ _, S, i, h | .assign_end _, S, i, h | .report _ _, S, i, h | .own_off, S, i, h => .inl h

theorem runs_waits : ∀ (as : List Act) (S : State) {i : ℕ}, i ∈ (runs as S).waited → i ∈ S.waited ∨ i ∈ type_ids as
  | [], _, _, h => .inl h
  | a :: as, S, i, h => by
    unfold type_ids
    rw [calls, flatMap_append, mem_append]
    rcases runs_waits as (run a S) h with h | h
    · exact (run_waits a S h).imp_right .inl
    · exact .inr (.inr h)

end

/-! ## What is overtaken -/

theorem append_subset_append {as bs as' bs' : List ℕ} (h : as ⊆ as') (h' : bs ⊆ bs') : as ++ bs ⊆ as' ++ bs' :=
  append_subset.mpr ⟨List.Subset.trans h (subset_append_left _ _), List.Subset.trans h' (subset_append_right _ _)⟩

theorem overtaken_typeparams_type (late : Lates) (typeparams : List TypeParam) :
    overtaken_typeparams late typeparams ⊆ type_ids (walk_typeparams typeparams) := by
  have hheads : (heads typeparams).map Spot.id ⊆ type_ids (constraints typeparams) := by
    induction typeparams with
    | nil => exact nil_subset _
    | cons p typeparams ih =>
      obtain ⟨b, name, constraint⟩ := p
      cases constraint with
      | none => exact ih
      | some t =>
        unfold heads at ih ⊢
        unfold constraints
        rw [type_ids_append, filterMap_cons]
        cases t with
        | TypeName c path args =>
          dsimp only
          cases hhead : head_of path with
          | none => exact List.Subset.trans ih (subset_append_right _ _)
          | some head =>
            have hmem : [c.id] ⊆ type_ids (ty (.TypeName c path args)) := by
              unfold ty
              rw [type_ids_cons, type_ids_use_type, type_node_of_head hhead]
              exact subset_append_left _ _
            exact append_subset_append hmem ih
        | _ => exact List.Subset.trans ih (subset_append_right _ _)
  unfold overtaken_typeparams walk_typeparams
  rw [type_ids_append]
  exact List.Subset.trans (List.Subset.trans (filter_sublist.map _).subset hheads) (subset_append_right _ _)

mutual

theorem overtaken_type_type : ∀ (t : Ty) (late : Lates), overtaken_type late t ⊆ type_ids (ty t)
  | .TypeName b path args, late => by
    unfold overtaken_type ty
    rw [type_ids_cons, type_ids_use_type]
    refine append_subset_append ?_ (overtaken_types_type args late)
    cases hhead : head_of path with
    | none => exact nil_subset _
    | some head =>
      rw [type_node_of_head hhead]
      dsimp only
      split
      · exact List.Subset.refl _
      · exact nil_subset _
  | .TypeBool _ _, _ | .TypeNil _, _ | .TypeError _, _ => nil_subset _
  | .TypeArray _ element, late => overtaken_type_type element late
  | .TypeMap _ key value, late => by
    unfold overtaken_type ty
    rw [type_ids_append]
    exact append_subset_append (overtaken_type_type key late) (overtaken_type_type value late)
  | .TypeUnion _ members, late => overtaken_types_type members late
  | .TypeOptional _ inner, late | .TypeMut _ inner, late => overtaken_type_type inner late
  | .TypeFunction b typeparams params rets, late => by
    have hids : type_ids (ty (.TypeFunction b typeparams params rets)) = type_ids (walk_typeparams typeparams) ++
          (type_ids (ptypes params) ++ type_ids (walk_rets (ptype_names params) rets)) := by
      unfold ty walk_typeparams
      rw [← type_ids_append, ← type_ids_append]
      simp only [type_ids, calls, Act.calls, append_nil, append_assoc, calls_append]
    rw [hids]
    exact append_subset_append (overtaken_typeparams_type late typeparams)
      (append_subset_append (overtaken_ptypes_type params _) (overtaken_rets_type rets _ _))

theorem overtaken_types_type : ∀ (list : List Ty) (late : Lates), overtaken_types late list ⊆ type_ids (walk_types list)
  | [], _ => nil_subset _
  | t :: list, late => by
    unfold overtaken_types walk_types
    rw [type_ids_append]
    exact append_subset_append (overtaken_type_type t late) (overtaken_types_type list late)

theorem overtaken_ptypes_type : ∀ (list : List PType) (late : Lates), overtaken_ptypes late list ⊆ type_ids (ptypes list)
  | [], _ => nil_subset _
  | .mk _ _ _ _ type :: list, late => by
    unfold overtaken_ptypes ptypes
    rw [type_ids_append]
    exact append_subset_append (overtaken_type_type type late) (overtaken_ptypes_type list late)

theorem overtaken_rets_type : ∀ (rets : Option Rets) (late : Lates) (params : Bytes → Option ℕ),
    overtaken_rets late params rets ⊆ type_ids (walk_rets params rets)
  | none, _, _ => nil_subset _
  | some (.mk _ lists _), late, params => overtaken_lists_type lists late params

theorem overtaken_lists_type : ∀ (lists : List (List RType)) (late : Lates) (params : Bytes → Option ℕ),
    overtaken_lists late params lists ⊆ type_ids (rets_lists params lists)
  | [], _, _ => nil_subset _
  | list :: lists, late, params => by
    unfold overtaken_lists rets_lists
    rw [type_ids_append]
    exact append_subset_append (overtaken_rtypes_type list late params) (overtaken_lists_type lists late params)

theorem overtaken_rtypes_type : ∀ (list : List RType) (late : Lates) (params : Bytes → Option ℕ),
    overtaken_rtypes late params list ⊆ type_ids (rets_items params list)
  | [], _, _ => nil_subset _
  | .type t :: list, late, params => by
    unfold overtaken_rtypes rets_items
    rw [type_ids_append]
    exact append_subset_append (overtaken_type_type t late) (overtaken_rtypes_type list late params)
  | .Narrows b param type _ :: list, late, params => by
    unfold overtaken_rtypes rets_items narrows
    rw [type_ids_append]
    refine append_subset_append ?_ (overtaken_rtypes_type list late params)
    cases params param with
    | none => exact nil_subset _
    | some bound =>
      rw [type_ids_append]
      exact List.Subset.trans (overtaken_type_type type late) (subset_append_right _ _)

end

theorem overtaken_params_type (late : Lates) (list : List Param) :
    overtaken_params late list ⊆ type_ids (param_types list) := by
  induction list with
  | nil => exact nil_subset _
  | cons p list ih =>
    unfold overtaken_params param_types
    rw [type_ids_append]
    refine append_subset_append ?_ ih
    cases p.type with
    | none => exact nil_subset _
    | some t => exact overtaken_type_type t late

theorem overtaken_signature_type {id last : ℕ} {params : List Param} {rets : Option Rets} {body : List Act}
    {implicit : Option (ℕ × ℕ)} {o : List ℕ} (h : o ⊆ type_ids body) :
    overtaken_signature params rets ++ o ⊆ type_ids (walk_function id last params rets body implicit) := by
  have hids : type_ids (walk_function id last params rets body implicit) =
      type_ids (param_types params) ++ type_ids (walk_rets (param_names params) rets) ++
        type_ids (implicit_self implicit ++ declare_params params ++ [.own_off]) ++ type_ids body := by
    unfold walk_function
    rw [← type_ids_append, ← type_ids_append, ← type_ids_append]
    simp only [type_ids, calls, Act.calls, append_nil, append_assoc, calls_append, cons_append, nil_append]
  rw [hids]
  refine append_subset_append (List.Subset.trans ?_ (subset_append_left _ _)) h
  exact append_subset_append (overtaken_params_type _ params) (overtaken_rets_type rets _ _)

theorem overtaken_walk_fn_type {b : Base} {typeparams : List TypeParam} {params : List Param} {rets : Option Rets}
    {body : List Act} {implicit : Option (ℕ × ℕ)} {o : List ℕ} (h : o ⊆ type_ids body) :
    overtaken_typeparams [] typeparams ++ (overtaken_signature params rets ++ o) ⊆
      type_ids (walk_fn b typeparams params rets body implicit) := by
  have hids : type_ids (walk_fn b typeparams params rets body implicit) =
      type_ids (walk_typeparams typeparams) ++ type_ids (walk_function b.id b.last params rets body implicit) := by
    unfold walk_fn
    rw [← type_ids_append]
    simp only [type_ids, calls, Act.calls, append_nil, calls_append]
  rw [hids]
  exact append_subset_append (overtaken_typeparams_type [] typeparams) (overtaken_signature_type h)

theorem overtaken_body_type {last : ℕ} {late : Lates} {typeparams : List TypeParam} {body : List Act} {o : List ℕ}
    (h : o ⊆ type_ids body) :
    overtaken_typeparams late typeparams ++ o ⊆ type_ids (type_body last typeparams body) := by
  have hids : type_ids (type_body last typeparams body) = type_ids (walk_typeparams typeparams) ++ type_ids body := by
    unfold type_body
    rw [← type_ids_append]
    simp only [type_ids, calls, Act.calls, append_nil, calls_append]
  rw [hids]
  exact append_subset_append (overtaken_typeparams_type late typeparams) h

variable (tokens : ℕ → Bytes)

theorem type_ids_targets (last : ℕ) (list : List Exp) :
    type_ids (targets tokens last list) = type_ids (walk_exps tokens list) := by
  induction list with
  | nil => rfl
  | cons e list ih =>
    unfold walk_exps
    rw [type_ids_append, ← ih]
    cases e with
    | Name n => rfl
    | _ => exact type_ids_append _ _

mutual

theorem overtaken_exp_type : ∀ (e : Exp), overtaken_exp e ⊆ type_ids (exp tokens e)
  | .Name _ | .Nil _ | .Boolean _ _ | .Integer _ | .Float _ | .String _ _ _ | .Vararg _ | .Error _ => nil_subset _
  | .Paren _ inner | .Unary _ _ inner | .Field _ inner _ => overtaken_exp_type inner
  | .FunctionLit _ fn => overtaken_fn_type fn [] none
  | .Table _ items => overtaken_items_type items
  | .IfExp _ arms else_value => by
    unfold overtaken_exp exp
    rw [type_ids_append]
    exact append_subset_append (overtaken_exp_arms_type arms) (overtaken_exp_type else_value)
  | .Binary _ _ left right | .Index _ left right => by
    unfold overtaken_exp exp
    rw [type_ids_append]
    exact append_subset_append (overtaken_exp_type left) (overtaken_exp_type right)
  | .Call _ callee args | .MethodCall _ callee _ args => by
    unfold overtaken_exp exp
    rw [type_ids_append]
    exact append_subset_append (overtaken_exp_type callee) (overtaken_exps_type args)
  | .IsTest _ value type | .Cast _ value type => by
    unfold overtaken_exp exp
    rw [type_ids_append]
    exact append_subset_append (overtaken_exp_type value) (overtaken_type_type type [])

theorem overtaken_exps_type : ∀ (list : List Exp), overtaken_exps list ⊆ type_ids (walk_exps tokens list)
  | [] => nil_subset _
  | e :: list => by
    unfold overtaken_exps walk_exps
    rw [type_ids_append]
    exact append_subset_append (overtaken_exp_type e) (overtaken_exps_type list)

theorem overtaken_items_type : ∀ (list : List Item), overtaken_items list ⊆ type_ids (walk_items tokens list)
  | [] => nil_subset _
  | .Positional _ value :: list | .Spread _ value :: list | .Named _ _ value :: list => by
    unfold overtaken_items walk_items
    rw [type_ids_append]
    exact append_subset_append (overtaken_exp_type value) (overtaken_items_type list)
  | .Keyed _ key value :: list => by
    unfold overtaken_items walk_items
    rw [type_ids_append, type_ids_append]
    exact append_subset_append (append_subset_append (overtaken_exp_type key) (overtaken_exp_type value))
      (overtaken_items_type list)

theorem overtaken_exp_arms_type : ∀ (list : List ExpArm), overtaken_exp_arms list ⊆ type_ids (exp_arms tokens list)
  | [] => nil_subset _
  | .mk _ cond value :: list => by
    unfold overtaken_exp_arms exp_arms
    rw [type_ids_append, type_ids_append]
    exact append_subset_append (append_subset_append (overtaken_exp_type cond) (overtaken_exp_type value))
      (overtaken_exp_arms_type list)

theorem overtaken_fn_type : ∀ (fn : Fn) (typeparams : List TypeParam) (implicit : Option (ℕ × ℕ)),
    overtaken_fn typeparams fn ⊆ type_ids (fn_ tokens typeparams implicit fn)
  | .mk _ _ _ body, _, _ => overtaken_walk_fn_type (overtaken_block_type body)

theorem overtaken_block_type : ∀ (body : Block), overtaken_block body ⊆ type_ids (block_stats tokens body)
  | .mk _ list _ => overtaken_stats_type list

theorem overtaken_walk_block_type : ∀ (body : Block), overtaken_block body ⊆ type_ids (walk_block tokens body)
  | .mk _ list close => by
    unfold walk_block
    rw [type_ids_scope]
    exact overtaken_stats_type list

theorem overtaken_stats_type : ∀ (list : List Stat), overtaken_stats list ⊆ type_ids (stats tokens list)
  | [] => nil_subset _
  | s :: list => by
    unfold overtaken_stats stats
    rw [type_ids_append]
    exact append_subset_append (overtaken_stat_type s) (overtaken_stats_type list)

theorem overtaken_stat_type : ∀ (s : Stat), overtaken_stat s ⊆ type_ids (stat tokens s)
  | .Local b _ bindings types values => by
    unfold overtaken_stat stat
    rw [type_ids_append, type_ids_append]
    exact List.Subset.trans (append_subset_append (overtaken_types_type types []) (overtaken_exps_type values))
      (subset_append_left _ _)
  | .LocalFunction _ _ typeparams (.mk _ _ _ body) => by
    unfold overtaken_stat stat
    rw [type_ids_cons, type_ids_append]
    exact List.Subset.trans (overtaken_walk_fn_type (overtaken_block_type body))
      (List.Subset.trans (subset_append_left _ _) (subset_append_right _ _))
  | .Function b path typeparams fn => by
    unfold overtaken_stat stat
    rw [type_ids_append]
    exact List.Subset.trans (overtaken_fn_type fn typeparams _) (subset_append_right _ _)
  | .Assign b list values => by
    unfold overtaken_stat stat
    rw [type_ids_append, type_ids_targets]
    exact append_subset_append (overtaken_exps_type values) (overtaken_exps_type list)
  | .CallStat _ call => overtaken_exp_type call
  | .Return _ values => overtaken_exps_type values
  | .Do _ body => overtaken_walk_block_type body
  | .Break _ | .Continue _ | .Error _ => nil_subset _
  | .While _ cond body => by
    unfold overtaken_stat stat
    rw [type_ids_loop, type_ids_append]
    exact append_subset_append (overtaken_exp_type cond) (overtaken_walk_block_type body)
  | .Repeat _ body cond => by
    unfold overtaken_stat stat
    rw [type_ids_loop, type_ids_scope, type_ids_append]
    exact append_subset_append (overtaken_block_type body) (overtaken_exp_type cond)
  | .If _ arms none => overtaken_arms_type arms
  | .If _ arms (some else_body) => by
    unfold overtaken_stat stat
    rw [type_ids_append]
    exact append_subset_append (overtaken_arms_type arms) (overtaken_walk_block_type else_body)
  | .Match _ scrutinee arms => by
    unfold overtaken_stat stat
    rw [type_ids_append]
    exact append_subset_append (overtaken_exp_type scrutinee) (overtaken_match_arms_type arms)
  | .ForNum _ _ from_ to_ none (.mk _ list _) => by
    unfold overtaken_stat stat
    rw [type_ids_append, type_ids_append, type_ids_loop, type_ids_scope, type_ids_append]
    exact append_subset_append (append_subset_append (overtaken_exp_type from_) (overtaken_exp_type to_))
      (List.Subset.trans (overtaken_stats_type list) (subset_append_right _ _))
  | .ForNum _ _ from_ to_ (some step) (.mk _ list _) => by
    unfold overtaken_stat stat
    rw [type_ids_append, type_ids_append, type_ids_append, type_ids_loop, type_ids_scope, type_ids_append]
    exact append_subset_append (append_subset_append (append_subset_append (overtaken_exp_type from_)
      (overtaken_exp_type to_)) (overtaken_exp_type step))
      (List.Subset.trans (overtaken_stats_type list) (subset_append_right _ _))
  | .ForIn _ _ iterators (.mk _ list _) => by
    unfold overtaken_stat stat
    rw [type_ids_append, type_ids_loop, type_ids_scope, type_ids_append]
    exact append_subset_append (overtaken_exps_type iterators)
      (List.Subset.trans (overtaken_stats_type list) (subset_append_right _ _))
  | .Decl d => overtaken_decl_type d false

theorem overtaken_arms_type : ∀ (list : List Arm), overtaken_arms list ⊆ type_ids (if_arms tokens list)
  | [] => nil_subset _
  | .mk _ cond body :: list => by
    unfold overtaken_arms if_arms
    rw [type_ids_append, type_ids_append]
    exact append_subset_append (append_subset_append (overtaken_exp_type cond) (overtaken_walk_block_type body))
      (overtaken_arms_type list)

theorem overtaken_match_arms_type : ∀ (list : List MatchArm),
    overtaken_match_arms list ⊆ type_ids (match_arms tokens list)
  | [] => nil_subset _
  | .mk _ _ (.mk _ stats _) :: list => by
    unfold overtaken_match_arms match_arms
    rw [type_ids_cons, type_ids_scope, type_ids_append]
    exact append_subset_append (List.Subset.trans (overtaken_stats_type stats) (subset_append_right _ _))
      (overtaken_match_arms_type list)

theorem overtaken_decl_type : ∀ (d : Decl) (nested : Bool), overtaken_decl d ⊆ type_ids (typedecl tokens nested d)
  | .Record _ _ _ typeparams supers array list, _ => by
    unfold overtaken_decl typedecl
    rw [type_ids_cons]
    refine List.Subset.trans (overtaken_body_type ?_) (subset_append_right _ _)
    rw [type_ids_append, type_ids_append, append_assoc]
    refine append_subset_append (overtaken_types_type supers []) (append_subset_append ?_ (overtaken_members_type list))
    cases array with
    | none => exact nil_subset _
    | some t => exact overtaken_type_type t []
  | .Interface _ _ _ _ supers list, _ | .Class _ _ _ _ supers list, _ => by
    unfold overtaken_decl typedecl
    rw [type_ids_cons]
    refine List.Subset.trans (overtaken_body_type ?_) (subset_append_right _ _)
    rw [type_ids_append]
    exact append_subset_append (overtaken_types_type supers []) (overtaken_members_type list)
  | .Enum _ _ _ _, _ | .Import _ _ _ _, _ => nil_subset _
  | .Alias _ _ _ _ type, _ => by
    unfold overtaken_decl typedecl
    rw [type_ids_append]
    exact List.Subset.trans (overtaken_body_type (overtaken_type_type type _)) (subset_append_left _ _)

theorem overtaken_members_type : ∀ (list : List Member), overtaken_members list ⊆ type_ids (members tokens list)
  | [] => nil_subset _
  | .FieldDecl _ _ _ _ type :: list => by
    unfold overtaken_members members
    rw [type_ids_append]
    exact append_subset_append (overtaken_type_type type []) (overtaken_members_type list)
  | .Decl d :: list => by
    unfold overtaken_members members
    rw [type_ids_append]
    exact append_subset_append (overtaken_decl_type d true) (overtaken_members_type list)
  | .Method _ _ _ _ body :: list => by
    unfold overtaken_members members
    rw [type_ids_append]
    exact append_subset_append (overtaken_signature_type (overtaken_block_type body)) (overtaken_members_type list)
  | .Userdata _ :: list | .Error _ :: list => overtaken_members_type list

end

/-- What a binding overtakes is a type name. -/
theorem overtaken_walk (chunk : Chunk) : overtaken chunk ⊆ type_ids (walk chunk) := by
  have hids : type_ids (walk chunk) = type_ids (block_stats chunk.tokens chunk.body) := by
    simp only [walk, type_ids, calls, Act.calls, append_nil]
  rw [hids]
  exact overtaken_block_type chunk.tokens chunk.body

end Cosmic.Scopes
