/-
`lang/scopes.tl`: which binding every name of a program refers to, and what the program does to
each binding.

The source walks the tree and changes one table of its own as it goes. Here the walk is apart from
the changes: each function of the walk gives the list of calls it makes, an `Act` for each, and
`runs` makes them in order on a `State`. What the source sets for a while and puts back (an open
scope, a frame, a loop, `S.defer`, `S.floor`) is an `Act` that holds what is done meanwhile. The
table of parameters a narrowing return may name is passed down as an argument.

A `Var` is a place in `list`, which every table of the source that holds a `Var` names it by. An
error is its code, its token and the second token it involves; the texts are left out, and with
them the search for the nearest name.
-/
import Cosmic.Lang.Ast
import Mathlib.Data.List.Sort
import Mathlib.Logic.Function.Basic

set_option autoImplicit false

namespace Cosmic.Scopes

open Cosmic.Base Cosmic.Ast

/-! ## Bindings -/

/-- What introduced a binding. -/
inductive Kind where
  | Local
  | Function
  | Param
  | Loop
  | Pattern
  | Typeparam
  | Record
  | Interface
  | Class
  | Enum
  | Alias
  | Import
  deriving DecidableEq, Repr

/-- What a binding names. -/
inductive Space where
  | value
  | type
  | both
  deriving DecidableEq, Repr

def SPACES : Kind → Space
  | .Local | .Function | .Param | .Loop | .Pattern => .value
  | .Typeparam | .Interface | .Enum | .Alias => .type
  | .Record | .Class | .Import => .both

def TYPE_KINDS (kind : Kind) : Bool := SPACES kind != .value

inductive Code where
  | unknown_variable
  | unknown_type
  | shadows
  | const_assigned
  | not_a_value
  | not_a_type
  | unknown_parameter
  | env_reserved
  | primitive_type_name
  deriving DecidableEq, Repr

/-- `Scopes.Error`, by the tokens it is placed at. -/
structure Error where
  code : Code
  token : ℕ
  other : Option ℕ
  deriving DecidableEq, Repr

/-- A global a declaration file declares. -/
structure Global where
  space : Space
  const : Bool
  deriving DecidableEq, Repr

/-- A function that reads a local declared outside it. -/
structure Capture where
  fn : ℕ
  uses : List ℕ
  after : Bool
  deriving DecidableEq, Repr

structure Var where
  id : ℕ
  name : Bytes
  kind : Kind
  space : Space
  attr : Option Attr
  exported : Bool
  top : Bool
  declared : ℕ
  from_ : ℕ
  to_ : ℕ
  owner : ℕ
  depth : ℕ
  loop : ℕ
  module : Bytes
  alias_ : Option Bytes
  copies : Option ℕ
  readonly : Bool
  reads : List ℕ
  writes : List ℕ
  type_uses : List ℕ
  assigned : Bool
  closure_assigned : Bool
  captures : List Capture
  nested : Bool
  fn : Option ℕ
  deriving DecidableEq, Repr

/-- The type names a program may use with no declaration. -/
def primitives : List Bytes :=
  [lit "any", lit "boolean", lit "integer", lit "never", lit "number", lit "string", lit "thread"]

/-! ## The state of a walk -/

/-- A function being walked, and the innermost loop of it the walk is in, 0 for none. -/
structure Frame where
  id : ℕ
  loop : ℕ
  deriving DecidableEq, Repr

inductive What where
  | variable_
  | assigned
  | type
  deriving DecidableEq, Repr

/-- A name that no binding or declared global holds. -/
structure Unknown where
  token : ℕ
  name : Bytes
  what : What
  deriving DecidableEq, Repr

/-- A type name that no declaration holds yet, waiting for the scope it is in to end. -/
structure Pending where
  node : Base
  name : Bytes
  depth : ℕ
  deriving DecidableEq, Repr

/-- The tables of a walk. The innermost name, scope, frame and binding of a name is the first of
its list. `waited` is not in the source: the type names that were ever put in `pending`. -/
structure State where
  declared : Bytes → Option Global
  visible : Bytes → List ℕ := fun _ => []
  names : List Bytes := []
  marks : List ℕ := []
  ends : List ℕ := []
  frames : List Frame := []
  loop_parent : ℕ → ℕ := fun _ => 0
  loop_level : ℕ → ℕ := fun _ => 0
  vars : ℕ → Option ℕ := fun _ => none
  list : List Var := []
  binding : ℕ → Option ℕ := fun _ => none
  resolved : ℕ → Option ℕ := fun _ => none
  globals : Bytes → List ℕ := fun _ => []
  global_writes : Bytes → List ℕ := fun _ => []
  errors : List Error := []
  unknown : List Unknown := []
  assign_end : ℕ := 0
  write_end : ℕ → List ℕ := fun _ => []
  write_loop : ℕ → List ℕ := fun _ => []
  captured : List ℕ := []
  made : ℕ → ℕ := fun _ => 0
  entry_of : ℕ → ℕ := fun _ => 0
  own : Option ℕ := none
  floor : ℕ := 2 ^ 63 - 1
  defer : Bool := false
  pending : List Pending := []
  waited : List ℕ := []

def put {α β : Type} [DecidableEq α] (table : α → β) (key : α) (value : β) : α → β := Function.update table key value

namespace State

def report (S : State) (code : Code) (token : ℕ) (other : Option ℕ) : State :=
  { S with errors := S.errors ++ [⟨code, token, other⟩] }

/-- The `Var` at a place, with its fields set. -/
def modify (S : State) (r : ℕ) (f : Var → Var) : State := { S with list := S.list.modify r f }

/-! ## Scopes, frames and loops -/

/-- Opens a scope that ends at the token `last`. -/
def open_ (S : State) (last : ℕ) : State := { S with marks := S.names.length :: S.marks, ends := last :: S.ends }

/-- Takes the innermost `n` names out of scope. -/
def forget (S : State) : ℕ → State
  | 0 => S
  | n + 1 =>
    match S.names with
    | [] => S
    | name :: names =>
      forget { S with visible := put S.visible name (S.visible name).tail, names := names } n

def lookup (S : State) (name : Bytes) : Option ℕ := (S.visible name).head?

def frame (S : State) : Frame := S.frames.headD ⟨0, 0⟩

def push_frame (S : State) (id last : ℕ) : State :=
  { S with
    frames := ⟨id, 0⟩ :: S.frames
    made := put S.made id last
    entry_of := put S.entry_of id S.frame.loop }

def pop_frame (S : State) : State := { S with frames := S.frames.tail }

/-- Sets the loop of the function being walked. -/
def in_loop (S : State) (id : ℕ) : State :=
  match S.frames with
  | [] => S
  | f :: frames => { S with frames := { f with loop := id } :: frames }

def enter_loop (S : State) (id : ℕ) : State :=
  let outer := S.frame.loop
  { S with
    loop_parent := put S.loop_parent id outer
    loop_level := put S.loop_level id (S.loop_level outer + 1) }.in_loop id

def leave_loop (S : State) (id : ℕ) : State := S.in_loop (S.loop_parent id)

/-! ## Declarations -/

/-- Whether a declaration of `name` hides a global: a type that is declared is hidden by no
value. -/
def hides_global (S : State) (name : Bytes) (kind : Kind) : Bool :=
  match S.declared name with
  | none => false
  | some g => g.space != .type || SPACES kind != .value

/-- The binding a declaration of `name` hides: the parameters of `local function f` are declared
before `f`, and hide what `f` hid. -/
def prior (S : State) (name : Bytes) : Option ℕ :=
  let held := S.lookup name
  if held.isSome ∧ held = S.own then (S.visible name)[1]? else held

def declare (S : State) (binding : Binding) (kind : Kind) (from_ : ℕ) (check : Bool) (copy : Option Name)
    (is_global : Bool) : State :=
  let name := binding.name
  let token := binding.first
  let prior := S.prior name
  let reported :=
    if !is_global && TYPE_KINDS kind && primitives.contains name then
      S.report .primitive_type_name token none
    else if name = lit "_ENV" then S.report .env_reserved token none
    else if check && !is_global && copy.isNone && name.head? != some 95 && name != lit "self" &&
        (prior.isSome || S.hides_global name kind) then
      S.report .shadows token (prior.bind fun r => S.list[r]?.map Var.declared)
    else S
  let v : Var := {
    id := binding.id, name := name, kind := kind, space := SPACES kind, attr := binding.attr,
    exported := is_global, top := S.frames.length == 1 && S.marks.length == 1,
    declared := token, from_ := from_, to_ := max from_ (S.ends.headD 0), owner := S.frame.id,
    depth := S.frames.length, loop := S.frame.loop, module := [], alias_ := none,
    copies := copy.bind fun n => S.binding n.id, readonly := binding.attr.isSome,
    reads := [], writes := [], type_uses := [], assigned := false, closure_assigned := false,
    captures := [], nested := false, fn := none }
  -- A binding with no name is one the parser refused and reported.
  if name = [] then reported
  else
    { reported with
      vars := put S.vars v.id (some S.list.length)
      list := S.list ++ [v]
      visible := put S.visible name (S.list.length :: S.visible name)
      names := name :: S.names }

/-! ## Uses -/

def add_global (S : State) (name : Bytes) (id : ℕ) : State :=
  { S with globals := put S.globals name (S.globals name ++ [id]) }

def use_global (S : State) (n : Name) (write : Bool) : State :=
  let S := { S with binding := put S.binding n.id none }
  let S : State :=
    match S.declared n.text with
    | none =>
      { S with unknown := S.unknown ++ [⟨n.first, n.text, if write then .assigned else .variable_⟩] }
    | some g =>
      if g.space = .type then S.report .not_a_value n.first none
      else if write && g.const then S.report .const_assigned n.first none
      else S
  let S := S.add_global n.text n.id
  let S :=
    if write then
      { S with global_writes := put S.global_writes n.text (S.global_writes n.text ++ [n.id]) }
    else S
  if n.text = lit "_ENV" ∧ write then S.report .env_reserved n.first none else S

/-- An assignment to the binding `v`, which is at `r`. -/
def write_name (S : State) (n : Name) (r : ℕ) (v : Var) : State :=
  let S := S.modify r fun v => { v with writes := v.writes ++ [n.id], assigned := true }
  let S :=
    if v.readonly then S.report .const_assigned n.first (some v.declared)
    -- The write runs whenever the function does, which no position in the source bounds.
    else if v.depth < S.frames.length ∧ v.exported = false then
      S.modify r fun v => { v with closure_assigned := true }
    else
      { S with
        write_end := put S.write_end r (S.write_end r ++ [S.assign_end])
        write_loop := put S.write_loop r (S.write_loop r ++ [S.frame.loop]) }
  if n.text = lit "_ENV" then S.report .env_reserved n.first none else S

/-- The captures with a read in the function `fn`: of its own, which is the last, or a new one. -/
def add_capture (captures : List Capture) (fn id : ℕ) : List Capture :=
  match captures.getLast? with
  | some c =>
    if c.fn = fn then captures.dropLast ++ [{ c with uses := c.uses ++ [id] }]
    else captures ++ [⟨fn, [id], false⟩]
  | none => [⟨fn, [id], false⟩]

/-- A read of the binding `v`, which is at `r`. -/
def read_name (S : State) (n : Name) (r : ℕ) (v : Var) : State :=
  let S := S.modify r fun v => { v with reads := v.reads ++ [n.id] }
  if v.depth < S.frames.length ∧ v.exported = false then
    -- The function around the read that the code declaring `v` makes.
    let inside := (S.frames.reverse[v.depth]?.map Frame.id).getD 0
    let S := if v.captures = [] then { S with captured := S.captured ++ [r] } else S
    S.modify r fun v => { v with captures := add_capture v.captures inside n.id }
  else S

/-- A read of the value `name`, or an assignment to it. -/
def use_name (S : State) (n : Name) (write : Bool) : State :=
  match S.lookup n.text with
  | none => S.use_global n write
  | some r =>
    match S.list[r]? with
    | none => S
    | some v =>
      let S := { S with binding := put S.binding n.id (some v.id), resolved := put S.resolved n.id (some v.id) }
      let S := if v.space = .type then S.report .not_a_value n.first (some v.declared) else S
      if write then S.write_name n r v else S.read_name n r v

/-- Records that the type name `t` names the binding at `r`. -/
def type_use (S : State) (t : Base) (r : ℕ) : State :=
  match S.list[r]? with
  | none => S
  | some v =>
    let S := { S with resolved := put S.resolved t.id (some v.id) }
    let S := S.modify r fun v => { v with type_uses := v.type_uses ++ [t.id] }
    if v.space = .value ∧ (v.kind ≠ .Local ∨ v.module = []) then
      S.report .not_a_type t.first (some v.declared)
    else S

def unknown_type (S : State) (t : Base) (head : Bytes) : State :=
  { S with unknown := S.unknown ++ [⟨t.first, head, .type⟩] }

/-- A type name that the scope at `depth`, which ends, declares, or that waits for the one
around it. -/
def resolve_one (depth : ℕ) (S : State) (p : Pending) : State :=
  match S.lookup p.name with
  | some r => S.type_use p.node r
  | none =>
    if 1 < depth then { S with pending := S.pending ++ [{ p with depth := depth - 1 }] }
    else S.unknown_type p.node p.name

def resolve_pending (S : State) (depth : ℕ) : State :=
  let taken := (S.pending.reverse.takeWhile fun p => depth ≤ p.depth).reverse
  let kept := S.pending.take (S.pending.length - taken.length)
  taken.foldl (resolve_one depth) { S with pending := kept }

def close (S : State) : State :=
  let mark := S.marks.headD 0
  let S := if S.pending = [] then S else S.resolve_pending S.marks.length
  let S := S.forget (S.names.length - mark)
  { S with marks := S.marks.tail, ends := S.ends.tail }

/-- What is done with a head that no binding or global holds: it waits where it may be declared
later. -/
def wait (S : State) (t : Base) (head : Bytes) : State :=
  if S.defer then
    { S with
      pending := S.pending ++ [⟨t, head, min S.marks.length S.floor⟩]
      waited := S.waited ++ [t.id] }
  else S.unknown_type t head

/-- The head of the type name `t`. -/
def use_type (S : State) (t : Base) (path : List Bytes) : State :=
  match path with
  | [] => S
  | head :: rest =>
    if rest = [] ∧ head ∈ primitives then S
    else
      match S.lookup head with
      | some r => S.type_use t r
      | none =>
        match S.declared head with
        | some g =>
          if g.space ≠ .value ∨ rest ≠ [] then S.add_global head t.id else S.wait t head
        | none => S.wait t head
end State

/-! ## What a walk does -/

/-- What the code that declares a binding sets in it at once. -/
inductive Fields where
  | none
  /-- The one value of a `local` of one name. -/
  | value (e : Exp)
  /-- A declaration of a type: whether it is nested, and the module of an import. -/
  | decl (nested : Bool) (module : Option Bytes)
  | readonly (readonly : Bool)
  /-- A `local function`, which is then the one being declared. -/
  | fn (id : ℕ)

/-- A call of the walk on its state, with what is done before it is undone. -/
inductive Act where
  /-- `push_frame` to `pop_frame` -/
  | frame (id last : ℕ) (body : List Act)
  /-- `open` to `close` -/
  | scope (last : ℕ) (body : List Act)
  /-- `enter_loop` to `leave_loop` -/
  | loop (id : ℕ) (body : List Act)
  /-- `S.defer` set and put back -/
  | defer (value : Bool) (body : List Act)
  /-- `S.floor` set to the scope around the innermost and put back -/
  | floor (body : List Act)
  | declare (binding : Binding) (kind : Kind) (from_ : ℕ) (check : Bool) (copy : Option Name)
      (is_global : Bool) (fields : Fields)
  | use_name (n : Name) (write : Bool)
  | assign_end (last : ℕ)
  | use_type (t : Base) (path : List Bytes)
  /-- `S.resolved` of a narrowing return. -/
  | narrows (id bound : ℕ)
  | report (code : Code) (token : ℕ)
  /-- `S.own = nil` -/
  | own_off

/-- The `require("module")` a call is, with `require` not shadowed: the module, else nothing. -/
def required (S : State) : Exp → Bytes
  | .Call _ (.Name callee) [.String _ value _] =>
    if callee.text = lit "require" ∧ S.binding callee.id = none then value else []
  | _ => []

/-- The text `a.b.c` of a chain of fields on a name, with the name. -/
def dotted (parts : List Bytes) : Exp → Option (Bytes × Name)
  | .Field _ object name => if 8 < parts.length + 1 then none else dotted (name :: parts) object
  | .Name n => if parts = [] then none else some (List.intercalate (lit ".") (n.text :: parts), n)
  | _ => none

/-- The `alias_` of a `local` of one value: the text of a chain that starts at a module or a type. -/
def alias_of (S : State) (e : Exp) : Option Bytes :=
  match dotted [] e with
  | none => none
  | some (text, head) =>
    match ((S.binding head.id).bind S.vars).bind (S.list[·]?) with
    | none => none
    | some bound => if bound.module ≠ [] ∨ bound.space ≠ .value then some text else none

def Fields.set (S : State) : Fields → State
  | .none => S
  | .value e => S.modify (S.list.length - 1) fun v => { v with module := required S e, alias_ := alias_of S e }
  | .decl nested module =>
    S.modify (S.list.length - 1) fun v => { v with nested := nested, module := module.getD v.module }
  | .readonly r => S.modify (S.list.length - 1) fun v => { v with readonly := r }
  | .fn id =>
    { S.modify (S.list.length - 1) fun v => { v with fn := some id } with own := some (S.list.length - 1) }

mutual

def run : Act → State → State
  | .frame id last body, S => (runs body (S.push_frame id last)).pop_frame
  | .scope last body, S => (runs body (S.open_ last)).close
  | .loop id body, S => (runs body (S.enter_loop id)).leave_loop id
  | .defer value body, S => { runs body { S with defer := value } with defer := S.defer }
  | .floor body, S => { runs body { S with floor := S.marks.length - 1 } with floor := S.floor }
  | .declare binding kind from_ check copy is_global fields, S =>
    let S := S.declare binding kind from_ check copy is_global
    if binding.name = [] then S else fields.set S
  | .use_name n write, S => S.use_name n write
  | .assign_end last, S => { S with assign_end := last }
  | .use_type t path, S => S.use_type t path
  | .narrows id bound, S => { S with resolved := put S.resolved id (some bound) }
  | .report code token, S => S.report code token none
  | .own_off, S => { S with own := none }

def runs : List Act → State → State
  | [], S => S
  | a :: acts, S => runs acts (run a S)

end

/-!
`lang/scopes.tl`: the walk of a tree, and what a build answers.

A function of the walk is its list of calls. Where the source goes down the left side of a chain
with a stack of its own and comes back up, the walk here recurses on that side.
-/

/-! ## Types -/

/-- A narrowing return, whose type gives the calls `t`; `params` are the names it may have. -/
def narrows (params : Bytes → Option ℕ) (b : Base) (param : Bytes) (t : List Act) : List Act :=
  match params param with
  | none => [.report .unknown_parameter b.first]
  | some bound => (if 0 < bound then [.narrows b.id bound] else []) ++ t

def ptype_names (params : List PType) : Bytes → Option ℕ :=
  params.foldl (fun named p => match p with
    | .mk _ (some name) _ _ _ => put named name (some 0)
    | .mk _ none _ _ _ => named) fun _ => none

/-- The calls that declare type parameters, before their constraints. -/
def declare_typeparams (list : List TypeParam) : List Act :=
  list.map fun p => match p with
    | .mk _ name _ => .declare name .Typeparam name.first true none false .none

mutual

def ty : Ty → List Act
  | .TypeName b path args => .use_type b path :: walk_types args
  | .TypeBool _ _ | .TypeNil _ | .TypeError _ => []
  | .TypeArray _ element => ty element
  | .TypeMap _ key value => ty key ++ ty value
  | .TypeUnion _ members => walk_types members
  | .TypeOptional _ inner | .TypeMut _ inner => ty inner
  | .TypeFunction b typeparams params rets =>
    [.defer true [.scope b.last (declare_typeparams typeparams ++ constraints typeparams ++
      ptypes params ++ walk_rets (ptype_names params) rets)]]

def walk_types : List Ty → List Act
  | [] => []
  | t :: list => ty t ++ walk_types list

def constraints : List TypeParam → List Act
  | [] => []
  | .mk _ _ (some constraint) :: list => ty constraint ++ constraints list
  | .mk _ _ none :: list => constraints list

def ptypes : List PType → List Act
  | [] => []
  | .mk _ _ _ _ type :: list => ty type ++ ptypes list

def walk_rets (params : Bytes → Option ℕ) : Option Rets → List Act
  | none => []
  | some (.mk _ lists _) => rets_lists params lists

def rets_lists (params : Bytes → Option ℕ) : List (List RType) → List Act
  | [] => []
  | list :: lists => rets_items params list ++ rets_lists params lists

def rets_items (params : Bytes → Option ℕ) : List RType → List Act
  | [] => []
  | .type t :: list => ty t ++ rets_items params list
  | .Narrows b param type _ :: list => narrows params b param (ty type) ++ rets_items params list

end

def walk_typeparams (list : List TypeParam) : List Act := declare_typeparams list ++ constraints list

/-! ## Functions -/

def param_types : List Param → List Act
  | [] => []
  | p :: params => (p.type.map ty).getD [] ++ param_types params

def declare_params : List Param → List Act
  | [] => []
  | p :: params =>
    match p.name with
    | none => declare_params params
    | some binding =>
      .declare binding .Param binding.first true none false .none :: declare_params params

def param_names (params : List Param) : Bytes → Option ℕ :=
  params.foldl (fun named p => match p.name with
    | some binding => put named binding.name (some binding.id)
    | none => named) fun _ => none

/-- The `self` of a function statement in the colon form: the statement's id, and the token before
the name of the method. -/
def implicit_self (implicit : Option (ℕ × ℕ)) : List Act :=
  match implicit with
  | none => []
  | some (id, at_) =>
    [.declare { first := at_, last := at_, id := id, name := lit "self", attr := none } .Param at_ false none
      false .none]

/-- A function: its parameters, return list and body, whose calls are `body`. -/
def walk_function (id last : ℕ) (params : List Param) (rets : Option Rets) (body : List Act)
    (implicit : Option (ℕ × ℕ)) : List Act :=
  [.frame id last [.scope last [.defer true (
    -- The names of the signature are looked for outside the function.
    [.floor (param_types params ++ walk_rets (param_names params) rets)] ++
      implicit_self implicit ++ declare_params params ++ [.own_off, .defer false body])]]]

def walk_fn (b : Base) (typeparams : List TypeParam) (params : List Param) (rets : Option Rets)
    (body : List Act) (implicit : Option (ℕ × ℕ)) : List Act :=
  -- A constraint may name a type declared later, as the types of the signature may.
  [.scope b.last (.defer true (walk_typeparams typeparams) :: walk_function b.id b.last params rets body implicit)]

/-! ## Statements -/

/-- The name that `local x = x` copies. -/
def copied (binding : Binding) : Option Exp → Option Name
  | some (.Name n) => if n.text = binding.name then some n else none
  | _ => none

/-- The calls that declare the bindings of a `local` statement, which ends at the token `last`. -/
def declare_locals (last : ℕ) (is_global : Bool) (single : Bool) : List Binding → List Exp → List Act
  | [], _ => []
  | b :: bindings, values =>
    .declare b .Local (last + 1) true (copied b values.head?) is_global (match values.head? with
        | some e => if single then .value e else .none
        | none => .none) ::
      declare_locals last is_global single bindings values.tail

def declare_loops (from_ : ℕ) : List (Binding × Bool) → List Act
  | [] => []
  | (b, readonly) :: vars =>
    .declare b .Loop from_ true none false (.readonly readonly) :: declare_loops from_ vars

/-- The calls that declare the names an arm's pattern binds. -/
def declare_pats : List PatItem → List Act
  | [] => []
  | .PatBool _ _ :: pats => declare_pats pats
  | .PatBind _ name :: pats =>
    .declare name .Pattern name.first true none false .none :: declare_pats pats

/-- The variables of a `for`: the first is its control variable. -/
def for_vars : List Binding → List (Binding × Bool)
  | [] => []
  | b :: vars => (b, true) :: vars.map fun b => (b, false)

def declare_type (kind : Kind) (name : Binding) (scope : Option Scope) (nested : Bool)
    (module : Option Bytes) : Act :=
  .declare name kind name.first (!nested) none (scope == some .global) (.decl nested module)

/-- The body of a type's declaration, which ends at the token `last`. -/
def type_body (last : ℕ) (typeparams : List TypeParam) (body : List Act) : List Act :=
  [.defer true [.scope last (walk_typeparams typeparams ++ body)]]

/-- The head of a `function R.m` statement, and the `self` that a colon in its place gives it. -/
def function_path (tokens : ℕ → Bytes) (b : Base) : List Name → List Act × Option (ℕ × ℕ)
  | [first, second] =>
    ([.use_name first false],
      if tokens (second.first - 1) = lit ":" then some (b.id, second.first - 1) else none)
  | _ => ([], none)

mutual

def exp (tokens : ℕ → Bytes) : Exp → List Act
  | .Name n => [.use_name n false]
  | .Nil _ | .Boolean _ _ | .Integer _ | .Float _ | .String _ _ _ | .Vararg _ | .Error _ => []
  | .Paren _ inner => exp tokens inner
  | .FunctionLit _ fn => fn_ tokens [] none fn
  | .Table _ items => walk_items tokens items
  | .Unary _ _ operand => exp tokens operand
  | .IfExp _ arms else_value => exp_arms tokens arms ++ exp tokens else_value
  | .Field _ object _ => exp tokens object
  | .Binary _ _ left right => exp tokens left ++ exp tokens right
  | .Call _ callee args => exp tokens callee ++ walk_exps tokens args
  | .MethodCall _ object _ args => exp tokens object ++ walk_exps tokens args
  | .Index _ object key => exp tokens object ++ exp tokens key
  | .IsTest _ value type | .Cast _ value type => exp tokens value ++ ty type

def walk_exps (tokens : ℕ → Bytes) : List Exp → List Act
  | [] => []
  | e :: list => exp tokens e ++ walk_exps tokens list

def walk_items (tokens : ℕ → Bytes) : List Item → List Act
  | [] => []
  | .Positional _ value :: items | .Spread _ value :: items | .Named _ _ value :: items =>
    exp tokens value ++ walk_items tokens items
  | .Keyed _ key value :: items => exp tokens key ++ exp tokens value ++ walk_items tokens items

def exp_arms (tokens : ℕ → Bytes) : List ExpArm → List Act
  | [] => []
  | .mk _ cond value :: arms => exp tokens cond ++ exp tokens value ++ exp_arms tokens arms

/-- `walk_fn` -/
def fn_ (tokens : ℕ → Bytes) (typeparams : List TypeParam) (implicit : Option (ℕ × ℕ)) : Fn → List Act
  | .mk b params rets body => walk_fn b typeparams params rets (block_stats tokens body) implicit

def block_stats (tokens : ℕ → Bytes) : Block → List Act
  | .mk _ list _ => stats tokens list

def walk_block (tokens : ℕ → Bytes) : Block → List Act
  | .mk _ list close => [.scope close (stats tokens list)]

/-- The targets of an assignment that ends at the token `last`. -/
def targets (tokens : ℕ → Bytes) (last : ℕ) : List Exp → List Act
  | [] => []
  | .Name n :: list => .assign_end last :: .use_name n true :: targets tokens last list
  | e :: list => exp tokens e ++ targets tokens last list

def stat (tokens : ℕ → Bytes) : Stat → List Act
  | .Local b scope bindings types values =>
    walk_types types ++ walk_exps tokens values ++
      declare_locals b.last (scope == .global) (bindings.length == 1 && values.length == 1) bindings values
  | .LocalFunction _ name typeparams (.mk fb params rets body) =>
    .declare name .Function name.first true none false (.fn fb.id) ::
      (walk_fn fb typeparams params rets (block_stats tokens body) none ++ [.own_off])
  | .Function b path typeparams fn =>
    (function_path tokens b path).1 ++ fn_ tokens typeparams (function_path tokens b path).2 fn
  | .Assign b targets_ values => walk_exps tokens values ++ targets tokens b.last targets_
  | .CallStat _ call => exp tokens call
  | .Return _ values => walk_exps tokens values
  | .Do _ body => walk_block tokens body
  | .Break _ | .Continue _ | .Error _ => []
  | .While b cond body => [.loop b.id (exp tokens cond ++ walk_block tokens body)]
  | .Repeat b body cond => [.loop b.id [.scope b.last (block_stats tokens body ++ exp tokens cond)]]
  | .If _ arms none => if_arms tokens arms
  | .If _ arms (some else_body) => if_arms tokens arms ++ walk_block tokens else_body
  | .Match _ scrutinee arms => exp tokens scrutinee ++ match_arms tokens arms
  | .ForNum b var from_ to_ none (.mk body list close) =>
    exp tokens from_ ++ exp tokens to_ ++
      [.loop b.id [.scope close (declare_loops body.first [(var, true)] ++ stats tokens list)]]
  | .ForNum b var from_ to_ (some step) (.mk body list close) =>
    exp tokens from_ ++ exp tokens to_ ++ exp tokens step ++
      [.loop b.id [.scope close (declare_loops body.first [(var, true)] ++ stats tokens list)]]
  | .ForIn b vars iterators (.mk body list close) =>
    walk_exps tokens iterators ++
      [.loop b.id [.scope close (declare_loops body.first (for_vars vars) ++ stats tokens list)]]
  | .Decl d => typedecl tokens false d

def stats (tokens : ℕ → Bytes) : List Stat → List Act
  | [] => []
  | s :: list => stat tokens s ++ stats tokens list

def if_arms (tokens : ℕ → Bytes) : List Arm → List Act
  | [] => []
  | .mk _ cond body :: arms => exp tokens cond ++ walk_block tokens body ++ if_arms tokens arms

def match_arms (tokens : ℕ → Bytes) : List MatchArm → List Act
  | [] => []
  | .mk _ pats (.mk _ list close) :: arms =>
    .scope close (declare_pats pats ++ stats tokens list) :: match_arms tokens arms

/-- The declaration of a type. An alias does not see its own name: it is declared once its type is
walked. -/
def typedecl (tokens : ℕ → Bytes) (nested : Bool) : Decl → List Act
  | .Record b scope name typeparams supers array members_ =>
    declare_type .Record name scope nested none ::
      type_body b.last typeparams (walk_types supers ++ (array.map ty).getD [] ++ members tokens members_)
  | .Interface b scope name typeparams supers members_ =>
    declare_type .Interface name scope nested none ::
      type_body b.last typeparams (walk_types supers ++ members tokens members_)
  | .Class b scope name typeparams supers members_ =>
    declare_type .Class name scope nested none ::
      type_body b.last typeparams (walk_types supers ++ members tokens members_)
  | .Enum _ scope name _ => [declare_type .Enum name scope nested none]
  | .Alias b scope name typeparams type =>
    type_body b.last typeparams (ty type) ++ [declare_type .Alias name scope nested none]
  | .Import _ scope name module => [declare_type .Import name scope nested (some module)]

def members (tokens : ℕ → Bytes) : List Member → List Act
  | [] => []
  | .FieldDecl _ _ _ _ type :: list => ty type ++ members tokens list
  | .Decl d :: list => typedecl tokens true d ++ members tokens list
  | .Method b _ params rets body :: list =>
    walk_function b.id b.last params rets (block_stats tokens body) none ++ members tokens list
  | .Userdata _ :: list | .Error _ :: list => members tokens list

end

/-! ## The end of a run -/

/-- The loops from `loop` out, down to the level `floor` or to one held already. -/
def climb (level parent : ℕ → ℕ) (floor : ℕ) (holding : List ℕ) : ℕ → ℕ → List ℕ
  | 0, _ => []
  | fuel + 1, loop =>
    if loop = 0 ∨ level loop ≤ floor ∨ loop ∈ holding then []
    else loop :: climb level parent floor holding fuel (parent loop)

/-- Whether a loop from `loop` out, down to the level `floor`, is held. -/
def held (level parent : ℕ → ℕ) (floor : ℕ) (holding : List ℕ) : ℕ → ℕ → Bool
  | 0, _ => false
  | fuel + 1, loop =>
    if loop = 0 ∨ level loop ≤ floor then false
    else holding.contains loop || held level parent floor holding fuel (parent loop)

/-- Settles whether an assignment to the binding at `r` may run after each function that captures
it is made. -/
def settle (S : State) (r : ℕ) : State :=
  match S.list[r]? with
  | none => S
  | some v =>
    if S.write_end r = [] then S
    else
      let newest := (S.write_end r).foldl max 0
      let floor := S.loop_level v.loop
      -- The loops inside the scope of `v` that hold an assignment.
      let holding := (S.write_loop r).foldl (fun holding loop =>
        holding ++ climb S.loop_level S.loop_parent floor holding (S.loop_level loop) loop) []
      let after (c : Capture) : Bool :=
        if S.made c.fn ≤ newest then true
        else
          c.after || held S.loop_level S.loop_parent floor holding (S.loop_level (S.entry_of c.fn)) (S.entry_of c.fn)
      S.modify r fun v => { v with captures := v.captures.map fun c => { c with after := after c } }

/-- The first declaration of a name after a use of it, then the next few: one whose scope holds
the use. -/
def later (list : List Var) (u : Unknown) : Option Var :=
  let held := (list.filter fun v => v.name == u.name).mergeSort fun a b => a.declared ≤ b.declared
  ((held.filter fun v => u.token < v.declared).take 50).find? fun v => u.token ≤ v.to_ && v.space != .type

/-- The error of a name no binding or declared global holds. -/
def unknown_error (list : List Var) (u : Unknown) : Error :=
  match u.what with
  | .type => ⟨.unknown_type, u.token, none⟩
  | _ => ⟨.unknown_variable, u.token, (later list u).map Var.declared⟩

structure Scoped where
  vars : ℕ → Option Var
  list : List Var
  resolved : ℕ → Option ℕ
  globals : Bytes → List ℕ
  global_writes : Bytes → List ℕ
  errors : List Error

def walk (chunk : Chunk) : List Act :=
  [.frame chunk.id chunk.last [.scope chunk.last (block_stats chunk.tokens chunk.body)]]

def walked (chunk : Chunk) (declared : Bytes → Option Global) : State := runs (walk chunk) { declared := declared }

def build (chunk : Chunk) (declared : Bytes → Option Global) : Scoped :=
  let S := walked chunk declared
  let S := S.captured.foldl settle S
  let errors := S.errors ++ S.unknown.map (unknown_error S.list)
  { vars := fun id => (S.vars id).bind (S.list[·]?)
    list := S.list
    resolved := S.resolved
    globals := S.globals
    global_writes := S.global_writes
    errors := errors.mergeSort fun a b => a.token ≤ b.token }

/-- The bindings visible at the token `at_`, by name: the innermost of each. -/
def in_scope (answer : Scoped) (at_ : ℕ) : Bytes → Option Var :=
  answer.list.foldl (fun out v =>
    if v.from_ ≤ at_ ∧ at_ ≤ v.to_ then
      match out v.name with
      | none => put out v.name (some v)
      | some held => if held.from_ ≤ v.from_ then put out v.name (some v) else out
    else out) fun _ => none

end Cosmic.Scopes
