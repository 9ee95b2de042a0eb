/-
`lang/ast.tl`: the syntax tree of a program.

A node is a range of tokens, `first` to `last`, with the number the tree gives it. The kinds of a
union of the source are the constructors of one type here, under the names of their kinds. What
no function modelled here reads (the value of a number, the doc comments) is left out.
-/
import Cosmic.Base.Text

set_option autoImplicit false

namespace Cosmic.Ast

open Cosmic.Base List

/-! ## Names -/

/-- How a declaration is introduced. -/
inductive Scope where
  | loc
  | global
  deriving DecidableEq, Repr

inductive Attr where
  | const
  | close
  deriving DecidableEq, Repr

/-- `Ast.Base`: the tokens of a node, and its number in a walk of the tree. -/
structure Base where
  first : ℕ
  last : ℕ
  id : ℕ
  deriving DecidableEq, Repr

/-- A name that introduces something. -/
structure Binding extends Base where
  name : Bytes
  attr : Option Attr
  deriving DecidableEq, Repr

structure Name extends Base where
  text : Bytes
  deriving DecidableEq, Repr

/-! ## Types -/

mutual

/-- `Ast.Type`. A supertype and the constraint of a type parameter are a `TypeName` too. -/
inductive Ty where
  | TypeName (b : Base) (path : List Bytes) (args : List Ty)
  | TypeBool (b : Base) (value : Bool)
  | TypeNil (b : Base)
  | TypeError (b : Base)
  | TypeArray (b : Base) (element : Ty)
  | TypeMap (b : Base) (key value : Ty)
  | TypeUnion (b : Base) (members : List Ty)
  | TypeOptional (b : Base) (inner : Ty)
  | TypeMut (b : Base) (inner : Ty)
  | TypeFunction (b : Base) (typeparams : List TypeParam) (params : List PType) (rets : Option Rets)

inductive TypeParam where
  | mk (b : Base) (name : Binding) (constraint : Option Ty)

/-- A parameter of a function type. -/
inductive PType where
  | mk (b : Base) (name : Option Bytes) (optional variadic : Bool) (type : Ty)

inductive Rets where
  | mk (b : Base) (lists : List (List RType)) (variadic : Bool)

/-- An item of a return list: a type, or `v is T` and `asserts v is T`. -/
inductive RType where
  | type (t : Ty)
  | Narrows (b : Base) (param : Bytes) (type : Ty) (asserts : Bool)

end

structure Param extends Base where
  name : Option Binding
  optional : Bool
  variadic : Bool
  type : Option Ty

/-! ## Expressions, statements and declarations -/

inductive UnaryOp where
  | not
  | len
  | neg
  | bnot
  deriving DecidableEq, Repr

inductive BinaryOp where
  | or
  | and
  | lt
  | gt
  | le
  | ge
  | ne
  | eq
  | bor
  | bxor
  | band
  | shl
  | shr
  | concat
  | add
  | sub
  | mul
  | div
  | idiv
  | mod
  | pow
  deriving DecidableEq, Repr

/-- An item of the pattern of a `match` arm. -/
inductive PatItem where
  | PatBool (b : Base) (value : Bool)
  | PatBind (b : Base) (name : Binding)

structure EnumValue extends Base where
  value : Bytes

mutual

inductive Exp where
  | Name (n : Name)
  | Nil (b : Base)
  | Boolean (b : Base) (value : Bool)
  | Integer (b : Base)
  | Float (b : Base)
  | String (b : Base) (value : Bytes) (long : Bool)
  | Vararg (b : Base)
  | Paren (b : Base) (inner : Exp)
  | FunctionLit (b : Base) (fn : Fn)
  | Table (b : Base) (items : List Item)
  | Field (b : Base) (object : Exp) (name : Bytes)
  | Index (b : Base) (object key : Exp)
  | Call (b : Base) (callee : Exp) (args : List Exp)
  | MethodCall (b : Base) (object : Exp) (name : Bytes) (args : List Exp)
  | Unary (b : Base) (op : UnaryOp) (operand : Exp)
  | Binary (b : Base) (op : BinaryOp) (left right : Exp)
  | IsTest (b : Base) (value : Exp) (type : Ty)
  | Cast (b : Base) (value : Exp) (type : Ty)
  | IfExp (b : Base) (arms : List ExpArm) (else_value : Exp)
  | Error (b : Base)

inductive Item where
  | Positional (b : Base) (value : Exp)
  | Spread (b : Base) (value : Exp)
  | Named (b : Base) (name : Bytes) (value : Exp)
  | Keyed (b : Base) (key value : Exp)

inductive ExpArm where
  | mk (b : Base) (cond value : Exp)

inductive Fn where
  | mk (b : Base) (params : List Param) (rets : Option Rets) (body : Block)

/-- `close` is the token that ended it: `end`, `else`, `elseif`, `until`, the `|` of the next arm,
or the end of the file. -/
inductive Block where
  | mk (b : Base) (stats : List Stat) (close : ℕ)

inductive Stat where
  | Local (b : Base) (scope : Scope) (bindings : List Binding) (types : List Ty) (values : List Exp)
  | LocalFunction (b : Base) (name : Binding) (typeparams : List TypeParam) (fn : Fn)
  | Function (b : Base) (path : List Name) (typeparams : List TypeParam) (fn : Fn)
  | Assign (b : Base) (targets values : List Exp)
  | CallStat (b : Base) (call : Exp)
  | Return (b : Base) (values : List Exp)
  | Do (b : Base) (body : Block)
  | Break (b : Base)
  | Continue (b : Base)
  | While (b : Base) (cond : Exp) (body : Block)
  | Repeat (b : Base) (body : Block) (cond : Exp)
  | If (b : Base) (arms : List Arm) (else_body : Option Block)
  | Match (b : Base) (scrutinee : Exp) (arms : List MatchArm)
  | ForNum (b : Base) (var : Binding) (from_ to_ : Exp) (step : Option Exp) (body : Block)
  | ForIn (b : Base) (vars : List Binding) (iterators : List Exp) (body : Block)
  | Decl (d : Decl)
  | Error (b : Base)

inductive Arm where
  | mk (b : Base) (cond : Exp) (body : Block)

inductive MatchArm where
  | mk (b : Base) (pats : List PatItem) (body : Block)

/-- A declaration of a type, a statement or a member of another. -/
inductive Decl where
  | Record (b : Base) (scope : Option Scope) (name : Binding) (typeparams : List TypeParam)
      (supers : List Ty) (array : Option Ty) (members : List Member)
  | Interface (b : Base) (scope : Option Scope) (name : Binding) (typeparams : List TypeParam)
      (supers : List Ty) (members : List Member)
  | Class (b : Base) (scope : Option Scope) (name : Binding) (typeparams : List TypeParam)
      (supers : List Ty) (members : List Member)
  | Enum (b : Base) (scope : Option Scope) (name : Binding) (values : List EnumValue)
  | Alias (b : Base) (scope : Option Scope) (name : Binding) (typeparams : List TypeParam) (type : Ty)
  | Import (b : Base) (scope : Option Scope) (name : Binding) (module : Bytes)

inductive Member where
  | FieldDecl (b : Base) (name : Binding) (is_mut omittable : Bool) (type : Ty)
  | Decl (d : Decl)
  | Method (b : Base) (name : Binding) (params : List Param) (rets : Option Rets) (body : Block)
  | Userdata (b : Base)
  | Error (b : Base)

end

/-- `Ast.Chunk`, with the text of each of its tokens. -/
structure Chunk extends Base where
  body : Block
  tokens : ℕ → Bytes

/-! ## The tokens of a node -/

def Ty.base : Ty → Base
  | .TypeName b _ _ | .TypeBool b _ | .TypeNil b | .TypeError b | .TypeArray b _ | .TypeMap b _ _
  | .TypeUnion b _ | .TypeOptional b _ | .TypeMut b _ | .TypeFunction b _ _ _ => b

def Exp.base : Exp → Base
  | .Name n => n.toBase
  | .Nil b | .Boolean b _ | .Integer b | .Float b | .String b _ _ | .Vararg b | .Paren b _
  | .FunctionLit b _ | .Table b _ | .Field b _ _ | .Index b _ _ | .Call b _ _ | .MethodCall b _ _ _
  | .Unary b _ _ | .Binary b _ _ _ | .IsTest b _ _ | .Cast b _ _ | .IfExp b _ _ | .Error b => b

def Decl.base : Decl → Base
  | .Record b _ _ _ _ _ _ | .Interface b _ _ _ _ _ | .Class b _ _ _ _ _ | .Enum b _ _ _
  | .Alias b _ _ _ _ | .Import b _ _ _ => b

def Stat.base : Stat → Base
  | .Local b _ _ _ _ | .LocalFunction b _ _ _ | .Function b _ _ _ | .Assign b _ _ | .CallStat b _
  | .Return b _ | .Do b _ | .Break b | .Continue b | .While b _ _ | .Repeat b _ _ | .If b _ _
  | .Match b _ _ | .ForNum b _ _ _ _ _ | .ForIn b _ _ _ | .Error b => b
  | .Decl d => d.base

/-!
`lang/parser.tl`: where the nodes of a tree stand among the tokens.

A tree that the parser makes with no error is laid out over the tokens it was read from: the parts
of a node stand in its range, one after another, and a block ends at the token that ends it.
`Placed` states that, and what else a walk of the tree relies on the parser to refuse: a binding
with no name, an unparsed range, a path of a `function` statement that is not `R.m`.
-/

/-! ## Parts in order -/

/-- Parts that stand one after another in the tokens from `lo` to `hi`. A block may hold no
token. -/
def Tiled (hi : ℕ) : ℕ → List Base → Prop
  | lo, [] => lo ≤ hi + 1
  | lo, b :: parts => lo ≤ b.first ∧ b.first ≤ b.last + 1 ∧ Tiled hi (b.last + 1) parts

variable {lo hi : ℕ} {parts : List Base}

theorem Tiled.le (h : Tiled hi lo parts) : lo ≤ hi + 1 := by
  induction parts generalizing lo with
  | nil => exact h
  | cons b parts ih =>
    obtain ⟨h₁, h₂, h₃⟩ := h
    have := ih h₃
    omega

variable {b : Base}

theorem Tiled.last_le (h : Tiled hi lo (b :: parts)) : b.last ≤ hi := by
  have := h.2.2.le
  omega

theorem Tiled.rest_le (h : Tiled hi lo (b :: parts)) : lo ≤ b.last + 1 := by
  have := h.1
  have := h.2.1
  omega

theorem Tiled.all (h : Tiled hi lo parts) : Tiled hi lo (parts ++ []) := by
  rwa [append_nil]

theorem Tiled.part (h : Tiled hi lo parts) (hb : b ∈ parts) : lo ≤ b.first ∧ b.last ≤ hi := by
  induction parts generalizing lo with
  | nil => exact absurd hb not_mem_nil
  | cons c parts ih =>
    rcases mem_cons.mp hb with rfl | hb
    · exact ⟨h.1, h.last_le⟩
    · have := ih h.2.2 hb
      have := h.rest_le
      exact ⟨by omega, by omega⟩

theorem Tiled.part_le (h : Tiled hi lo parts) (hb : b ∈ parts) : b.first ≤ b.last + 1 := by
  induction parts generalizing lo with
  | nil => exact absurd hb not_mem_nil
  | cons c parts ih =>
    rcases mem_cons.mp hb with rfl | hb
    · exact h.2.1
    · exact ih h.2.2 hb

variable {as bs : List Base}

/-- Parts, the first of which is there, end before those that follow. -/
theorem Tiled.cut {a : Base} (h : Tiled hi lo (a :: as ++ bs)) :
    ∃ m, Tiled m lo (a :: as) ∧ m ≤ hi ∧ Tiled hi (m + 1) bs := by
  induction as generalizing a lo with
  | nil => exact ⟨a.last, ⟨h.1, h.2.1, Nat.le_refl _⟩, h.last_le, h.2.2⟩
  | cons c as ih =>
    obtain ⟨m, hparts, hhi, hrest⟩ := ih h.2.2
    exact ⟨m, ⟨h.1, h.2.1, hparts⟩, hhi, hrest⟩

theorem Tiled.after (h : Tiled hi lo (as ++ bs)) : Tiled hi lo bs := by
  induction as generalizing lo with
  | nil => exact h
  | cons a as ih =>
    have hbs := ih h.2.2
    have hlo := h.rest_le
    cases bs with
    | nil => exact hlo.trans hbs
    | cons b bs => exact ⟨hlo.trans hbs.1, hbs.2⟩

theorem Tiled.left (h : Tiled hi lo (as ++ bs)) : Tiled hi lo as := by
  induction as generalizing lo with
  | nil => exact h.le
  | cons a as ih => exact ⟨h.1, h.2.1, ih h.2.2⟩

theorem Tiled.close (h : Tiled hi lo (as ++ [b])) : Tiled b.last lo (as ++ [b]) := by
  induction as generalizing lo with
  | nil => exact ⟨h.1, h.2.1, Nat.le_refl _⟩
  | cons a as ih => exact ⟨h.1, h.2.1, ih h.2.2⟩

theorem Tiled.ordered (h : Tiled hi lo (as ++ bs)) {a : Base} (ha : a ∈ as) (hb : b ∈ bs) : a.last < b.first := by
  induction as generalizing lo with
  | nil => exact absurd ha not_mem_nil
  | cons c as ih =>
    rcases mem_cons.mp ha with rfl | ha
    · exact (h.2.2.part (mem_append_right _ hb)).1
    · exact ih h.2.2 ha

theorem Tiled.before {m : ℕ} (h : Tiled hi lo (as ++ b :: bs)) (hb : b.first = m + 1) : Tiled m lo as := by
  induction as generalizing lo with
  | nil =>
    have := h.1
    change lo ≤ m + 1
    omega
  | cons a as ih => exact ⟨h.1, h.2.1, ih h.2.2⟩

/-- Of two parts, one begins no later than the other or after it. -/
theorem Tiled.apart (h : Tiled hi lo parts) {c : Base} (hb : b ∈ parts) (hc : c ∈ parts) :
    c.first ≤ b.first ∨ b.last < c.first := by
  induction parts generalizing lo with
  | nil => exact absurd hb not_mem_nil
  | cons a parts ih =>
    have hle := h.2.1
    rcases mem_cons.mp hb with rfl | hb'
    · rcases mem_cons.mp hc with rfl | hc'
      · exact .inl le_rfl
      · exact .inr (h.2.2.part hc').1
    · rcases mem_cons.mp hc with rfl | hc'
      · have := (h.2.2.part hb').1
        exact .inl (by omega)
      · exact ih h.2.2 hb' hc'

/-! ## Types -/

def TypeParam.base : TypeParam → Base
  | .mk b _ _ => b

def PType.base : PType → Base
  | .mk b _ _ _ _ => b

def Rets.base : Rets → Base
  | .mk b _ _ => b

def RType.base : RType → Base
  | .type t => t.base
  | .Narrows b _ _ _ => b

def Binding.Placed (name : Binding) : Prop := name.name ≠ [] ∧ name.first ≤ name.last

/-- The constraint of a type parameter is the path of a type, with no arguments. -/
def TypeParam.Placed : TypeParam → Prop
  | .mk b name none => name.Placed ∧ name.first = b.first ∧ b.first ≤ b.last
  | .mk b name (some (.TypeName c _ [])) =>
    name.Placed ∧ name.first = b.first ∧ b.first < c.first ∧ c.first ≤ b.last
  | .mk _ _ (some _) => False

mutual

def Ty.Placed : Ty → Prop
  | .TypeName b _ args => Tiled b.last (b.first + 1) (args.map Ty.base) ∧ placed_types args
  | .TypeBool _ _ | .TypeNil _ => True
  | .TypeArray b element => Tiled b.last b.first [element.base] ∧ element.Placed
  | .TypeMap b key value => Tiled b.last b.first [key.base, value.base] ∧ key.Placed ∧ value.Placed
  | .TypeUnion b members => Tiled b.last b.first (members.map Ty.base) ∧ placed_types members
  | .TypeOptional b inner | .TypeMut b inner => Tiled b.last b.first [inner.base] ∧ inner.Placed
  | .TypeFunction b typeparams params rets =>
    Tiled b.last b.first (typeparams.map TypeParam.base ++ (params.map PType.base ++ (rets.map Rets.base).toList)) ∧
    (∀ p ∈ typeparams, p.Placed) ∧ placed_ptypes params ∧ placed_rets rets
  | .TypeError _ => False

def placed_types : List Ty → Prop
  | [] => True
  | t :: list => t.Placed ∧ placed_types list

def placed_ptypes : List PType → Prop
  | [] => True
  | .mk b _ _ _ type :: list => (Tiled b.last b.first [type.base] ∧ type.Placed) ∧ placed_ptypes list

def placed_rets : Option Rets → Prop
  | none => True
  | some (.mk b lists _) => Tiled b.last b.first (lists.flatten.map RType.base) ∧ placed_lists lists

def placed_lists : List (List RType) → Prop
  | [] => True
  | list :: lists => placed_rtypes list ∧ placed_lists lists

def placed_rtypes : List RType → Prop
  | [] => True
  | .type t :: list => t.Placed ∧ placed_rtypes list
  | .Narrows b _ type _ :: list => (Tiled b.last b.first [type.base] ∧ type.Placed) ∧ placed_rtypes list

end

/-- A parameter's name is its first token. -/
def Param.Placed (p : Param) : Prop :=
  (∀ name ∈ p.name, name.Placed ∧ name.first = p.first) ∧
  p.first ≤ p.last ∧ ∀ t ∈ p.type, Tiled p.last (p.first + 1) [t.base] ∧ t.Placed

/-! ## Expressions, statements and declarations -/

def Item.base : Item → Base
  | .Positional b _ | .Spread b _ | .Named b _ _ | .Keyed b _ _ => b

def ExpArm.base : ExpArm → Base
  | .mk b _ _ => b

def Fn.base : Fn → Base
  | .mk b _ _ _ => b

def Block.base : Block → Base
  | .mk b _ _ => b

def Arm.base : Arm → Base
  | .mk b _ _ => b

def MatchArm.base : MatchArm → Base
  | .mk b _ _ => b

def PatItem.base : PatItem → Base
  | .PatBool b _ | .PatBind b _ => b

def Member.base : Member → Base
  | .FieldDecl b _ _ _ _ | .Method b _ _ _ _ | .Userdata b | .Error b => b
  | .Decl d => d.base

def PatItem.Placed : PatItem → Prop
  | .PatBool _ _ => True
  | .PatBind b name => name.Placed ∧ name.first = b.first ∧ b.first ≤ b.last

/-- The parts of a signature and a body: a parenthesis or a keyword begins them, and the `end` of
the body ends them. -/
def signature_placed (b : Base) (params : List Param) (rets : Option Rets) (body : Block) : Prop :=
  Tiled b.last (b.first + 1) (params.map Param.toBase ++ ((rets.map Rets.base).toList ++ [body.base])) ∧
  (∀ p ∈ params, p.Placed) ∧ placed_rets rets ∧ body.base.last = b.last

/-- The names of a declaration of a type and of its type parameters. -/
def head_placed (b : Base) (name : Binding) (typeparams : List TypeParam) (parts : List Base) : Prop :=
  Tiled b.last (b.first + 1) (name.toBase :: (typeparams.map TypeParam.base ++ parts)) ∧
  name.Placed ∧ ∀ p ∈ typeparams, p.Placed

mutual

def Exp.Placed (tokens : ℕ → Bytes) : Exp → Prop
  | .Name n => n.first ≤ n.last
  | .Nil _ | .Boolean _ _ | .Integer _ | .Float _ | .String _ _ _ | .Vararg _ => True
  | .Paren b inner => Tiled b.last b.first [inner.base] ∧ inner.Placed tokens
  | .FunctionLit b fn => Tiled b.last b.first [fn.base] ∧ fn.Placed tokens
  | .Table b items => Tiled b.last b.first (items.map Item.base) ∧ placed_items tokens items
  | .Field b object _ => Tiled b.last b.first [object.base] ∧ object.Placed tokens
  | .Index b object key => Tiled b.last b.first [object.base, key.base] ∧ object.Placed tokens ∧ key.Placed tokens
  | .Call b callee args =>
    Tiled b.last b.first (callee.base :: args.map Exp.base) ∧ callee.Placed tokens ∧ placed_exps tokens args
  | .MethodCall b object _ args =>
    Tiled b.last b.first (object.base :: args.map Exp.base) ∧ object.Placed tokens ∧ placed_exps tokens args
  | .Unary b _ operand => Tiled b.last b.first [operand.base] ∧ operand.Placed tokens
  | .Binary b _ left right =>
    Tiled b.last b.first [left.base, right.base] ∧ left.Placed tokens ∧ right.Placed tokens
  | .IsTest b value type | .Cast b value type =>
    Tiled b.last b.first [value.base, type.base] ∧ value.Placed tokens ∧ type.Placed
  | .IfExp b arms else_value =>
    Tiled b.last b.first (arms.map ExpArm.base ++ [else_value.base]) ∧ placed_exp_arms tokens arms ∧
      else_value.Placed tokens
  | .Error _ => False

def placed_exps (tokens : ℕ → Bytes) : List Exp → Prop
  | [] => True
  | e :: list => e.Placed tokens ∧ placed_exps tokens list

def placed_items (tokens : ℕ → Bytes) : List Item → Prop
  | [] => True
  | .Positional b value :: list | .Spread b value :: list | .Named b _ value :: list =>
    (Tiled b.last b.first [value.base] ∧ value.Placed tokens) ∧ placed_items tokens list
  | .Keyed b key value :: list =>
    (Tiled b.last b.first [key.base, value.base] ∧ key.Placed tokens ∧ value.Placed tokens) ∧ placed_items tokens list

def placed_exp_arms (tokens : ℕ → Bytes) : List ExpArm → Prop
  | [] => True
  | .mk b cond value :: list =>
    (Tiled b.last b.first [cond.base, value.base] ∧ cond.Placed tokens ∧ value.Placed tokens) ∧
      placed_exp_arms tokens list

def Fn.Placed (tokens : ℕ → Bytes) : Fn → Prop
  | .mk b params rets body => signature_placed b params rets body ∧ body.Placed tokens

/-- The statements of a block stand before the token that ends it, which is its last. -/
def Block.Placed (tokens : ℕ → Bytes) : Block → Prop
  | .mk b list close =>
    b.last = close ∧ Tiled close b.first (list.map Stat.base ++ [⟨close, close, 0⟩]) ∧ placed_stats tokens list

def Stat.Placed (tokens : ℕ → Bytes) : Stat → Prop
  | .Local b _ bindings types values =>
    Tiled b.last b.first (bindings.map Binding.toBase ++ (types.map Ty.base ++ values.map Exp.base)) ∧
      (∀ name ∈ bindings, name.Placed) ∧ placed_types types ∧ placed_exps tokens values
  | .LocalFunction b name typeparams fn =>
    head_placed b name typeparams [fn.base] ∧ fn.Placed tokens
  | .Function b [first, second] typeparams fn =>
    Tiled b.last b.first (first.toBase :: second.toBase :: (typeparams.map TypeParam.base ++ [fn.base])) ∧
      (tokens (second.first - 1) ≠ lit ":" ∧ first.first ≤ first.last) ∧
      (∀ p ∈ typeparams, p.Placed) ∧ fn.Placed tokens
  | .Function _ _ _ _ => False
  | .Assign b targets values =>
    Tiled b.last b.first (targets.map Exp.base ++ values.map Exp.base) ∧ placed_exps tokens targets ∧
      placed_exps tokens values
  | .CallStat b call => Tiled b.last b.first [call.base] ∧ call.Placed tokens
  | .Return b values => Tiled b.last b.first (values.map Exp.base) ∧ placed_exps tokens values
  | .Do b body => Tiled b.last b.first [body.base] ∧ body.Placed tokens
  | .Break _ | .Continue _ => True
  | .While b cond body =>
    Tiled b.last b.first [cond.base, body.base] ∧ cond.Placed tokens ∧ body.Placed tokens
  | .Repeat b body cond =>
    Tiled b.last b.first [body.base, cond.base] ∧ body.Placed tokens ∧ cond.Placed tokens
  | .If b arms else_body =>
    Tiled b.last b.first (arms.map Arm.base ++ (else_body.map Block.base).toList) ∧ placed_arms tokens arms ∧
      placed_else tokens else_body
  | .Match b scrutinee arms =>
    Tiled b.last b.first (scrutinee.base :: arms.map MatchArm.base) ∧ scrutinee.Placed tokens ∧
      placed_match_arms tokens arms
  | .ForNum b var from_ to_ none body =>
    Tiled b.last b.first [from_.base, to_.base, body.base] ∧ var.Placed ∧ from_.Placed tokens ∧
      to_.Placed tokens ∧ body.Placed tokens
  | .ForNum b var from_ to_ (some step) body =>
    Tiled b.last b.first [from_.base, to_.base, step.base, body.base] ∧ var.Placed ∧ from_.Placed tokens ∧
      to_.Placed tokens ∧ step.Placed tokens ∧ body.Placed tokens
  | .ForIn b vars iterators body =>
    Tiled b.last b.first (iterators.map Exp.base ++ [body.base]) ∧ (∀ name ∈ vars, name.Placed) ∧
      placed_exps tokens iterators ∧ body.Placed tokens
  | .Decl d => d.Placed tokens
  | .Error _ => False

def placed_stats (tokens : ℕ → Bytes) : List Stat → Prop
  | [] => True
  | s :: list => s.Placed tokens ∧ placed_stats tokens list

def placed_else (tokens : ℕ → Bytes) : Option Block → Prop
  | none => True
  | some body => body.Placed tokens

def placed_arms (tokens : ℕ → Bytes) : List Arm → Prop
  | [] => True
  | .mk b cond body :: list =>
    (Tiled b.last b.first [cond.base, body.base] ∧ cond.Placed tokens ∧ body.Placed tokens) ∧ placed_arms tokens list

def placed_match_arms (tokens : ℕ → Bytes) : List MatchArm → Prop
  | [] => True
  | .mk b pats body :: list =>
    (Tiled b.last b.first (pats.map PatItem.base ++ [body.base]) ∧ (∀ p ∈ pats, p.Placed) ∧
      body.Placed tokens) ∧ placed_match_arms tokens list

def Decl.Placed (tokens : ℕ → Bytes) : Decl → Prop
  | .Record b _ name typeparams supers array members =>
    head_placed b name typeparams (supers.map Ty.base ++ ((array.map Ty.base).toList ++ members.map Member.base)) ∧
      placed_types supers ∧ (∀ t ∈ array, t.Placed) ∧ placed_members tokens members
  | .Interface b _ name typeparams supers members | .Class b _ name typeparams supers members =>
    head_placed b name typeparams (supers.map Ty.base ++ members.map Member.base) ∧
      placed_types supers ∧ placed_members tokens members
  | .Enum b _ name _ | .Import b _ name _ => Tiled b.last (b.first + 1) [name.toBase] ∧ name.Placed
  | .Alias b _ name typeparams type => head_placed b name typeparams [type.base] ∧ type.Placed

def placed_members (tokens : ℕ → Bytes) : List Member → Prop
  | [] => True
  | .FieldDecl b _ _ _ type :: list =>
    (Tiled b.last b.first [type.base] ∧ type.Placed) ∧ placed_members tokens list
  | .Decl d :: list => d.Placed tokens ∧ placed_members tokens list
  | .Method b _ params rets body :: list =>
    (signature_placed b params rets body ∧ body.Placed tokens) ∧ placed_members tokens list
  | .Userdata _ :: list => placed_members tokens list
  | .Error _ :: _ => False

end

/-- A program as the parser makes it: its block ends at the end of the file. -/
def Chunk.Placed (chunk : Chunk) : Prop := chunk.body.Placed chunk.tokens ∧ chunk.body.base.last = chunk.last

end Cosmic.Ast
