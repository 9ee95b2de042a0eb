/-
`lang/types.tl`: the types of one check, and the store that interns them.

A type of a store is its id, its position among the types of the store, from 1, and a declaration
its position among the declarations made, from 1. A reference that is no live type of the store
(of another store, taken back, forgotten) is one the constructors refuse; such a reference is any
number that is not the id of a live type, so that `owned` is a test of the number.
The digest of a type is filled as the type is made here, where the source fills it when it is
first asked for.
-/
import Cosmic.Base.Entries
import Cosmic.Base.Items
import Cosmic.Base.Raise
import Cosmic.Lang.Lexer
import Mathlib.Data.List.Sort
import Mathlib.Order.Lex

set_option autoImplicit false

namespace Cosmic.Types

open Cosmic.Base

/-! ## Forms -/

inductive Atom where
  | integer
  | number
  | string
  | boolean
  | true
  | false
  | nil
  | never
  | any
  | invalid
  deriving DecidableEq, Repr

inductive DeclKind where
  | record
  | class_
  | interface
  | enum
  | userdata
  | alias_
  deriving DecidableEq, Repr

structure Param (α : Type) where
  type : α
  omittable : Bool
  deriving DecidableEq, Repr

/-- A narrowing declaration `v is T` or `asserts v is T`. -/
structure Narrows (α : Type) where
  /-- The position of the parameter, from 1. -/
  param : ℕ
  to_ : α
  asserts : Bool
  deriving DecidableEq, Repr

/-- One value list a function may answer: `items`, then any number of `tail`. -/
structure Alt (α : Type) where
  items : List α := []
  tail : Option α := none
  narrows : Option (Narrows α) := none
  deriving DecidableEq, Repr

inductive Form (α : Type) where
  | atom (tag : Atom)
  | named (decl : ℕ) (args : List α) (value : Bool)
  | array (element : α) (mutable : Bool)
  | map (key value : α) (mutable : Bool)
  | union (members : List α) (nilable : Bool)
  | var (depth index : ℕ)
  | fn (tparams : List (Option α)) (params : List (Param α)) (rest : Option α) (rets : List (Alt α))
  deriving DecidableEq, Repr

/-- The types an alternative is made of, in the order its text writes them. -/
def Alt.parts {α : Type} (alt : Alt α) : List α :=
  alt.items ++ alt.tail.toList ++ (alt.narrows.map Narrows.to_).toList

/-- `Types.parts`: the types a type is made of, in the order its text writes them. -/
def Form.parts {α : Type} : Form α → List α
  | .atom _ => []
  | .named _ args _ => args
  | .array element _ => [element]
  | .map key value _ => [key, value]
  | .union members _ => members
  | .var _ _ => []
  | .fn tparams params rest rets =>
    tparams.reduceOption ++ params.map Param.type ++ rest.toList ++ rets.flatMap Alt.parts

/-! ## Text -/

def Atom.text : Atom → Bytes
  | .integer => lit "integer"
  | .number => lit "number"
  | .string => lit "string"
  | .boolean => lit "boolean"
  | .true => lit "true"
  | .false => lit "false"
  | .nil => lit "nil"
  | .never => lit "never"
  | .any => lit "any"
  | .invalid => lit "invalid"

/-- The atoms, in the order of their ids. -/
def ATOMS : List Atom := [.integer, .number, .string, .boolean, .true, .false, .nil, .never, .any, .invalid]

/-- `DECL_KINDS`, the other way: the word for a kind. -/
def DeclKind.text : DeclKind → Bytes
  | .record => lit "record"
  | .class_ => lit "class"
  | .interface => lit "interface"
  | .enum => lit "enum"
  | .userdata => lit "userdata"
  | .alias_ => lit "alias"

def DECL_KINDS : List DeclKind := [.record, .class_, .interface, .enum, .userdata, .alias_]

def three_digits (n : ℕ) : Bytes :=
  [UInt8.ofNat (48 + n / 100), UInt8.ofNat (48 + n / 10 % 10), UInt8.ofNat (48 + n % 10)]

/-- Whether a byte is written as an escape in quotes: one that could end the string, or is not
printable ASCII. -/
def is_escaped (b : UInt8) : Bool := b < 32 || b == 34 || b == 92 || 127 ≤ b

/-- A string in quotes, with a backslash and three digits for every escaped byte. -/
def quote (s : Bytes) : Bytes :=
  lit "\"" ++ s.flatMap (fun b => if is_escaped b then 92 :: three_digits b.toNat else [b]) ++ lit "\""

section

variable {α : Type} (decl_text : ℕ → Bytes) (sub : α → Bytes)

/-- The text of an alternative, its parts written by `sub`. -/
def render_alt (alt : Alt α) : Bytes :=
  match alt.narrows with
  | some narrows =>
    lit "((" ++ (if narrows.asserts then lit "asserts " else lit "is ") ++
      tostring narrows.param ++ lit " " ++ sub narrows.to_ ++ lit "))"
  | none =>
    let parts := alt.items.map sub ++ (alt.tail.map (fun tail => lit "(... " ++ sub tail ++ lit ")")).toList
    lit "(" ++ concat (lit " ") parts ++ lit ")"

/-- The text of a parameter or a field. -/
def render_slot (type : Bytes) (omittable : Bool) : Bytes :=
  if omittable then lit "(opt " ++ type ++ lit ")" else type

/-- The text of one type with the text of each part it holds written by `sub` and the path of a
declaration by `decl_text`: the canonical text when `sub` is the text itself, the key of the
store's table when it is the part's id, and what a digest hashes when it is the part's digest. -/
def render : Form α → Bytes
  | .atom tag => tag.text
  | .named decl args value =>
    (if value then lit "(val " else lit "(ref ") ++ decl_text decl ++
      args.flatMap (fun a => lit " " ++ sub a) ++ lit ")"
  | .array element mutable =>
    lit "(" ++ (if mutable then lit "marray " else lit "array ") ++ sub element ++ lit ")"
  | .map key value mutable =>
    lit "(" ++ (if mutable then lit "mmap " else lit "map ") ++ sub key ++ lit " " ++ sub value ++ lit ")"
  | .union members nilable =>
    lit "(union" ++ members.flatMap (fun m => lit " " ++ sub m) ++ (if nilable then lit " nil" else []) ++ lit ")"
  | .var depth index => lit "(var " ++ tostring depth ++ lit " " ++ tostring index ++ lit ")"
  | .fn tparams params rest rets =>
    let slots := params.map (fun p => render_slot (sub p.type) p.omittable) ++
      (rest.map (fun rest => lit "(rest " ++ sub rest ++ lit ")")).toList
    lit "(fn (tp" ++ tparams.flatMap (fun bound => lit " " ++ (bound.map sub).getD (lit "_")) ++ lit ") (" ++
      concat (lit " ") slots ++ lit ") (rets" ++
      rets.flatMap (fun alt => lit " " ++ render_alt sub alt) ++ lit "))"

end

/-! ## The store -/

/-- What the store holds of a type: its form, and the measures set as it was made. -/
structure Cell where
  form : Form ℕ
  /-- Its `owner` is no store: forgotten. -/
  dead : Bool := false
  digest : Bytes := []
  /-- How many binders outside it its variables reach. -/
  open_ : ℕ := 0
  has_mut : Bool := false
  /-- How many types its text has. -/
  weight : ℕ := 1
  /-- How deeply it nests, 1 for an atom. -/
  height : ℕ := 1

structure Field where
  name : Bytes
  type : ℕ
  mutable : Bool
  omittable : Bool

structure Method where
  name : Bytes
  type : ℕ

structure DeclParam where
  name : Bytes
  bound : Option ℕ

structure Body where
  tparams : List DeclParam := []
  supers : List ℕ := []
  fields : List Field := []
  array : Option ℕ := none
  methods : List Method := []
  values : List Bytes := []
  alias_ : Option ℕ := none

structure Decl where
  kind : DeclKind
  module : Bytes
  names : List Bytes
  name : Bytes
  /-- The path as the text spells it. -/
  text : Bytes
  dead : Bool := false
  arity : Option ℕ := none
  body : Option Body := none

/-- What a decode did to the store apart from the types and declarations it made. -/
inductive Undo where
  /-- It gave `decl` a body and an arity, which was `arity`. -/
  | decl (decl : ℕ) (arity : Option ℕ)
  /-- It added a use to the uses `pending` holds at `key`. -/
  | use (key : Bytes)
  /-- It took `list` from `pending` at `key`. -/
  | pending (key : Bytes) (list : List ℕ)

structure Store where
  count : ℕ
  types : List Cell
  interned : Entries Bytes ℕ
  /-- Every declaration made. The source reaches them by reference alone. -/
  decls : List Decl := []
  declared : Entries Bytes ℕ := Entries.none_entered
  list : List ℕ := []
  pending : Entries Bytes (List ℕ) := Entries.none_entered
  journal : List Undo := []
  building : Bytes → Bool := fun _ => false
  building_order : List Bytes := []
  depth : ℕ := 0
  transactions : ℕ := 0
  dead : ℕ := 0

/-- The parts of the program that are outside the store: the hash, and what an error shows of a
type. -/
structure Outside where
  /-- The hex digits of a digest that are kept, of what is hashed. -/
  hash : Bytes → Bytes
  display : Store → ℕ → Bytes

/-- The most a type may nest. -/
def MAX_DEPTH : ℕ := 1000

/-- The most types of text `Types.encode` writes. -/
def TEXT_LIMIT : ℕ := 100000

def WEIGHT_CAP : ℕ := 2 ^ 40

def at_id {α : Type} (l : List α) : ℕ → Option α
  | 0 => none
  | i + 1 => l[i]?

def atom_of (tag : Atom) : ℕ := ATOMS.idxOf tag + 1

namespace Store

variable (s : Store)

def cell (t : ℕ) : Option Cell := at_id s.types t

def form (t : ℕ) : Option (Form ℕ) := (s.cell t).map Cell.form

def decl (d : ℕ) : Option Decl := at_id s.decls d

/-- The type is one of this store and not forgotten. -/
def alive (t : ℕ) : Bool := (s.cell t).any (!·.dead)

/-- The declaration is one of this store and not forgotten. -/
def decl_alive (d : ℕ) : Bool := (s.decl d).any (!·.dead)

def decl_text (d : ℕ) : Bytes := ((s.decl d).map Decl.text).getD []

def digest_text (t : ℕ) : Bytes := ((s.cell t).map Cell.digest).getD []

/-- The key of a form in the store's table: its text over the ids of its parts. -/
def key_of (form : Form ℕ) : Bytes := render s.decl_text tostring form

end Store

abbrev M (α : Type) : Type := Raise Store Bytes α

/-- `error("types: ..")` -/
def error {α : Type} (message : Bytes) : M α := Raise.raise (lit "types: " ++ message)

def foreign : Bytes := lit "types: a type of another store, or one that a refused decode took back"

def owned (t : ℕ) : M Unit := do
  let alive ← Raise.read (·.alive t)
  Raise.refuse (alive = false) foreign

def declared_here (d : ℕ) : M Decl := do
  let found ← Raise.read (fun s => (s.decl d).filter (!·.dead))
  Raise.need found (lit "types: a declaration of another store")

/-! ## Interning -/

def measure (s : Store) (form : Form ℕ) : Cell :=
  let parts := form.parts.filterMap s.cell
  let opens := parts.foldl (fun n c => max n c.open_) 0
  let changes := parts.any Cell.has_mut
  { form
    open_ := match form with
      | .var depth _ => depth + 1
      -- the function's own variables are bound by it
      | .fn tparams _ _ _ => if tparams = [] then opens else opens - 1
      | _ => opens
    -- a view does not reach through a named type or a function
    has_mut := match form with
      | .array _ mutable => changes || mutable
      | .map _ _ mutable => changes || mutable
      | .named _ _ _ => false
      | .fn _ _ _ _ => false
      | _ => changes
    weight := parts.foldl (fun n c => min WEIGHT_CAP (n + c.weight)) 1
    height := parts.foldl (fun n c => max n c.height) 0 + 1 }

/-- The store with a type of `form` added and entered in its table. -/
def Store.add (o : Outside) (s : Store) (form : Form ℕ) : Store :=
  { s with
    count := s.count + 1
    types := s.types ++ [{ measure s form with digest := o.hash (render s.decl_text s.digest_text form) }]
    interned := s.interned.enter (s.key_of form) (s.count + 1) }

/-- The one type of a store with the parts of the candidate `form`: the candidate itself, numbered,
if it is new. -/
def intern (o : Outside) (form : Form ℕ) : M ℕ := do
  let found ← Raise.read (fun s => s.interned (s.key_of form))
  match found with
  | some t => return t
  | none =>
    let height ← Raise.read (fun s => (measure s form).height)
    Raise.refuse (height > MAX_DEPTH) (lit "types: a type nested deeper than " ++ tostring MAX_DEPTH)
    Raise.change (·.add o form)
    Raise.read Store.count

/-! ## Unions -/

structure Gathered where
  members : List ℕ := []
  nilable : Bool := false
  any : Bool := false
  invalid : Bool := false

/-- Adds the type `m`, or the members of the union it is, to what a union gathers. The members of a
union are types made before it, so a union nests `m` levels at most. -/
def gather (s : Store) : ℕ → Gathered → ℕ → Gathered
  | 0, g, _ => g
  | levels + 1, g, m =>
    match s.form m with
    | some (.union members nilable) =>
      let g := members.foldl (gather s levels) g
      if nilable then { g with nilable := true } else g
    | some (.atom .nil) => { g with nilable := true }
    | some (.atom .any) => { g with any := true }
    | some (.atom .invalid) => { g with invalid := true }
    | some (.atom .never) => g
    | _ => if m ∈ g.members then g else { g with members := g.members ++ [m] }

/-- Whether the member `m` is covered by another of the members `seen`. -/
def covered (s : Store) (seen : List ℕ) (m : ℕ) : Bool :=
  if atom_of .number ∈ seen ∧ m = atom_of .integer then true
  else if atom_of .boolean ∈ seen ∧ (m = atom_of .true ∨ m = atom_of .false) then true
  else if atom_of .string ∈ seen then
    match s.form m with
    | some (.named d _ _) => (s.decl d).any (·.kind == .enum)
    | _ => false
  else false

/-- `by_digest`, of types in digest order or with one digest. -/
def by_digest (s : Store) (a b : ℕ) : Prop := s.digest_text a ≤ s.digest_text b

instance (s : Store) : DecidableRel (by_digest s) := fun a b =>
  inferInstanceAs (Decidable (s.digest_text a ≤ s.digest_text b))

/-- The normal form of the union of what was gathered. -/
inductive Normal where
  | type (t : ℕ)
  | union (members : List ℕ) (nilable : Bool)

def normal_union (s : Store) (g : Gathered) : Normal :=
  if g.invalid then .type (atom_of .invalid)
  else if g.any then .type (atom_of .any)
  else
    let both := atom_of .true ∈ g.members ∧ atom_of .false ∈ g.members ∧ atom_of .boolean ∉ g.members
    let members := if both then g.members ++ [atom_of .boolean] else g.members
    match members.filter (fun m => !covered s members m), g.nilable with
    | [], nilable => .type (atom_of (if nilable then .nil else .never))
    | [m], false => .type m
    | kept, nilable => .union (kept.insertionSort (by_digest s)) nilable

def union_of (o : Outside) (members : List ℕ) : M ℕ := do
  let _ ← Raise.each owned members
  let normal ← Raise.read (fun s =>
    normal_union s (members.foldl (fun g m => gather s (m + 1) g m) {}))
  match normal with
  | .type t => return t
  | .union members nilable => intern o (.union members nilable)

/-! ## Constructors -/

/-- Why a variable that the type `t` holds at `level` binders inside it, which is bound by the
binder of `count` parameters just outside, has no parameter, if it has none. (The source passes by
what it has visited at a level and found nothing in.) -/
def unbound (s : Store) (count : ℕ) : ℕ → ℕ → ℕ → Option Bytes
  | 0, _, _ => none
  | levels + 1, level, t =>
    match s.cell t with
    | none => none
    | some c =>
      if c.open_ ≤ level then none
      else
        match c.form with
        | .var depth index =>
          if depth = level ∧ count ≤ index then
            some (lit "the variable " ++ tostring depth ++ lit " " ++ tostring index ++
              lit " names a type parameter its binder lacks, which has " ++ tostring count)
          else none
        | .fn tparams params rest rets =>
          let inside := if tparams = [] then level else level + 1
          (Form.fn tparams params rest rets).parts.findSome? (unbound s count levels inside)
        | form => form.parts.findSome? (unbound s count levels level)

def is_bound (s : Store) (bound : ℕ) : Bool :=
  match s.form bound with
  | some (.named d args _) => (s.decl d).any (·.kind == .interface) && args.isEmpty
  | _ => false

def bound_ok (o : Outside) (bound : ℕ) : M Unit := do
  owned bound
  let s ← Raise.read id
  Raise.refuse (is_bound s bound = false)
    (lit "types: a type parameter is bounded by an interface and no arguments, not " ++ o.display s bound)

def array (o : Outside) (element : ℕ) (mutable : Bool) : M ℕ := do
  owned element
  intern o (.array element mutable)

def map (o : Outside) (key value : ℕ) (mutable : Bool) : M ℕ := do
  owned key
  owned value
  intern o (.map key value mutable)

def optional (o : Outside) (t : ℕ) : M ℕ := do
  owned t
  let form ← Raise.read (·.form t)
  match form with
  | some (.union _ true) => return t
  | _ => union_of o [t, atom_of .nil]

def non_nil (o : Outside) (t : ℕ) : M ℕ := do
  owned t
  let form ← Raise.read (·.form t)
  match form with
  | some (.atom .nil) => return atom_of .never
  | some (.union members true) => union_of o members
  | _ => return t

def var (o : Outside) (depth index : ℤ) : M ℕ := do
  Raise.refuse (depth < 0 ∨ index < 0) (lit "types: a variable has a depth and an index of 0 or more")
  intern o (.var depth.toNat index.toNat)

/-- The key of a path in the store's tables: the length of the module before the module, so that no
module and name make the key of another pair. -/
def path_key (module name : Bytes) : Bytes := tostring module.length ++ lit ":" ++ module ++ name

def Decl.key (d : Decl) : Bytes := path_key d.module d.name

/-- The message for a use that takes another count of arguments. -/
def takes (name : Bytes) (arity given : ℕ) : Bytes :=
  name ++ lit " takes " ++ tostring arity ++ lit " type arguments, not " ++ tostring given

/-- The store with `use` added to the uses that wait for the declaration at `key`. -/
def Store.add_use (s : Store) (key : Bytes) (use : ℕ) : Store :=
  { s with
    pending := s.pending.enter key ((s.pending key).getD [] ++ [use])
    journal := if s.transactions > 0 then s.journal ++ [.use key] else s.journal }

def named (o : Outside) (d : ℕ) (args : List ℕ) (value : Bool) : M ℕ := do
  let decl ← declared_here d
  let _ ← Raise.each owned args
  match decl.arity with
  | some arity =>
    Raise.refuse (arity ≠ args.length) (lit "types: " ++ takes decl.name arity args.length)
    intern o (.named d args value)
  | none =>
    let before ← Raise.read Store.count
    let made ← intern o (.named d args value)
    -- checked when the declaration says how many it takes
    if made = before + 1 then
      Raise.change (·.add_use decl.key made)
    return made

/-- What `Store.fn` builds a function type from. -/
structure FnSpec where
  tparams : List (Option ℕ) := []
  params : List (Param ℕ) := []
  rest : Option ℕ := none
  /-- Absent, the function answers nothing. -/
  rets : Option (List (Alt ℕ)) := none

/-- The alternative as the store keeps it, or nothing where it has a `never` in it and is no
list. -/
def normal_alt (alt : Alt ℕ) : M (Option (Alt ℕ)) :=
  match alt.narrows with
  | some narrows => do
      owned narrows.to_
      Raise.refuse (narrows.param < 1) (lit "types: a narrowing declaration names a parameter from 1")
      return some ⟨if narrows.asserts then [] else [atom_of .boolean], none, some narrows⟩
  | none => do
      -- an item after a `never` is not looked at
      let before := alt.items.takeWhile (· ≠ atom_of .never)
      let _ ← Raise.each owned before
      if before ≠ alt.items then
        owned (atom_of .never)
        return none
      let _ ← Raise.each owned alt.tail.toList
      return some ⟨alt.items, alt.tail.filter (· ≠ atom_of .never), none⟩

/-- The alternatives in the order of their texts, each once. -/
def order_alts (keyed : List (Bytes × Alt ℕ)) : List (Alt ℕ) :=
  ((keyed.insertionSort (fun a b => a.1 ≤ b.1)).destutter (fun a b => a.1 ≠ b.1)).map Prod.snd

def fn (o : Outside) (spec : FnSpec) : M ℕ := do
  let _ ← Raise.each (bound_ok o) spec.tparams.reduceOption
  let params ← Raise.each (fun (p : Param ℕ) => do
    owned p.type
    if p.omittable then
      let t ← optional o p.type
      return (⟨t, true⟩ : Param ℕ)
    return p) spec.params
  let _ ← Raise.each owned spec.rest.toList
  let given := spec.rets.getD [{}]
  let keyed ← Raise.each (fun (alt : Alt ℕ) => do
    match alt.narrows with
    | some narrows =>
      Raise.refuse (given.length > 1) (lit "types: a narrowing declaration is the whole return list")
      Raise.refuse (narrows.param > params.length)
        (lit "types: a narrowing declaration names parameter " ++ tostring narrows.param ++
          lit " of " ++ tostring params.length)
    | none => Raise.answer ()
    let normal ← normal_alt alt
    Raise.read fun s => normal.map (fun alt => (render_alt s.digest_text alt, alt))) given
  let rets := order_alts keyed.reduceOption
  let form : Form ℕ := .fn spec.tparams params spec.rest rets
  -- its own variables, which may be anywhere in it, name a parameter it has
  let why ← Raise.read fun s =>
    if spec.tparams = [] then none
    else form.parts.findSome? (fun t => unbound s spec.tparams.length (t + 1) 0 t)
  match why with
  | some why => error why
  | none => intern o form

/-! ## Declarations -/

def PRIMITIVE_NAMES : List Bytes := ATOMS.map Atom.text ++ [lit "thread"]

/-- Whether `s` is a name as the lexer reads one. -/
def is_name : Bytes → Bool
  | [] => false
  | b :: s => (isAlpha b || b == 95) && s.all isWord

/-- Whether `s` can name a declaration or a type parameter: a name the lexer does not reserve. -/
def is_binding_name (s : Bytes) : Bool := is_name s && !Lexer.words.contains s

/-- `string.format("%q", s)` -/
def quoted : Bytes → Bytes
  | [] => []
  | b :: s =>
    (if b == 34 || b == 92 || b == 10 then [92, b]
      else if isControl b then
        if (s.head?).any isDigit then 92 :: three_digits b.toNat else 92 :: tostring b.toNat
      else [b]) ++ quoted s

def declaration_name (module : Bytes) (names : List Bytes) : M Bytes := do
  Raise.refuse (module = [] ∨ utf8_valid module.length module = false)
    (lit "types: a declaration is in a module whose name is UTF-8 and not empty")
  Raise.refuse (names = []) (lit "types: a declaration has a name")
  match names with
  | [n] =>
    Raise.refuse (n ∈ PRIMITIVE_NAMES) (lit "types: " ++ n ++ lit " is a primitive type, which no declaration takes")
  | _ => Raise.answer ()
  let _ ← Raise.each (fun n => Raise.refuse (is_binding_name n = false)
    (lit "types: a declaration's name is a name the lexer reads and does not reserve, not \"" ++
      quoted n ++ lit "\"")) names
  return concat (lit ".") names

/-- The store with what `f` makes of the declaration `d`. -/
def Store.set_decl (s : Store) (d : ℕ) (f : Decl → Decl) : Store := { s with decls := s.decls.modify (d - 1) f }

/-- Notes what the declaration `d` is before a decode changes it, so that a failed decode can take
it back. -/
def Store.note (s : Store) (d : ℕ) (decl : Decl) : Store :=
  { s with
    journal := if s.transactions > 0 then s.journal ++ [.decl d decl.arity] else s.journal }

/-- How many arguments a use has. -/
def Store.use_args (s : Store) (use : ℕ) : ℕ :=
  match s.form use with
  | some (.named _ args _) => args.length
  | _ => 0

/-- Raises where a use that waits for the declaration takes other than `arity` arguments. -/
def check_uses (decl : Decl) (arity : ℕ) : M Unit := do
  let wrong ← Raise.read fun s =>
    (((s.pending decl.key).getD []).map s.use_args).find? (· ≠ arity)
  match wrong with
  | some given => error (takes decl.name arity given)
  | none => Raise.answer ()

/-- Records on the declaration `d` how many type arguments a use takes. -/
def set_arity (d : ℕ) (decl : Decl) (arity : ℕ) : M Unit :=
  match decl.arity with
  | some held =>
    Raise.refuse (held ≠ arity) (lit "types: " ++ takes decl.name held arity)
  | none => do
      check_uses decl arity
      Raise.change fun s => (s.note d decl).set_decl d fun decl => { decl with arity := some arity }

/-- The store with a new declaration, at the path `key`. -/
def Store.add_decl (s : Store) (key : Bytes) (decl : Decl) : Store :=
  { s with
    decls := s.decls ++ [decl]
    declared := s.declared.enter key (s.decls.length + 1)
    list := s.list ++ [s.decls.length + 1] }

def declare (kind : DeclKind) (module : Bytes) (names : List Bytes) (arity : Option ℤ) : M ℕ := do
  Raise.refuse (arity.any (· < 0)) (lit "types: a declaration takes a count of type arguments of 0 or more")
  let arity := arity.map Int.toNat
  let name ← declaration_name module names
  let key := path_key module name
  let found ← Raise.read (·.declared key)
  match found with
  | some d => do
      let decl ← declared_here d
      Raise.refuse (decl.kind ≠ kind) (lit "types: " ++ module ++ lit " " ++ name ++ lit " is declared as a " ++
          decl.kind.text ++ lit ", not a " ++ kind.text)
      match arity with
      | some arity => set_arity d decl arity
      | none => Raise.answer ()
      return d
  | none =>
    Raise.change (·.add_decl key { kind, module, names, name, text := quote module ++ lit " " ++ quote name, arity })
    Raise.read (·.decls.length)

/-- The declarations of the named types among `supers`. -/
def named_decls (s : Store) (supers : List ℕ) : List ℕ :=
  supers.filterMap fun t =>
    match s.form t with
    | some (.named d _ _) => some d
    | _ => none

/-- The declarations the declaration `d` lists. -/
def Store.lists (s : Store) (d : ℕ) : List ℕ :=
  match (s.decl d).bind Decl.body with
  | some body => named_decls s body.supers
  | none => []

/-- Where `listing_cycle` is: the declarations seen, and those to look at, the last first. -/
structure Listing where
  seen : List ℕ
  stack : List ℕ

def listing_round (s : Store) (decl : ℕ) (l : Listing) : Option (Round Listing (Option ℕ)) :=
  match l.stack with
  | [] => some (.done none)
  | d :: stack =>
    if d = decl then some (.done (some decl))
    else if d ∈ l.seen then some (.next ⟨l.seen, stack⟩)
    else if decl ∈ s.lists d then some (.done (some d))
    else some (.next ⟨d :: l.seen, (s.lists d).reverse ++ stack⟩)

/-- The declaration that lists `decl` among the declarations `supers` and what those list, or
none. Each declaration is looked into once. -/
def listing_cycle (s : Store) (decl : ℕ) (supers : List ℕ) : Option ℕ :=
  let fuel := (((List.range (s.decls.length + 1)).map fun d => (s.lists d).length + 1).sum + supers.length + 1)
  ((loop (listing_round s decl) fuel ⟨[], (named_decls s supers).reverse⟩).getD none)

/-- The types a body is made of, in the order they are checked. -/
def Body.roots (body : Body) : List ℕ :=
  body.tparams.filterMap DeclParam.bound ++ body.supers ++ body.fields.map Field.type ++
    body.array.toList ++ body.methods.map Method.type ++ body.alias_.toList

/-- A body whose sections beside `values` and `alias_` are all empty. -/
def Body.bare (body : Body) : Bool :=
  body.tparams.isEmpty && body.supers.isEmpty && body.fields.isEmpty && body.methods.isEmpty && body.array.isNone

/-- Raises where the sections of the body do not suit the kind of the declaration. -/
def check_kind (decl : Decl) (body : Body) : M Unit := do
  let is_enum := decl.kind == .enum
  let is_alias := decl.kind == .alias_
  Raise.refuse (is_enum ∧ ¬body.bare) (lit "types: an enum holds values and nothing else")
  Raise.refuse (is_alias ∧ (¬body.bare ∨ body.values ≠ [] ∨ body.alias_ = none))
    (lit "types: an alias holds the type it names and nothing else")
  Raise.refuse (¬is_alias ∧ body.alias_ ≠ none) (lit "types: only an alias names a type")
  Raise.refuse (¬is_enum ∧ body.values ≠ []) (lit "types: only an enum holds values")

/-- The first value that stands twice among `values`. -/
def twice (seen : List Bytes) : List Bytes → Option Bytes
  | [] => none
  | v :: values => if v ∈ seen then some v else twice (v :: seen) values

/-- Raises where a variable of `root` names a type parameter that the declaration, the only binder
around it, lacks. -/
def check_root (o : Outside) (decl : Decl) (count root : ℕ) : M Unit := do
  let s ← Raise.read id
  Raise.refuse ((s.cell root).any (·.open_ > 1)) (lit "types: " ++ o.display s root ++ lit " in " ++ decl.name ++
      lit " names a variable of no binder")
  match unbound s count (root + 1) 0 root with
  | some why => error (why ++ lit " in " ++ decl.name)
  | none => Raise.answer ()

/-- `body` as the store keeps it, with an omittable field typed `T?`. Raises where it does not suit
the declaration `d`, or lists `d` itself. -/
def normal_body (o : Outside) (d : ℕ) (decl : Decl) (body : Body) : M Body := do
  check_kind decl body
  let _ ← Raise.each (fun (tp : DeclParam) => do
    let _ ← Raise.each (bound_ok o) tp.bound.toList
    Raise.refuse (is_binding_name tp.name = false)
      (lit "types: a type parameter's name is a name the lexer reads and does not reserve," ++
        lit " not \"" ++ quoted tp.name ++ lit "\"")) body.tparams
  let _ ← Raise.each (fun super => do
    owned super
    let form ← Raise.read (·.form super)
    match form with
    | some (.named _ _ _) => Raise.answer ()
    | _ => error (lit "a declaration lists named types after `is`")) body.supers
  let s ← Raise.read id
  match listing_cycle s d body.supers with
  | some through =>
    error (decl.name ++ lit " lists itself" ++
      if through ≠ d then lit ", through " ++ ((s.decl through).map Decl.name).getD [] else [])
  | none => Raise.answer ()
  let fields ← Raise.each (fun (field : Field) => do
    owned field.type
    if field.omittable then
      let t ← optional o field.type
      return { field with type := t }
    return field) body.fields
  let _ ← Raise.each owned body.array.toList
  let _ ← Raise.each (fun (method : Method) => do
    owned method.type
    let form ← Raise.read (·.form method.type)
    match form with
    | some (.fn _ _ _ _) => Raise.answer ()
    | _ => error (lit "a method is a function")
    Raise.refuse (is_name method.name = false)
      (lit "types: a method's name is a name the lexer reads, not \"" ++ quoted method.name ++ lit "\"")) body.methods
  let _ ← Raise.each owned body.alias_.toList
  match twice [] body.values with
  | some v => error (lit "the enum " ++ decl.name ++ lit " lists " ++ v ++ lit " twice")
  | none => Raise.answer ()
  let made := { body with fields }
  let _ ← Raise.each (check_root o decl made.tparams.length) made.roots
  return made

/-- The store with the uses that waited for the declaration taken from `pending`. -/
def Store.settle (s : Store) (key : Bytes) : Store :=
  match s.pending key with
  | none => s
  | some list =>
    { s with
      pending := s.pending.clear key
      journal := if s.transactions > 0 then s.journal ++ [.pending key list] else s.journal }

/-- Gives the declaration `d`, which has no body, the `body`, after checking the uses made of the
declaration before it knew its parameters. -/
def give_body (d : ℕ) (decl : Decl) (body : Body) : M Unit := do
  let arity := body.tparams.length
  match decl.arity with
  | some held =>
    Raise.refuse (held ≠ arity) (lit "types: " ++ takes decl.name held arity)
  | none => Raise.answer ()
  check_uses decl arity
  Raise.change fun s => ((s.settle decl.key).note d decl).set_decl d
    fun decl => { decl with arity := some arity, body := some body }

def define (o : Outside) (d : ℕ) (body : Body) : M ℕ := do
  let decl ← declared_here d
  Raise.refuse decl.body.isSome (lit "types: " ++ decl.name ++ lit " has a body already")
  let made ← normal_body o d decl body
  give_body d decl made
  return d

/-! ## Forgetting -/

/-- Whether the type of the form names one of `decls` or is made of one of the types `gone`. -/
def names_dead (decls gone : List ℕ) (form : Form ℕ) : Bool :=
  (match form with
    | .named d _ _ => decls.contains d
    | _ => false) || form.parts.any (gone.contains ·)

/-- The types that name one of `decls`: a type is made after its parts, so one pass in the order of
the ids finds every one. -/
def forgotten (s : Store) (decls : List ℕ) : List ℕ :=
  (List.range' (ATOMS.length + 1) (s.count - ATOMS.length)).foldl (fun gone t =>
    match s.cell t with
    | some c => if !c.dead && names_dead decls gone c.form then gone ++ [t] else gone
    | none => gone) []

/-- The store with the type `t` dead and no longer in its table. -/
def Store.kill_type (s : Store) (t : ℕ) : Store :=
  match s.form t with
  | none => s
  | some form =>
    { s with
      interned := s.interned.clear (s.key_of form)
      types := s.types.modify (t - 1) fun c => { c with dead := true } }

/-- The store with the declaration `d` dead and no longer in its tables. -/
def Store.kill_decl (s : Store) (d : ℕ) : Store :=
  match s.decl d with
  | none => s
  | some decl =>
    { s.set_decl d fun decl => { decl with dead := true } with
      declared := s.declared.clear decl.key
      pending := s.pending.clear decl.key
      list := s.list.filter (· ≠ d) }

/-- Takes `decls` out of the store, with every type that names one. -/
def forget (decls : List ℕ) : M Unit := do
  let transactions ← Raise.read Store.transactions
  Raise.refuse (transactions > 0) (lit "types: a decode is open")
  let _ ← Raise.each declared_here decls
  Raise.change fun s =>
    let gone := forgotten s decls
    let s := { s with dead := s.dead + gone.length }
    let s := gone.foldl Store.kill_type s
    (s.list.filter (decls.contains ·)).foldl Store.kill_decl s

/-! ## Encoding -/

/-- `encode_text`: the canonical text of a type that nests `levels` at most. -/
def encode_text (s : Store) : ℕ → ℕ → Bytes
  | 0, _ => []
  | levels + 1, t =>
    match s.form t with
    | some form => render s.decl_text (encode_text s levels) form
    | none => []

/-- `Types.encode`: the text of `t`, which is refused where it would be too large. -/
def encode (o : Outside) (t : ℕ) : M Bytes := do
  let s ← Raise.read id
  let weight := ((s.cell t).map Cell.weight).getD 0
  Raise.refuse (weight > TEXT_LIMIT)
    (lit "types: the text of " ++ o.display s t ++ lit " is too large, " ++ tostring weight ++ lit " types")
  return encode_text s (t + 1) t

/-- `(opt T)` for an omittable slot, or `T`. -/
def slot_text (o : Outside) (type : ℕ) (omittable : Bool) : M Bytes := do
  let text ← encode o type
  return render_slot text omittable

/-- The text of `decl` with the body `body`. -/
def declaration_text (o : Outside) (decl : Decl) (body : Body) : M Bytes := do
  let tparams ← Raise.each (fun (tp : DeclParam) => do
    let bound ← Raise.each (encode o) tp.bound.toList
    return lit " (tparam " ++ quote tp.name ++ bound.flatMap (lit " " ++ ·) ++ lit ")") body.tparams
  let supers ← Raise.each (encode o) body.supers
  let fields ← Raise.each (fun (field : Field) => do
    let slot ← slot_text o field.type field.omittable
    return lit " (field " ++ quote field.name ++ (if field.mutable then lit " mut " else lit " ") ++
      slot ++ lit ")") body.fields
  let array ← Raise.each (encode o) body.array.toList
  let methods ← Raise.each (fun (method : Method) => do
    let text ← encode o method.type
    return lit " (method " ++ quote method.name ++ lit " " ++ text ++ lit ")") body.methods
  let named ← Raise.each (encode o) body.alias_.toList
  return lit "(decl " ++ decl.kind.text ++ lit " " ++ decl.text ++
    lit " (tparams" ++ tparams.flatten ++ lit ") (supers" ++ supers.flatMap (lit " " ++ ·) ++
    lit ") (fields" ++ fields.flatten ++ lit ") (elements" ++ array.flatMap (lit " " ++ ·) ++
    lit ") (methods" ++ methods.flatten ++ lit ") (values" ++
    body.values.flatMap (fun v => lit " " ++ quote v) ++ lit ")" ++
    named.flatMap (fun text => lit " (alias " ++ text ++ lit ")") ++ lit ")"

/-- `Types.encode_declaration` -/
def encode_declaration (o : Outside) (d : ℕ) : M Bytes := do
  let decl ← Raise.read (·.decl d)
  match decl with
  | none => error (lit "no declaration")
  | some decl =>
    match decl.body with
    | none => error (decl.name ++ lit " has no body")
    | some body => declaration_text o decl body

/-- `Types.new` -/
def new (o : Outside) : Store :=
  { count := ATOMS.length
    types := ATOMS.map fun tag => { form := .atom tag, digest := o.hash tag.text }
    interned := fun key => (ATOMS.find? (fun tag => tag.text = key)).map atom_of }

end Cosmic.Types
