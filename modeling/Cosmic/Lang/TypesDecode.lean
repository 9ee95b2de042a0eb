/-
`lang/types.tl`: decoding, which either makes what a text spells or leaves the store as it was.

Reading goes through a state of the store and the place in the text. A loader is any program that
works on the store through its operations: what it does next may depend on what it was answered
and on all it sees of the store. `readers n` reads text that nests `n` types at most, and what a
loader asks for while `n` levels are left is read with those levels.
-/
import Cosmic.Lang.Types

set_option autoImplicit false

namespace Cosmic.Types

open Cosmic.Base

/-! ## The text being read -/

/-- The store, and the place in the text. -/
structure Reading where
  store : Store
  at_ : ℕ

abbrev R (α : Type) : Type := Raise Reading Bytes α

/-- What a program does to the store, while reading. -/
def on_store {α : Type} (m : M α) : R α := fun r =>
  match m r.store with
  | .ok a s => .ok a { r with store := s }
  | .raised e s => .raised e { r with store := s }

/-- Reads a text of its own from its start. -/
def reading {α : Type} (m : R α) : M α := fun s =>
  match m ⟨s, 1⟩ with
  | .ok a r => .ok a r.store
  | .raised e r => .raised e r.store

def fail {α : Type} (message : Bytes) : R α := fun r =>
  .raised (lit "types: " ++ message ++ lit " (at byte " ++ tostring r.at_ ++ lit ")") r

def move (to_ : ℕ) : R Unit := Raise.change fun r => { r with at_ := to_ }

/-- `[%w_%.]` -/
def isAtom (b : UInt8) : Bool := isWord b || b == 46

/-- What comes next: a parenthesis, a quote, an atom or the end. -/
inductive Next where
  | lparen
  | rparen
  | quote
  | atom
  | ends
  deriving DecidableEq

section

variable (text : Bytes)

/-- The first position from `i` on that is no space. -/
def after_space (i : ℕ) : ℕ := (find (fun b => !isSpace b) text i).getD (text.length + 1)

def skip : R Unit := Raise.change fun r => { r with at_ := after_space text r.at_ }

def peek : R Next := do
  skip text
  Raise.read fun r =>
    match byte text r.at_ with
    | none => Next.ends
    | some b => if b == 40 then .lparen else if b == 41 then .rparen else if b == 34 then .quote
        else .atom

def open_ : R Unit := do
  let c ← peek text
  if c ≠ .lparen then fail (lit "a ( was expected")
  else Raise.change fun r => { r with at_ := r.at_ + 1 }

def close : R Unit := do
  let c ← peek text
  if c ≠ .rparen then fail (lit "a ) was expected")
  else Raise.change fun r => { r with at_ := r.at_ + 1 }

/-- The word at position `i`. -/
def word_at (i : ℕ) : Bytes := sub text i (run_end isAtom text.length text i)

def atom : R Bytes := do
  skip text
  let word ← Raise.read fun r => word_at text r.at_
  if word = [] then fail (lit "a word was expected")
  else
    Raise.change fun r => { r with at_ := r.at_ + word.length }
    return word

def integer : R ℕ := do
  let word ← atom text
  match if word.length < 10 then decimal word else none with
  | some n => return n
  | none => fail (lit "a number was expected, not " ++ word)

/-- Where `string_of` is, and what it has read. -/
structure Spelling where
  from_ : ℕ
  out : Bytes

/-- What is read of a string: its value and the position after it, or what is wrong with it. -/
inductive Spelled where
  | value (out : Bytes) (stop : ℕ)
  | wrong (message : Bytes)

def string_round (s : Spelling) : Option (Round Spelling Spelled) :=
  match find (fun b => b == 34 || b == 92) text s.from_ with
  | none => some (.done (.wrong (lit "a string is never closed")))
  | some stop =>
    let out := s.out ++ sub text s.from_ (stop - 1)
    if byte text stop = some 34 then some (.done (.value out (stop + 1)))
    else
      let digits := sub text (stop + 1) (stop + 3)
      match if digits.length = 3 then decimal digits else none with
      | none => some (.done (.wrong (lit "a string has a bad escape")))
      | some b =>
        if b > 255 then some (.done (.wrong (lit "a string has a bad escape")))
        else some (.next ⟨stop + 4, out ++ [UInt8.ofNat b]⟩)

def string_of : R Bytes := do
  let c ← peek text
  if c ≠ .quote then fail (lit "a string was expected")
  else
    let spelled ← Raise.read fun r => loop (string_round text) (text.length + 1) ⟨r.at_ + 1, []⟩
    match spelled with
    | some (.value out stop) =>
      move stop
      return out
    | some (.wrong message) => fail message
    | none => fail (lit "a string is never closed")

/-- The word after the `(` that is next, or nothing where the next is not a `(`, without reading
it. -/
def head : R Bytes := do
  skip text
  Raise.read fun r =>
    if byte text r.at_ = some 40 then word_at text (after_space text (r.at_ + 1)) else []

def expect (word : Bytes) : R Unit := do
  open_ text
  let found ← atom text
  if found ≠ word then fail (lit "(" ++ word ++ lit " was expected, not (" ++ found)

/-- Whether the word `word` is next, and no longer one. -/
def is_next (word : Bytes) : R Bool := do
  skip text
  Raise.read fun r => word_at text r.at_ == word

/-- Reads an item a round until a `)` is next. -/
def many {α : Type} (item : R α) : ℕ → R (List α)
  | 0 => fail (lit "a ) was expected")
  | rounds + 1 => do
      let c ← peek text
      if c = .rparen then return []
      let a ← item
      let as ← many item rounds
      return a :: as

/-- The items up to the next `)`. Each takes a byte at least. -/
def items {α : Type} (item : R α) : R (List α) := many text item (text.length + 1)

/-- One more level of nesting, which fails where there are too many. -/
def descend : R Unit := do
  Raise.change fun r => { r with store := { r.store with depth := r.store.depth + 1 } }
  let depth ← Raise.read fun r => r.store.depth
  if depth > MAX_DEPTH then fail (lit "text nests deeper than " ++ tostring MAX_DEPTH)

def ascend : R Unit := Raise.change fun r => { r with store := { r.store with depth := r.store.depth - 1 } }

/-- Fails unless the text is UTF-8, which the text of every module and name is. -/
def check_utf8 : R Unit :=
  if utf8_valid text.length text = false then fail (lit "text is not UTF-8")
  else Raise.answer ()

/-- Fails where text is left. -/
def check_end (what : Bytes) : R Unit := do
  skip text
  let at_ ← Raise.read Reading.at_
  if at_ ≤ text.length then fail (lit "text follows the " ++ what)

end

/-! ## Taking back -/

/-- What a decode starts from, to return to if it fails. -/
structure Mark where
  count : ℕ
  decls : ℕ
  journal : ℕ
  building : ℕ
  depth : ℕ
  /-- How many declarations were made. Those made since are taken back, and nothing left in the
  store refers to one. -/
  made : ℕ

def Store.mark (s : Store) : Mark :=
  ⟨s.count, s.list.length, s.journal.length, s.building_order.length, s.depth, s.decls.length⟩

/-- Takes back one entry of the journal. -/
def Store.undo (s : Store) : Undo → Store
  | .decl d arity => s.set_decl d fun decl => { decl with body := none, arity := arity }
  | .use key =>
    match s.pending key with
    | none => s
    | some uses =>
      if uses.dropLast = [] then { s with pending := s.pending.clear key }
      else { s with pending := s.pending.enter key uses.dropLast }
  | .pending key list => { s with pending := s.pending.enter key list }

/-- Takes back the declaration `d`. -/
def Store.drop_decl (s : Store) (d : ℕ) : Store :=
  match s.decl d with
  | none => s
  | some decl => { s with declared := s.declared.clear decl.key }

def Store.drop_type (s : Store) (form : Form ℕ) : Store := { s with interned := s.interned.clear (s.key_of form) }

/-- Takes back what the decode that began at `mark` added to the store, the last first. -/
def roll_back (s : Store) (mark : Mark) : Store :=
  let s := (s.journal.drop mark.journal).reverse.foldl Store.undo s
  let s := (s.list.drop mark.decls).reverse.foldl Store.drop_decl s
  let s := ((s.types.drop mark.count).map Cell.form).reverse.foldl Store.drop_type s
  { s with
    journal := s.journal.take mark.journal
    list := s.list.take mark.decls
    types := s.types.take mark.count
    count := mark.count
    building := fun path => s.building path && !(s.building_order.drop mark.building).contains path
    building_order := s.building_order.take mark.building
    depth := mark.depth
    decls := s.decls.take mark.made }

/-- Where `types: ` first stands in a message, from there on; before the message where it does
not. -/
def refusal (message : Bytes) : Bytes :=
  match index_of (lit "types: ") message with
  | some at_ => message.drop at_
  | none => lit "types: " ++ message

/-- Runs `work`, which raises to refuse, and answers what it did or the refusal; a refusal leaves
the store as it was. -/
def attempt {α : Type} (work : M α) : M (Except Bytes α) := fun s =>
  match work { s with transactions := s.transactions + 1 } with
  | .ok a s' =>
    let s' := { s' with transactions := s'.transactions - 1 }
    .ok (.ok a) (if s'.transactions = 0 then { s' with journal := [] } else s')
  | .raised e s' =>
    .ok (.error (refusal e)) (roll_back { s' with transactions := s'.transactions - 1 } s.mark)

/-! ## Operations and loaders -/

/-- The operations of a store. -/
inductive Op where
  | array (element : ℕ) (mutable : Bool)
  | map (key value : ℕ) (mutable : Bool)
  | union (members : List ℕ)
  | optional (t : ℕ)
  | non_nil (t : ℕ)
  | var (depth index : ℤ)
  | named (d : ℕ) (args : List ℕ) (value : Bool)
  | fn (spec : FnSpec)
  | declare (kind : DeclKind) (module : Bytes) (names : List Bytes) (arity : Option ℤ)
  | define (d : ℕ) (body : Body)
  | forget (decls : List ℕ)
  | decode (text : Bytes)
  | decode_declaration (text : Bytes)

inductive Answer where
  | type (t : ℕ)
  | decl (d : ℕ)
  | done
  /-- A decode that is refused, and why. -/
  | refused (why : Bytes)

/-- What a loader does: it answers the text of the declaration it was asked for, or none, or
raises, or it works on the store and goes on with what that answered or raised and with what it
then sees of the store. -/
inductive Program where
  | answer (text : Option Bytes)
  | raise (message : Bytes)
  | call (op : Op) (next : Except Bytes Answer → Store → Program)

/-- `Loader`: asked for the declaration at a path, in a store. -/
abbrev Loader : Type := Bytes → Bytes → Store → Program

/-- The readers that call each other, each reading text that nests so many types at most. -/
structure Readers where
  type : Bytes → R ℕ
  declaration : Bytes → Option (Bytes × Bytes) → M ℕ

section

variable (o : Outside) (rd : Readers)

/-- `Store.decode` -/
def decode (text : Bytes) : M (Except Bytes ℕ) :=
  attempt (reading (do
    check_utf8 text
    let t ← rd.type text
    check_end text (lit "type")
    return t))

/-- `Store.decode_declaration` -/
def decode_declaration (text : Bytes) : M (Except Bytes ℕ) := attempt (rd.declaration text none)

def answered (as : ℕ → Answer) : Except Bytes ℕ → Answer
  | .ok x => as x
  | .error why => .refused why

/-- One operation on the store. -/
def exec : Op → M Answer
  | .array element mutable => return .type (← array o element mutable)
  | .map key value mutable => return .type (← map o key value mutable)
  | .union members => return .type (← union_of o members)
  | .optional t => return .type (← optional o t)
  | .non_nil t => return .type (← non_nil o t)
  | .var depth index => return .type (← var o depth index)
  | .named d args value => return .type (← named o d args value)
  | .fn spec => return .type (← fn o spec)
  | .declare kind module names arity => return .decl (← declare kind module names arity)
  | .define d body => return .decl (← define o d body)
  | .forget decls => do
      forget decls
      return .done
  | .decode text => return answered .type (← decode rd text)
  | .decode_declaration text => return answered .decl (← decode_declaration rd text)

def run_program : Program → M (Option Bytes)
  | .answer text => Raise.answer text
  | .raise message => Raise.raise message
  | .call op next => fun s =>
    match exec o rd op s with
    | .ok a s' => run_program (next (.ok a) s') s'
    | .raised e s' => run_program (next (.error e) s') s'

/-! ## Types -/

variable (loader : Option Loader) (text : Bytes)

/-- What the loader answers for the declaration at a path; none where there is no loader. -/
def ask_loader (module name : Bytes) : R (Option Bytes) := do
  let s ← Raise.read Reading.store
  match loader with
  | some load => on_store (run_program o rd (load module name s))
  | none => return none

/-- The declaration at a path: the store's, or the loader's. -/
def resolve (module name : Bytes) : R ℕ := do
  let s ← Raise.read Reading.store
  match s.declared (path_key module name) with
  | some d =>
    -- one that is not being read has a body: a bodiless one was declared and never defined
    if ((s.decl d).bind Decl.body).isNone ∧ s.building (path_key module name) = false then
      fail (lit "the declaration " ++ module ++ lit " " ++ name ++ lit " has no body")
    else return d
  | none =>
    let answer ← ask_loader o rd loader module name
    match answer with
    | some text => on_store (rd.declaration text (some (module, name)))
    | none => fail (lit "there is no declaration " ++ module ++ lit " " ++ name)

/-- A parameter or field type, which `(opt T)` marks omittable. -/
def read_slot : R (ℕ × Bool) := do
  let word ← head text
  if word = lit "opt" then
    expect text (lit "opt")
    let t ← rd.type text
    close text
    return (t, true)
  let t ← rd.type text
  return (t, false)

def read_types : R (List ℕ) := items text (rd.type text)

/-- What is read of an alternative: an item, its tail or its narrowing declaration. -/
inductive AltItem where
  | item (t : ℕ)
  | tail (t : ℕ)
  | narrows (narrows : Narrows ℕ)

def read_alt_item : R AltItem := do
  let word ← head text
  if word = lit "..." then
    expect text (lit "...")
    let t ← rd.type text
    close text
    return .tail t
  if word = lit "is" ∨ word = lit "asserts" then
    expect text word
    let param ← integer text
    let t ← rd.type text
    close text
    return .narrows ⟨param, t, word = lit "asserts"⟩
  let t ← rd.type text
  return .item t

/-- An alternative with what is read of it next. -/
def add_item (alt : Alt ℕ) : AltItem → Alt ℕ
  | .item t => { alt with items := alt.items ++ [t] }
  | .tail t => { alt with tail := some t }
  | .narrows narrows => { alt with narrows := some narrows }

def read_alt : R (Alt ℕ) := do
  open_ text
  let read ← items text (read_alt_item rd text)
  close text
  return read.foldl add_item {}

/-- A type parameter of a function type: `_`, or its bound. -/
def read_bound : R (Option ℕ) := do
  let bare ← is_next text (lit "_")
  if bare then
    let _ ← atom text
    return none
  let t ← rd.type text
  return some t

def read_param : R (Param ℕ ⊕ ℕ) := do
  let word ← head text
  if word = lit "rest" then
    expect text (lit "rest")
    let t ← rd.type text
    close text
    return .inr t
  let (t, omittable) ← read_slot rd text
  return .inl ⟨t, omittable⟩

def read_fn : R ℕ := do
  expect text (lit "tp")
  let tparams ← items text (read_bound rd text)
  close text
  open_ text
  let params ← items text (read_param rd text)
  close text
  expect text (lit "rets")
  let rets ← items text (read_alt rd text)
  close text
  on_store (fn o
    { tparams
      params := params.filterMap Sum.getLeft?
      rest := (params.filterMap Sum.getRight?).getLast?
      rets := some rets })

def read_form (word : Bytes) : R ℕ := do
  if word = lit "array" ∨ word = lit "marray" then
    let element ← rd.type text
    on_store (array o element (word = lit "marray"))
  else if word = lit "map" ∨ word = lit "mmap" then
    let key ← rd.type text
    let value ← rd.type text
    on_store (map o key value (word = lit "mmap"))
  else if word = lit "union" then
    let members ← read_types rd text
    on_store (union_of o members)
  else if word = lit "ref" ∨ word = lit "val" then
    let module ← string_of text
    let name ← string_of text
    let d ← resolve o rd loader module name
    let args ← read_types rd text
    on_store (named o d args (word = lit "val"))
  else if word = lit "var" then
    let depth ← integer text
    let index ← integer text
    on_store (var o depth index)
  else if word = lit "fn" then
    read_fn o rd text
  else fail (lit "there is no form " ++ word)

def read_atom : R ℕ := do
  let word ← atom text
  match ATOMS.find? (fun tag => tag.text = word) with
  | some tag => return atom_of tag
  | none => fail (lit "there is no type " ++ word)

def read_parenthesised : R ℕ := do
  open_ text
  let word ← atom text
  let t ← read_form o rd loader text word
  close text
  return t

def read_type : R ℕ := do
  descend
  let c ← peek text
  let result ← match c with
    | .atom => read_atom text
    | .lparen => read_parenthesised o rd loader text
    | _ => fail (lit "a type was expected")
  ascend
  return result

/-! ## Declarations -/

def read_tparam : R DeclParam := do
  expect text (lit "tparam")
  let name ← string_of text
  let c ← peek text
  if c ≠ .rparen then
    let t ← rd.type text
    close text
    return ⟨name, some t⟩
  close text
  return ⟨name, none⟩

def read_field : R Field := do
  expect text (lit "field")
  let name ← string_of text
  let mutable ← is_next text (lit "mut")
  if mutable then
    let _ ← atom text
  let (type, omittable) ← read_slot rd text
  close text
  return { name, type, mutable, omittable }

def read_method : R Method := do
  expect text (lit "method")
  let name ← string_of text
  let type ← rd.type text
  close text
  return { name, type }

/-- What the elements of an array part are, where there is one. -/
def read_elements : R (Option ℕ) := do
  let c ← peek text
  if c = .rparen then return none
  let t ← rd.type text
  return some t

/-- The type an alias names, where there is one. -/
def read_alias : R (Option ℕ) := do
  let c ← peek text
  if c ≠ .lparen then return none
  expect text (lit "alias")
  let t ← rd.type text
  close text
  return some t

/-- The body of a declaration, whose `(decl`, kind, path and `(tparams` are read. -/
def read_body (decl : Decl) : R Body := do
  let tparams ← items text (read_tparam rd text)
  close text
  -- known before anything else in the body, which may use the declaration
  let _ ← on_store (declare decl.kind decl.module decl.names (some tparams.length))
  expect text (lit "supers")
  let supers ← read_types rd text
  close text
  expect text (lit "fields")
  let fields ← items text (read_field rd text)
  close text
  expect text (lit "elements")
  let array ← read_elements rd text
  close text
  expect text (lit "methods")
  let methods ← items text (read_method rd text)
  close text
  expect text (lit "values")
  let values ← items text (string_of text)
  close text
  let alias_ ← read_alias rd text
  return { tparams, supers, fields, array, methods, values, alias_ }

def read_field_names (name : Bytes) : List Bytes := name.splitOn 46

/-- Marks the declaration at `key` as one being read, where it is not. -/
def build (key : Bytes) : R Bool := do
  let first ← Raise.read fun r => !r.store.building key
  if first then
    Raise.change fun r => { r with store := { r.store with
      building := fun path => path == key || r.store.building path
      building_order := r.store.building_order ++ [key] } }
  return first

/-- The declaration at `key` is read. -/
def built (key : Bytes) : R Unit :=
  Raise.change fun r => { r with store := { r.store with
    building := fun path => path != key && r.store.building path
    building_order := r.store.building_order.dropLast } }

/-- Gives the declaration `d` the body read for it, or checks that it has that body. -/
def settle_body (d : ℕ) (decl : Decl) (body : Body) : R Unit := do
  let made ← on_store (normal_body o d decl body)
  let held ← Raise.read fun r => (r.store.decl d).bind Decl.body
  match held with
  | some held =>
    let new_text ← on_store (declaration_text o decl made)
    let held_text ← on_store (declaration_text o decl held)
    if new_text ≠ held_text then
      fail (lit "the text differs from the declaration " ++ decl.name ++ lit " the store holds")
  | none => do
      let now ← on_store (declared_here d)
      on_store (give_body d now made)

/-- Reads the declaration the text spells, which has the path `path` where that is given, and
defines it, or checks that the store defines it so. -/
def read_declaration (path : Option (Bytes × Bytes)) : M ℕ := reading (do
  check_utf8 text
  descend
  expect text (lit "decl")
  let kind ← atom text
  match DECL_KINDS.find? (fun k => k.text = kind) with
  | none => fail (lit "there is no declaration kind " ++ kind)
  | some decl_kind =>
    let path_module ← string_of text
    let path_name ← string_of text
    match path with
    | some (module, name) =>
      if module ≠ path_module ∨ name ≠ path_name then
        fail (lit "the declaration " ++ path_module ++ lit " " ++ path_name ++
          lit " answers for " ++ module ++ lit " " ++ name)
    | none => Raise.answer ()
    let d ← on_store (declare decl_kind path_module (read_field_names path_name) none)
    let decl ← on_store (declared_here d)
    let first ← build decl.key
    expect text (lit "tparams")
    let body ← read_body rd text decl
    close text
    check_end text (lit "declaration")
    settle_body o d decl body
    if first then built decl.key
    ascend
    return d)

end

/-! ## Levels -/

/-- The readers of text that nests `n` types at most. -/
def readers (o : Outside) (loader : Option Loader) : ℕ → Readers
  | 0 =>
    { type := fun _ => do
        descend
        fail (lit "text nests deeper than " ++ tostring MAX_DEPTH)
      declaration := fun text _ => reading (do
        check_utf8 text
        descend
        fail (lit "text nests deeper than " ++ tostring MAX_DEPTH)) }
  | n + 1 =>
    { type := read_type o (readers o loader n) loader
      declaration := fun text path => read_declaration o (readers o loader n) text path }

/-- One operation of the program that holds the store. -/
def step (o : Outside) (loader : Option Loader) (op : Op) : M Answer := exec o (readers o loader MAX_DEPTH) op

end Cosmic.Types
