/-
`cosmic/web/session/init.tl`: a request's session.

A request works on a copy of the session that it loads when it first touches it, and notes what it
changed. The cookie's attributes and the response's headers are left out: they say nothing of what
is stored. A value is what it spells, so that a table a handler changes after it gave it to `set`
is not followed.
-/
import Cosmic.Base.Raise
import Cosmic.Base.Table
import Cosmic.Base.Text

set_option autoImplicit false

namespace Cosmic.Session

open Cosmic.Base

/-- `Json.Value` -/
inductive Value where
  | null
  | boolean (b : Bool)
  | integer (n : ℤ)
  | number (bits : UInt64)
  | string (s : Bytes)
  | array (items : List Value)
  | object (members : List (Bytes × Value))

abbrev Values : Type := Table Bytes Value

/-- What the session uses of `Json`. -/
structure Json where
  /-- The text of a value that nests so deep at most, or so deep as `Json` lets it by default. -/
  encode : Value → Option ℕ → Except Bytes Bytes
  /-- The members of the object that a text holds, which nests so deep at most, `null` read as
  `Json.null`. -/
  decode_object : Bytes → ℕ → Except Bytes (List (Bytes × Value))

/-- What a session holds, as a store keeps it. -/
structure Data where
  values : Values
  created : ℤ
  expires : ℤ

/-- What a request changed, for a store that merges. -/
structure Changes where
  set : Values
  removed : List Bytes
  cleared : Bool
  regenerated : Bool
  subject : Option Bytes

structure Flash where
  kind : Bytes
  text : Bytes
deriving DecidableEq

def MAX_DEPTH : ℕ := 16

def CSRF_KEY : Bytes := lit "_csrf"

def FLASH : Bytes := lit "_flash"

def MAX_FLASHES : ℕ := 10

def MAX_FLASH_BYTES : ℕ := 500

/-- What one request has read and changed of its session. -/
structure State where
  /-- The token in the request's cookie. -/
  sent : Option Bytes
  rolling : Bool
  max_age : ℤ
  now : ℤ
  loaded : Bool
  accessed : Bool
  frozen : Bool
  /-- Whether the request came with a valid session. -/
  valid : Bool
  /-- The token the request came with and that is still the session's. -/
  token : Bytes
  bad_cookie : Bool
  data : Data
  changes : Changes
  /-- Whether the session is to be saved. -/
  dirty : Bool
  invalidated : Bool
  /-- Tokens to revoke when the response is built. -/
  doomed : List Bytes

/-- A fresh anonymous session. -/
def blank (now max_age : ℤ) : Data := ⟨∅, now, now + max_age⟩

def nothing : Changes := ⟨∅, [], false, false, none⟩

/-- The state of a request as the middleware makes it. -/
def State.start (sent : Option Bytes) (rolling : Bool) (max_age now : ℤ) : State :=
  { sent, rolling, max_age, now
    loaded := false
    accessed := false
    frozen := false
    valid := false
    token := []
    bad_cookie := false
    data := blank now max_age
    changes := nothing
    dirty := false
    invalidated := false
    doomed := [] }

abbrev M (α : Type) : Type := Raise State Bytes α

/-- `error("session: ..", 0)` -/
def error {α : Type} (message : Bytes) : M α := Raise.raise (lit "session: " ++ message)

section

variable (json : Json) (load : Bytes → ℤ → Except Bytes (Option Data))

/-- Reads the session from the cookie, once. -/
def ensure : M Unit := do
  Raise.change fun st => { st with accessed := true }
  let st ← Raise.read id
  if st.loaded then Raise.answer ()
  else do
    Raise.change fun st => { st with loaded := true, data := blank st.now st.max_age }
    match st.sent with
    | none => Raise.answer ()
    | some token =>
      if token = [] then Raise.answer ()
      else
        match load token st.now with
        | .error why => error why
        | .ok none => Raise.change fun st => { st with bad_cookie := true }
        | .ok (some data) =>
          Raise.change fun st => { st with valid := true, token := token, data := data }

/-- Raises where the session may not be written. -/
def writable : M Unit := do
  let frozen ← Raise.read State.frozen
  if frozen then
    error (lit "written after the response head was built; set it before returning the response")
  else ensure load

def Changes.remove (c : Changes) (key : Bytes) : Changes :=
  { c with set := c.set.erase key, removed := c.removed.filter (· ≠ key) ++ [key] }

def Changes.put (c : Changes) (key : Bytes) (value : Value) : Changes :=
  { c with set := c.set.insert key value, removed := c.removed.filter (· ≠ key) }

/-- The state with `value` kept at `key`. -/
def State.put (st : State) (key : Bytes) (value : Value) : State :=
  { st with
    data := { st.data with values := st.data.values.insert key value }
    changes := st.changes.put key value
    dirty := true }

/-- The state with `key` removed: nothing is noted of a key that the copy lacks. -/
def State.remove (st : State) (key : Bytes) : State :=
  match st.data.values.lookup key with
  | none => st
  | some _ =>
    { st with
      data := { st.data with values := st.data.values.erase key }
      changes := st.changes.remove key
      dirty := true }

def delete_value (key : Bytes) : M Unit := do
  writable load
  Raise.change fun st => st.remove key

def set_value (key : Bytes) (value : Option Value) : M Unit := do
  writable load
  if key = [] then error (lit "a key is a non-empty string")
  else if key = FLASH then error (FLASH ++ lit " is reserved; use flash()")
  else
    match value with
    | none => delete_value load key
    | some value =>
      -- the value sits inside the object of values, one level down
      match json.encode value (some (MAX_DEPTH - 1)) with
      | .error why => error (lit "cannot keep " ++ key ++ lit ": " ++ why)
      | .ok _ => Raise.change fun st => st.put key value

/-- How many of the bytes of the text up to `stop` end on a character. -/
def cut_stop (text : Bytes) : ℕ → ℕ
  | 0 => 0
  | stop + 1 =>
    match text[stop + 1]? with
    | some b => if b < 0x80 ∨ 0xC0 ≤ b then stop + 1 else cut_stop text stop
    | none => stop + 1

/-- The longest prefix of `text` of at most `limit` bytes that ends on a character. -/
def cut (text : Bytes) (limit : ℕ) : Bytes :=
  if text.length ≤ limit then text else text.take (cut_stop text limit)

/-- `Json.to_array` -/
def to_array : Value → Option (List Value)
  | .array items => some items
  | _ => none

/-- `Json.to_object` -/
def to_object : Value → Option (List (Bytes × Value))
  | .object members => some members
  | _ => none

def flashes_of (values : Values) : List (List (Bytes × Value)) :=
  (((values.lookup FLASH).bind to_array).getD []).filterMap to_object

/-- The messages with one more, the oldest gone where there are too many. -/
def flash_list (values : Values) (kind text : Bytes) : Value :=
  let list := flashes_of values ++ [[(lit "kind", .string kind), (lit "text", .string (cut text MAX_FLASH_BYTES))]]
  .array ((list.drop (list.length - MAX_FLASHES)).map .object)

def flash (kind text : Bytes) : M Unit := do
  writable load
  if kind = [] then error (lit "a flash is a kind and a text, both strings")
  else
    match json.encode (.object [(lit "kind", .string kind), (lit "text", .string text)]) none with
    | .error why => error (lit "cannot flash that: " ++ why)
    | .ok _ => Raise.change fun st => st.put FLASH (flash_list st.data.values kind text)

/-- The member `key` of an object, where it is a string. -/
def string_member (members : List (Bytes × Value)) (key : Bytes) : Option Bytes :=
  match members.lookup key with
  | some (.string s) => some s
  | _ => none

def flash_of (members : List (Bytes × Value)) : Option Flash :=
  match string_member members (lit "kind"), string_member members (lit "text") with
  | some kind, some text => some ⟨kind, text⟩
  | _, _ => none

def take_flashes : M (List Flash) := do
  ensure load
  let st ← Raise.read id
  match st.data.values.lookup FLASH with
  | none => return []
  | some _ =>
    writable load
    delete_value load FLASH
    return (flashes_of st.data.values).filterMap flash_of

/-- The state with every value removed. -/
def State.clear (st : State) : State :=
  if st.data.values.isEmpty ∧ st.valid = false then st
  else
    { st with
      data := { st.data with values := ∅ }
      changes := ⟨∅, [], true, st.changes.regenerated, st.changes.subject⟩
      dirty := true }

def clear : M Unit := do
  writable load
  Raise.change State.clear

/-- The state with a new id and lifetime to be given. -/
def State.renew (st : State) : State :=
  { st with
    changes := { st.changes with regenerated := true }
    data := { st.data with created := st.now, expires := st.now + st.max_age }
    dirty := true }

def regenerate : M Unit := do
  writable load
  delete_value load CSRF_KEY
  Raise.change State.renew

/-- The state of an empty anonymous session, what was there to be revoked. -/
def State.drop (st : State) : State :=
  { st with
    doomed := if st.token ≠ [] then st.doomed ++ [st.token] else st.doomed
    token := []
    valid := false
    bad_cookie := false
    data := blank st.now st.max_age
    changes := nothing
    dirty := false
    invalidated := true }

def invalidate : M Unit := do
  writable load
  Raise.change State.drop

/-- The store revokes, so a subject is kept. -/
def bind_subject (subject : Bytes) : M Unit := do
  writable load
  if subject = [] then error (lit "a subject is a non-empty string")
  else
    Raise.change fun st =>
      { st with changes := { st.changes with subject := some subject }, dirty := true }

/-! ## The handle -/

/-- The calls of a handle. -/
inductive Op where
  | get (key : Bytes)
  | get_string (key : Bytes)
  | get_integer (key : Bytes)
  | get_boolean (key : Bytes)
  | set (key : Bytes) (value : Option Value)
  | delete (key : Bytes)
  | pop (key : Bytes)
  | clear
  | regenerate
  | invalidate
  | flash (kind text : Bytes)
  | take_flashes
  | is_new
  | id
  | bind_subject (subject : Bytes)

inductive Answer where
  | value (v : Option Value)
  | string (s : Option Bytes)
  | integer (n : Option ℤ)
  | boolean (b : Option Bool)
  | flashes (list : List Flash)
  | flag (b : Bool)
  | text (s : Bytes)
  | done

/-- Reads the session, and of it what `f` makes. -/
def reading (f : State → Answer) : M Answer := do
  ensure load
  Raise.read f

/-- One call of the handle. -/
def exec : Op → M Answer
  | .get key => reading load fun st => .value (st.data.values.lookup key)
  | .get_string key => reading load fun st =>
    .string (match st.data.values.lookup key with
      | some (.string s) => some s
      | _ => none)
  | .get_integer key => reading load fun st =>
    .integer (match st.data.values.lookup key with
      | some (.integer n) => some n
      | _ => none)
  | .get_boolean key => reading load fun st =>
    .boolean (match st.data.values.lookup key with
      | some (.boolean b) => some b
      | _ => none)
  | .set key value => do
      set_value json load key value
      return .done
  | .delete key => do
      delete_value load key
      return .done
  | .pop key => do
      writable load
      let value ← Raise.read fun st => st.data.values.lookup key
      delete_value load key
      return .value value
  | .clear => do
      clear load
      return .done
  | .regenerate => do
      regenerate load
      return .done
  | .invalidate => do
      invalidate load
      return .done
  | .flash kind text => do
      flash json load kind text
      return .done
  | .take_flashes => do
      let list ← take_flashes load
      return .flashes list
  | .is_new => reading load fun st => .flag (!st.valid)
  | .id => reading load fun st => .text st.token
  | .bind_subject subject => do
      bind_subject load subject
      return .done

end

/-! ## When the response is built -/

/-- The state with the lifetime renewed, where the session is only read and less than half of its
lifetime is left. -/
def State.rolled (st : State) : State :=
  if st.dirty = false ∧ st.rolling = true ∧ st.valid = true ∧ st.data.expires - st.now < st.max_age / 2 then
    { st with data := { st.data with expires := st.now + st.max_age }, dirty := true }
  else st

/-!
`cosmic/web/session/sqlite.tl`: sessions in a table of a database.

Each query is one transaction: a save finds the session's row, merges what the request changed
with it and writes it, and where it fails the table is as it was. The table is of rows by the hash
of their ids.
-/

structure Row where
  data : Bytes
  subject : Option Bytes
  created : ℤ
  touched : ℤ
  expires : ℤ

abbrev Rows : Type := Table Bytes Row

/-- The parts of the program that the store uses: `Json`, the hash of an id, and what an id's text
spells. -/
structure Outside where
  json : Json
  sha256 : Bytes → Bytes
  unbase64url : Bytes → Option Bytes

def ID_CHARS : ℕ := 43

def members_of (values : Values) : List (Bytes × Value) := values.entries.map fun e => (e.1, e.2)

def table_of (members : List (Bytes × Value)) : Values := members.foldl (fun out m => out.insert m.1 m.2) ∅

section

variable (o : Outside)

/-- Whether `token` can be an id the store made. -/
def is_id (token : Bytes) : Bool := token.length = ID_CHARS && (o.unbase64url token).isSome

/-- The row for `token` that has not expired. -/
def find (rows : Rows) (token : Bytes) (now : ℤ) : Option Row :=
  if is_id o token then (rows.lookup (o.sha256 token)).filter (now < ·.expires) else none

/-- The values a row's JSON holds; none for a text that is not an object. -/
def values_of (text : Bytes) : Option Values :=
  match o.json.decode_object text MAX_DEPTH with
  | .ok members => some (table_of members)
  | .error _ => none

def load_session (rows : Rows) (token : Bytes) (now : ℤ) : Option Data := do
  let row ← find o rows token now
  let values ← values_of o row.data
  return ⟨values, row.created, row.expires⟩

/-- Applies `changes` to `values`. -/
def apply (values : Values) (changes : Changes) : Values :=
  changes.removed.foldl (fun out key => out.erase key) (changes.set.entries.foldl (fun out e => out.insert e.1 e.2)
      (if changes.cleared then ∅ else values))

/-- Keeps what a request changed of the session of the id `previous`, under a new `id` where the
session is to take one, and answers the id and the table. -/
def save_session (rows : Rows) (previous : Bytes) (data : Data) (changes : Changes) (now : ℤ)
    (id : Bytes) : Except Bytes (Bytes × Rows) :=
  let row := find o rows previous now
  -- a session revoked meanwhile is not revived with what the request saw
  let base := (row.bind fun row => values_of o row.data).getD ∅
  let subject := changes.subject.or (row.bind Row.subject)
  match o.json.encode (.object (members_of (apply base changes))) (some MAX_DEPTH) with
  | .error why => .error (lit "sessions: cannot encode the session: " ++ why)
  | .ok text =>
    match row, changes.regenerated with
    | some row, false =>
      .ok (previous, rows.insert (o.sha256 previous)
        { row with data := text, subject := subject, touched := now, expires := data.expires })
    | row, _ =>
      let rows := if row.isSome then rows.erase (o.sha256 previous) else rows
      if o.sha256 id ∈ rows then .error (lit "sessions: UNIQUE constraint failed")
      else .ok (id, rows.insert (o.sha256 id) ⟨text, subject, data.created, now, data.expires⟩)

/-- Revokes `token`. -/
def destroy_session (rows : Rows) (token : Bytes) : Rows :=
  if is_id o token then rows.erase (o.sha256 token) else rows

/-- Revokes every session bound to `subject`. -/
def destroy_subject (rows : Rows) (subject : Bytes) : Rows :=
  rows.eraseAll (rows.keys.filter fun key => (rows.lookup key).any (·.subject = some subject))

/-- Deletes those of `keys` that expired at or before `now`. (The store picks as many as it sweeps
at once.) -/
def delete_expired (rows : Rows) (now : ℤ) (keys : List Bytes) : Rows :=
  rows.eraseAll (keys.filter fun key => (rows.lookup key).any (·.expires ≤ now))

end

end Cosmic.Session
