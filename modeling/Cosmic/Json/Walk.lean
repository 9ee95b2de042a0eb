/-
The walks over a document: `push_value`, which builds a Lua value of it, and `first_problem`, which
builds nothing.

Each answers the first thing decode refuses in the order the text holds them: an array or object
nested too deep, or a key twice. A repeated key is looked for in three ways, by how many members an
object has.
-/
import Cosmic.Base.Probe
import Cosmic.Json.Value

set_option autoImplicit false

namespace Cosmic.Json

open Cosmic.Base Bool

/-! ## Keys -/

/-- The most members whose keys are compared pair by pair. -/
def FEW_MEMBERS : ℕ := 8

/-- The most members whose keys are found through a set on the C stack. -/
def SET_MEMBERS : ℕ := 64

def key_hash (s : Bytes) : ℕ := s.foldl (fun h b => (h ^^^ b.toNat) * 16777619 % 2 ^ 32) 2166136261

/-- How many slots the set of `count` keys has: a power of two, twice as many as keys or more. -/
def set_slots (count : ℕ) : ℕ → ℕ → ℕ
  | 0, slots => slots
  | n + 1, slots => if slots < 2 * count then set_slots count n (slots * 2) else slots

/-- The loop over the keys, the first `idx` of them in `set`. -/
def set_loop (slots : ℕ) : ℕ → Entries ℕ Bytes → List Bytes → Option ℕ
  | idx, _, [] => some idx
  | idx, set, s :: keys =>
    match probe slots set s slots (key_hash s % slots) with
    | none => none
    | some .holds => some idx
    | some (.free i) => set_loop slots (idx + 1) (set.enter i s) keys

/-- The index of the first key that an earlier one is, or how many there are, found through a set. -/
def repeated_in_set (keys : List Bytes) : ℕ :=
  let slots := set_slots keys.length keys.length 4
  (set_loop slots 0 Entries.none_entered keys).getD keys.length

/-- The same, each key compared with every earlier one. -/
def repeated_pair : List Bytes → List Bytes → ℕ
  | earlier, [] => earlier.length
  | earlier, s :: keys => if earlier.contains s then earlier.length else repeated_pair (earlier ++ [s]) keys

/-- The index of the first key, of SET_MEMBERS at most, that an earlier one is, or how many there are. -/
def repeated_member (keys : List Bytes) : ℕ :=
  if keys.length > FEW_MEMBERS then repeated_in_set keys else repeated_pair [] keys

/-- The same of any number of keys: many go through a Lua table. -/
def repeated_table : Entries Bytes Unit → ℕ → List Bytes → ℕ
  | _, idx, [] => idx
  | t, idx, s :: keys => if (t s).isSome then idx else repeated_table (t.enter s ()) (idx + 1) keys

def repeated_key_index (keys : List Bytes) : ℕ :=
  if keys.length ≤ SET_MEMBERS then repeated_member keys else repeated_table Entries.none_entered 0 keys

def keys (members : List (Key × Val)) : List Bytes := members.map fun m => m.1.text

/-! ## Lua values -/

/-- What marks a table: the metatable it has. -/
inductive Mark where
  | none
  | array
  | array_with_holes
deriving DecidableEq

inductive LuaKey where
  | string (s : Bytes)
  | integer (n : ℤ)
deriving DecidableEq

/-- A Lua value that decode builds. A table holds nothing under a key that is not in it. -/
inductive Lua where
  | nil
  | boolean (b : Bool)
  | integer (n : ℤ)
  | float (f : Double)
  | string (s : Bytes)
  | null
  | lightuserdata
  | table (mark : Mark) (entries : List (LuaKey × Lua))

def Lua.is_nil : Lua → Bool
  | .nil => true
  | _ => false

/-- `lua_rawget` -/
def rawget : List (LuaKey × Lua) → LuaKey → Lua
  | [], _ => .nil
  | (k', v) :: t, k => if k' = k then v else rawget t k

/-- A table's entries with `v` under `k`, where it stood before or at the end. -/
def put_entry : List (LuaKey × Lua) → LuaKey → Lua → List (LuaKey × Lua)
  | [], k, v => [(k, v)]
  | (k', v') :: t, k, v => if k' = k then (k, v) :: t else (k', v') :: put_entry t k v

/-- `lua_rawset` -/
def rawset (t : List (LuaKey × Lua)) (k : LuaKey) (v : Lua) : List (LuaKey × Lua) :=
  if v.is_nil then t.filter fun e => e.1 ≠ k else put_entry t k v

/-! ## What is found -/

/-- What makes a document that read cleanly one decode refuses. -/
inductive Problem where
  | repeated_key
  | too_deep
deriving DecidableEq

/-- A problem, where it is, and of a key twice, the second. -/
structure Found where
  problem : Problem
  path : Path := {}
  repeated : Option Key := none
deriving DecidableEq

def Found.at_index (found : Found) (idx : ℕ) : Found := { found with path := prepend_index found.path idx }

def Found.at_key (found : Found) (key : Key) : Found := { found with path := prepend_key found.path key.text }

def repeated_at (key : Key) : Found := { problem := .repeated_key, repeated := some key : Found }.at_key key

/-! ## Building -/

structure Decoding where
  null : Option Lua
  max_depth : ℕ
  big_as_string : Bool
  duplicate_keys : Bool

/-- A Lua number of an integer past the range of one: the nearest float, or its digits. -/
def push_uint (y : Yyjson) (d : Decoding) (u : ℕ) : Lua :=
  if u < 2 ^ 63 then .integer u
  else if d.big_as_string then .string (tostring u)
  else .float (y.of_integer u)

def push_number (y : Yyjson) (d : Decoding) : Number → Lua
  | .sint n => .integer n
  | .uint u => push_uint y d u
  | .real f => .float f

/-- The members read as `null`, once an object is built, leave their keys out. -/
def drop_nulls : List (LuaKey × Lua) → List (Key × Val) → List (LuaKey × Lua)
  | t, [] => t
  | t, (key, .null) :: ms => drop_nulls (rawset t (.string key.text) .nil) ms
  | t, _ :: ms => drop_nulls t ms

mutual

/-- `val` as a Lua value, or what decode refuses in it, `depth` arrays and objects being open. -/
def push_value (y : Yyjson) (d : Decoding) (depth : ℕ) : Val → Except Found Lua
  | .bool b => .ok (.boolean b)
  | .num n => .ok (push_number y d n)
  | .raw text => .ok (.string text)
  | .str s => .ok (.string s)
  | .arr items =>
    if depth ≥ d.max_depth then .error { problem := .too_deep }
    else (push_items y d depth 0 [] items).map (.table .array)
  | .obj members =>
    if depth ≥ d.max_depth then .error { problem := .too_deep }
    else
      let count := members.length
      let few := decide (count ≤ SET_MEMBERS)
      let repeat_ := if !d.duplicate_keys && few then repeated_member (keys members) else count
      let check := !d.duplicate_keys && !few
      (push_members y d depth repeat_ check 0 [] members).map fun t =>
        .table .none (if check && d.null.isNone then drop_nulls t members else t)
  | .null => .ok (d.null.getD .nil)

/-- The elements from `idx` on, into the table `t`. -/
def push_items (y : Yyjson) (d : Decoding) (depth : ℕ) :
    ℕ → List (LuaKey × Lua) → List Val → Except Found (List (LuaKey × Lua))
  | _, t, [] => .ok t
  | idx, t, item :: items =>
    match push_value y d (depth + 1) item with
    | .error found => .error (found.at_index idx)
    | .ok v => push_items y d depth (idx + 1) (rawset t (.integer (idx + 1)) v) items

/-- The members from `idx` on, into the table `t`. -/
def push_members (y : Yyjson) (d : Decoding) (depth repeat_ : ℕ) (check : Bool) :
    ℕ → List (LuaKey × Lua) → List (Key × Val) → Except Found (List (LuaKey × Lua))
  | _, t, [] => .ok t
  | idx, t, (key, item) :: members =>
    if idx = repeat_ then .error (repeated_at key)
    else if check && !(rawget t (.string key.text)).is_nil then .error (repeated_at key)
    else
      match push_value y d (depth + 1) item with
      | .error found => .error (found.at_key key)
      | .ok v =>
        -- a nil would leave the key out, and a key twice after it unseen
        let v := if check && v.is_nil then .lightuserdata else v
        push_members y d depth repeat_ check (idx + 1) (rawset t (.string key.text) v) members

end

/-! ## Walking -/

mutual

/-- The first problem in `val` that `push_value` would find, in the same order. -/
def first_problem (max_depth : ℕ) (duplicate_keys : Bool) (depth : ℕ) : Val → Option Found
  | .arr items =>
    if depth ≥ max_depth then some { problem := .too_deep }
    else first_problem_items max_depth duplicate_keys depth 0 items
  | .obj members =>
    if depth ≥ max_depth then some { problem := .too_deep }
    else
      let repeat_ := if duplicate_keys then members.length else repeated_key_index (keys members)
      first_problem_members max_depth duplicate_keys depth repeat_ 0 members
  | _ => none

def first_problem_items (max_depth : ℕ) (duplicate_keys : Bool) (depth : ℕ) : ℕ → List Val → Option Found
  | _, [] => none
  | idx, item :: items =>
    match first_problem max_depth duplicate_keys (depth + 1) item with
    | some found => some (found.at_index idx)
    | none => first_problem_items max_depth duplicate_keys depth (idx + 1) items

def first_problem_members (max_depth : ℕ) (duplicate_keys : Bool) (depth repeat_ : ℕ) :
    ℕ → List (Key × Val) → Option Found
  | _, [] => none
  | idx, (key, item) :: members =>
    if idx = repeat_ then some (repeated_at key)
    else
      match first_problem max_depth duplicate_keys (depth + 1) item with
      | some found => some (found.at_key key)
      | none => first_problem_members max_depth duplicate_keys depth repeat_ (idx + 1) members

end

/-!
The two walks find the same first problem, and the three ways to look for a repeated key the same
key.
-/

/-! ## Repeated keys -/

theorem set_slots_ge (count : ℕ) : ∀ n slots, 2 * count ≤ slots * 2 ^ n → 2 * count ≤ set_slots count n slots
  | 0, slots, h => by rwa [pow_zero, Nat.mul_one] at h
  | n + 1, slots, h => by
      rw [set_slots]
      split_ifs with hlt
      · exact set_slots_ge count n (slots * 2) (by rwa [pow_succ', ← Nat.mul_assoc] at h)
      · exact Nat.le_of_not_lt hlt

theorem set_slots_mono (count : ℕ) : ∀ n slots, slots ≤ set_slots count n slots
  | 0, _ => le_rfl
  | n + 1, slots => by
      rw [set_slots]
      split_ifs
      · exact le_trans (by omega) (set_slots_mono count n (slots * 2))
      · exact le_rfl

theorem set_slots_lt (count : ℕ) : count < set_slots count count 4 := by
  have hge := set_slots_ge count count 4 (by
    have hpow : count < 2 ^ count := Nat.lt_two_pow_self
    omega)
  have hfour := set_slots_mono count count 4
  omega

theorem set_loop_eq {slots : ℕ} (hs : List Bytes) : ∀ {set : Entries ℕ Bytes} {earlier : List Bytes},
    Probed key_hash slots set earlier → earlier.length + hs.length < slots →
      set_loop slots earlier.length set hs = some (repeated_pair earlier hs) := by
  induction hs with
  | nil =>
    intro set earlier _ _
    rfl
  | cons s hs ih =>
    intro set earlier hp hlt
    rw [List.length_cons] at hlt
    by_cases hmem : s ∈ earlier
    · rw [set_loop, hp.probe_mem hmem, repeated_pair, if_pos (List.contains_iff_mem.mpr hmem)]
    · obtain ⟨k, hk, hprobe, hfree, hfull⟩ := hp.probe_not_mem (by omega) hmem
      have hnext := ih (hp.enter hk hfree hfull) (by rw [List.length_append, List.length_singleton]; omega)
      rw [List.length_append, List.length_singleton] at hnext
      rwa [set_loop, hprobe, repeated_pair, if_neg (fun h => hmem (List.contains_iff_mem.mp h))]

theorem repeated_in_set_eq (hs : List Bytes) : repeated_in_set hs = repeated_pair [] hs := by
  have hloop := set_loop_eq hs (probed_nil key_hash (set_slots hs.length hs.length 4))
    (by simpa using set_slots_lt hs.length)
  unfold repeated_in_set
  rw [List.length_nil] at hloop
  dsimp only
  rw [hloop, Option.getD_some]

theorem repeated_member_eq (hs : List Bytes) : repeated_member hs = repeated_pair [] hs := by
  unfold repeated_member
  split_ifs
  · exact repeated_in_set_eq hs
  · rfl

theorem repeated_table_eq (hs : List Bytes) : ∀ {t : Entries Bytes Unit} {earlier : List Bytes},
    (∀ s, (t s).isSome = true ↔ s ∈ earlier) → repeated_table t earlier.length hs = repeated_pair earlier hs := by
  induction hs with
  | nil =>
    intro t earlier _
    rfl
  | cons s hs ih =>
    intro t earlier ht
    by_cases hmem : s ∈ earlier
    · rw [repeated_table, if_pos ((ht s).mpr hmem), repeated_pair, if_pos (List.contains_iff_mem.mpr hmem)]
    have hgrown : ∀ s', (t.enter s () s').isSome = true ↔ s' ∈ earlier ++ [s] := by
      intro s'
      rw [List.mem_append, List.mem_singleton, ← ht s']
      by_cases heq : s' = s
      · subst heq
        simp
      · rw [Entries.enter_ne heq]
        simp [heq]
    have hnext := ih hgrown
    rw [List.length_append, List.length_singleton] at hnext
    rw [repeated_table, if_neg (fun h => hmem ((ht s).mp h)), repeated_pair,
      if_neg (fun h => hmem (List.contains_iff_mem.mp h))]
    exact hnext

theorem repeated_key_index_eq (hs : List Bytes) : repeated_key_index hs = repeated_pair [] hs := by
  unfold repeated_key_index
  split_ifs
  · exact repeated_member_eq hs
  · have hnone : ∀ s, ((Entries.none_entered : Entries Bytes Unit) s).isSome = true ↔ s ∈ ([] : List Bytes) := by
      intro s
      simp [Entries.none_entered]
    have htable := repeated_table_eq hs hnone
    rwa [List.length_nil] at htable

theorem repeated_pair_ge (hs : List Bytes) : ∀ earlier : List Bytes, earlier.length ≤ repeated_pair earlier hs := by
  induction hs with
  | nil =>
    intro earlier
    exact le_rfl
  | cons s hs ih =>
    intro earlier
    rw [repeated_pair]
    split_ifs
    · exact le_rfl
    · have hnext := ih (earlier ++ [s])
      rw [List.length_append, List.length_singleton] at hnext
      omega

theorem repeated_pair_cons (earlier : List Bytes) (s : Bytes) (hs : List Bytes) :
    earlier.length = repeated_pair earlier (s :: hs) ↔ s ∈ earlier := by
  rw [repeated_pair]
  split_ifs with h
  · exact iff_of_true rfl (List.contains_iff_mem.mp h)
  · have hge := repeated_pair_ge hs (earlier ++ [s])
    rw [List.length_append, List.length_singleton] at hge
    exact iff_of_false (by omega) (fun hmem => h (List.contains_iff_mem.mpr hmem))

/-! ## Tables -/

theorem rawget_put_entry (k k' : LuaKey) (v : Lua) : ∀ t : List (LuaKey × Lua),
    rawget (put_entry t k v) k' = if k' = k then v else rawget t k'
  | [] => by
      rw [put_entry, rawget]
      exact if_congr eq_comm rfl rfl
  | (k₁, v₁) :: t => by
      rw [put_entry]
      split_ifs with h₁ h₂
      · rw [rawget, if_pos h₂.symm]
      · rw [rawget, if_neg (fun h => h₂ h.symm), rawget, if_neg (fun h => h₂ (by rw [← h₁, h]))]
      · subst_vars
        rw [rawget, if_neg h₁, rawget_put_entry k' k' v t, if_pos rfl]
      · rename_i h₂
        rw [rawget, rawget, rawget_put_entry k k' v t, if_neg h₂]

theorem rawget_rawset {v : Lua} (h : v.is_nil = false) (t : List (LuaKey × Lua)) (k k' : LuaKey) :
    rawget (rawset t k v) k' = if k' = k then v else rawget t k' := by
  rw [rawset, h, if_neg Bool.false_ne_true, rawget_put_entry]

/-! ## The walks -/

/-- What a build found, if it found anything. -/
def found_of {α : Type} : Except Found α → Option Found
  | .error found => some found
  | .ok _ => none

@[simp] theorem found_of_ok {α : Type} (x : α) : found_of (.ok x : Except Found α) = none := rfl

@[simp] theorem found_of_error {α : Type} (found : Found) :
    found_of (.error found : Except Found α) = some found := rfl

theorem found_of_map {α β : Type} (f : α → β) (r : Except Found α) : found_of (r.map f) = found_of r := by
  rcases r with found | x
  · rfl
  · rfl

variable {y : Yyjson} {d : Decoding}

/-- A table under whose string keys something stands exactly for the keys met. -/
def Met (t : List (LuaKey × Lua)) (earlier : List Bytes) : Prop :=
  ∀ s, (rawget t (.string s)).is_nil = false ↔ s ∈ earlier

theorem Met.nil : Met [] [] := fun s => by simp [rawget, Lua.is_nil]

theorem Met.rawset {t : List (LuaKey × Lua)} {earlier : List Bytes} (h : Met t earlier) {v : Lua}
    (hv : v.is_nil = false) (s : Bytes) : Met (rawset t (.string s) v) (earlier ++ [s]) := by
  intro s'
  rw [rawget_rawset hv, List.mem_append, List.mem_singleton]
  by_cases heq : s' = s
  · rw [if_pos (congrArg LuaKey.string heq)]
    exact iff_of_true hv (.inr heq)
  · rw [if_neg (fun h => heq (LuaKey.string.inj h)), h s']
    simp [heq]

mutual

theorem first_problem_eq (depth : ℕ) : ∀ v : Val,
    first_problem d.max_depth d.duplicate_keys depth v = found_of (push_value y d depth v)
  | .null => by rw [first_problem, push_value]; rfl; nofun; nofun
  | .bool b => by rw [first_problem, push_value]; rfl; nofun; nofun
  | .num n => by rw [first_problem, push_value]; rfl; nofun; nofun
  | .raw s => by rw [first_problem, push_value]; rfl; nofun; nofun
  | .str s => by rw [first_problem, push_value]; rfl; nofun; nofun
  | .arr items => by
      rw [first_problem, push_value]
      by_cases hdepth : depth ≥ d.max_depth
      · rw [if_pos hdepth, if_pos hdepth]
        rfl
      · rw [if_neg hdepth, if_neg hdepth, found_of_map]
        exact first_problem_items_eq depth 0 [] items
  | .obj members => by
      rw [first_problem, push_value]
      by_cases hdepth : depth ≥ d.max_depth
      · rw [if_pos hdepth, if_pos hdepth]
        rfl
      rw [if_neg hdepth, if_neg hdepth, found_of_map]
      by_cases hdup : d.duplicate_keys = true
      · have hall := first_problem_members_eq depth members.length 0 [] members
        rw [hdup] at hall ⊢
        exact hall
      rw [not_eq_true] at hdup
      by_cases hfew : members.length ≤ SET_MEMBERS
      · have hall := first_problem_members_eq depth (repeated_pair [] (keys members)) 0 [] members
        rw [hdup] at hall ⊢
        rw [repeated_key_index_eq, repeated_member_eq]
        simpa [hfew] using hall
      · have hall := first_problem_checked_eq depth members.length [] [] members .nil (by simp)
        rw [hdup] at hall ⊢
        rw [repeated_key_index_eq]
        simpa [hfew] using hall

theorem first_problem_items_eq (depth : ℕ) : ∀ (idx : ℕ) (t : List (LuaKey × Lua)) (items : List Val),
    first_problem_items d.max_depth d.duplicate_keys depth idx items = found_of (push_items y d depth idx t items)
  | idx, t, [] => by rw [first_problem_items, push_items]; rfl
  | idx, t, item :: items => by
      rw [first_problem_items, push_items, first_problem_eq (depth + 1) item]
      rcases push_value y d (depth + 1) item with found | v
      · rfl
      · exact first_problem_items_eq depth (idx + 1) _ items

theorem first_problem_members_eq (depth repeat_ : ℕ) :
    ∀ (idx : ℕ) (t : List (LuaKey × Lua)) (members : List (Key × Val)),
      first_problem_members d.max_depth d.duplicate_keys depth repeat_ idx members =
        found_of (push_members y d depth repeat_ false idx t members)
  | idx, t, [] => by rw [first_problem_members, push_members]; rfl
  | idx, t, (key, item) :: members => by
      rw [first_problem_members, push_members, first_problem_eq (depth + 1) item]
      by_cases hidx : idx = repeat_
      · rw [if_pos hidx, if_pos hidx]
        rfl
      · rw [if_neg hidx, if_neg hidx, if_neg (by simp)]
        rcases push_value y d (depth + 1) item with found | v
        · rfl
        · exact first_problem_members_eq depth repeat_ (idx + 1) _ members

theorem first_problem_checked_eq (depth count : ℕ) :
    ∀ (t : List (LuaKey × Lua)) (earlier : List Bytes) (members : List (Key × Val)), Met t earlier →
      earlier.length + members.length = count →
        first_problem_members d.max_depth d.duplicate_keys depth (repeated_pair earlier (keys members))
            earlier.length members =
          found_of (push_members y d depth count true earlier.length t members)
  | t, earlier, [], _, _ => by rw [first_problem_members, push_members]; rfl
  | t, earlier, (key, item) :: members, hmet, hcount => by
      rw [List.length_cons] at hcount
      have hkeys : keys ((key, item) :: members) = key.text :: keys members := rfl
      rw [first_problem_members, push_members, first_problem_eq (depth + 1) item, hkeys]
      rw [if_neg (show ¬earlier.length = count by omega)]
      by_cases hmem : key.text ∈ earlier
      · rw [if_pos ((repeated_pair_cons _ _ _).mpr hmem), if_pos (by simp [(hmet _).mpr hmem])]
        rfl
      have hnil : (rawget t (.string key.text)).is_nil = true := by
        rw [← not_eq_false]
        exact fun h => hmem ((hmet _).mp h)
      rw [if_neg (fun h => hmem ((repeated_pair_cons _ _ _).mp h)), if_neg (by simp [hnil])]
      rcases push_value y d (depth + 1) item with found | v
      · rfl
      have hheld : ((if true && v.is_nil then Lua.lightuserdata else v)).is_nil = false := by
        rcases hv : v.is_nil with _ | _
        · simpa using hv
        · rfl
      have hnext := first_problem_checked_eq depth count _ _ members (hmet.rawset hheld key.text)
        (by rw [List.length_append, List.length_singleton]; omega)
      rw [List.length_append, List.length_singleton] at hnext
      rwa [repeated_pair, if_neg (fun h => hmem (List.contains_iff_mem.mp h))]

end

/-!
What a walk that finds nothing says of a document: no array or object is nested too deep, and, unless
a key may stand twice, each object's keys are different.
-/

mutual

/-- Nothing in `val` is refused, `depth` arrays and objects being open. -/
def Clear (max_depth : ℕ) (duplicate_keys : Bool) (depth : ℕ) : Val → Prop
  | .arr items => depth < max_depth ∧ ClearItems max_depth duplicate_keys (depth + 1) items
  | .obj members =>
    depth < max_depth ∧ (duplicate_keys = false → (keys members).Nodup) ∧
      ClearMembers max_depth duplicate_keys (depth + 1) members
  | _ => True

def ClearItems (max_depth : ℕ) (duplicate_keys : Bool) (depth : ℕ) : List Val → Prop
  | [] => True
  | item :: items => Clear max_depth duplicate_keys depth item ∧ ClearItems max_depth duplicate_keys depth items

def ClearMembers (max_depth : ℕ) (duplicate_keys : Bool) (depth : ℕ) : List (Key × Val) → Prop
  | [] => True
  | (_, item) :: members =>
    Clear max_depth duplicate_keys depth item ∧ ClearMembers max_depth duplicate_keys depth members

end

variable {max_depth : ℕ} {duplicate_keys : Bool}

theorem clearItems_iff {depth : ℕ} (items : List Val) :
    ClearItems max_depth duplicate_keys depth items ↔ ∀ item ∈ items, Clear max_depth duplicate_keys depth item := by
  induction items with
  | nil => simp [ClearItems]
  | cons item items ih => rw [ClearItems, ih, List.forall_mem_cons]

theorem clearMembers_iff {depth : ℕ} (members : List (Key × Val)) :
    ClearMembers max_depth duplicate_keys depth members ↔
      ∀ m ∈ members, Clear max_depth duplicate_keys depth m.2 := by
  induction members with
  | nil => simp [ClearMembers]
  | cons m members ih => rw [ClearMembers, ih, List.forall_mem_cons]

theorem repeated_pair_none (hs : List Bytes) : ∀ earlier : List Bytes,
    repeated_pair earlier hs = earlier.length + hs.length ↔ hs.Nodup ∧ ∀ s ∈ hs, s ∉ earlier := by
  induction hs with
  | nil => intro earlier; simp [repeated_pair]
  | cons s hs ih =>
    intro earlier
    rw [repeated_pair]
    by_cases hmem : s ∈ earlier
    · rw [if_pos (List.contains_iff_mem.mpr hmem), List.length_cons]
      exact iff_of_false (by omega) fun h => h.2 s (List.mem_cons_self ..) hmem
    have hnext := ih (earlier ++ [s])
    rw [List.length_append, List.length_singleton] at hnext
    rw [if_neg (fun h => hmem (List.contains_iff_mem.mp h)), List.length_cons,
      show earlier.length + (hs.length + 1) = earlier.length + 1 + hs.length by omega, hnext, List.nodup_cons]
    constructor
    · rintro ⟨hnodup, hall⟩
      refine ⟨⟨fun hs' => hall s hs' (by simp), hnodup⟩, ?_⟩
      intro s' hs'
      rcases List.mem_cons.mp hs' with rfl | hs'
      · exact hmem
      · exact fun h => hall s' hs' (List.mem_append_left _ h)
    · rintro ⟨⟨hnot, hnodup⟩, hall⟩
      refine ⟨hnodup, fun s' hs' h => ?_⟩
      rcases List.mem_append.mp h with h | h
      · exact hall s' (List.mem_cons_of_mem _ hs') h
      · rw [List.mem_singleton.mp h] at hs'
        exact hnot hs'

theorem repeated_pair_le (hs : List Bytes) : ∀ earlier : List Bytes,
    repeated_pair earlier hs ≤ earlier.length + hs.length := by
  induction hs with
  | nil => intro earlier; exact le_rfl
  | cons s hs ih =>
    intro earlier
    have hnext := ih (earlier ++ [s])
    rw [List.length_append, List.length_singleton] at hnext
    rw [repeated_pair, List.length_cons]
    split_ifs <;> omega

theorem repeated_key_index_none (hs : List Bytes) : repeated_key_index hs = hs.length ↔ hs.Nodup := by
  have hpair := repeated_pair_none hs []
  rw [List.length_nil, Nat.zero_add] at hpair
  rw [repeated_key_index_eq, hpair]
  simp

mutual

theorem first_problem_none (depth : ℕ) : ∀ v : Val,
    first_problem max_depth duplicate_keys depth v = none ↔ Clear max_depth duplicate_keys depth v
  | .null => by simp [first_problem, Clear]
  | .bool _ => by simp [first_problem, Clear]
  | .raw _ => by simp [first_problem, Clear]
  | .num _ => by simp [first_problem, Clear]
  | .str _ => by simp [first_problem, Clear]
  | .arr items => by
      rw [first_problem, Clear]
      by_cases hdepth : depth ≥ max_depth
      · rw [if_pos hdepth]
        exact iff_of_false (by simp) fun h => absurd h.1 (by omega)
      · rw [if_neg hdepth, first_problem_items_none depth 0 items]
        exact (and_iff_right (by omega)).symm
  | .obj members => by
      rw [first_problem, Clear]
      by_cases hdepth : depth ≥ max_depth
      · rw [if_pos hdepth]
        exact iff_of_false (by simp) fun h => absurd h.1 (by omega)
      rw [if_neg hdepth]
      have hkeys : (keys members).length = members.length := List.length_map ..
      have hle : repeated_key_index (keys members) ≤ members.length := by
        have hpair := repeated_pair_le (keys members) []
        rw [List.length_nil, Nat.zero_add, hkeys] at hpair
        rwa [repeated_key_index_eq]
      have hnone := repeated_key_index_none (keys members)
      rw [first_problem_members_none depth _ 0 members]
      by_cases hdup : duplicate_keys = true
      · rw [if_pos hdup]
        constructor
        · rintro ⟨-, hclear⟩
          exact ⟨by omega, fun h => absurd hdup (by rw [h]; decide), hclear⟩
        · rintro ⟨-, -, hclear⟩
          exact ⟨.inr (by omega), hclear⟩
      · rw [if_neg hdup]
        constructor
        · rintro ⟨hindex, hclear⟩
          exact ⟨by omega, fun _ => hnone.mp (by omega), hclear⟩
        · rintro ⟨-, hnodup, hclear⟩
          rw [not_eq_true] at hdup
          exact ⟨.inr (by rw [hnone.mpr (hnodup hdup)]; omega), hclear⟩

theorem first_problem_items_none (depth idx : ℕ) : ∀ items : List Val,
    first_problem_items max_depth duplicate_keys depth idx items = none ↔
      ClearItems max_depth duplicate_keys (depth + 1) items
  | [] => by simp [first_problem_items, ClearItems]
  | item :: items => by
      have hitem := first_problem_none (depth + 1) item
      rw [first_problem_items, ClearItems, ← hitem]
      rcases first_problem max_depth duplicate_keys (depth + 1) item with _ | found
      · simp [first_problem_items_none depth (idx + 1) items]
      · simp

theorem first_problem_members_none (depth repeat_ idx : ℕ) : ∀ members : List (Key × Val),
    first_problem_members max_depth duplicate_keys depth repeat_ idx members = none ↔
      (repeat_ < idx ∨ idx + members.length ≤ repeat_) ∧ ClearMembers max_depth duplicate_keys (depth + 1) members
  | [] => by
      rw [first_problem_members, ClearMembers, List.length_nil]
      exact iff_of_true rfl ⟨by omega, trivial⟩
  | (_, item) :: members => by
      have hitem := first_problem_none (depth + 1) item
      rw [first_problem_members, ClearMembers, ← hitem, List.length_cons]
      by_cases hidx : idx = repeat_
      · rw [if_pos hidx]
        exact iff_of_false (by simp) fun h => by omega
      rw [if_neg hidx]
      rcases first_problem max_depth duplicate_keys (depth + 1) item with _ | found
      · have hmembers := first_problem_members_none depth repeat_ (idx + 1) members
        constructor
        · intro h
          have hrest := hmembers.mp h
          exact ⟨by omega, rfl, hrest.2⟩
        · rintro ⟨hindex, -, hclear⟩
          exact hmembers.mpr ⟨by omega, hclear⟩
      · simp

end

mutual

theorem Clear.mono {max_depth' depth depth' : ℕ} (h : depth' + max_depth ≤ depth + max_depth') : ∀ {v : Val},
    Clear max_depth duplicate_keys depth v → Clear max_depth' duplicate_keys depth' v
  | .null, _ => by simp [Clear]
  | .bool _, _ => by simp [Clear]
  | .raw _, _ => by simp [Clear]
  | .num _, _ => by simp [Clear]
  | .str _, _ => by simp [Clear]
  | .arr items, hclear => by
      rw [Clear] at hclear ⊢
      exact ⟨by omega, ClearItems.mono (by omega) hclear.2⟩
  | .obj members, hclear => by
      rw [Clear] at hclear ⊢
      exact ⟨by omega, hclear.2.1, ClearMembers.mono (by omega) hclear.2.2⟩

theorem ClearItems.mono {max_depth' depth depth' : ℕ} (h : depth' + max_depth ≤ depth + max_depth') :
    ∀ {items : List Val},
      ClearItems max_depth duplicate_keys depth items → ClearItems max_depth' duplicate_keys depth' items
  | [], _ => by simp [ClearItems]
  | _ :: _, hclear => by
      rw [ClearItems] at hclear ⊢
      exact ⟨Clear.mono h hclear.1, ClearItems.mono h hclear.2⟩

theorem ClearMembers.mono {max_depth' depth depth' : ℕ} (h : depth' + max_depth ≤ depth + max_depth') :
    ∀ {members : List (Key × Val)},
      ClearMembers max_depth duplicate_keys depth members → ClearMembers max_depth' duplicate_keys depth' members
  | [], _ => by simp [ClearMembers]
  | (_, _) :: _, hclear => by
      rw [ClearMembers] at hclear ⊢
      exact ⟨Clear.mono h hclear.1, ClearMembers.mono h hclear.2⟩

end

end Cosmic.Json
