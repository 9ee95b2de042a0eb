/-
What a document holds below its arrays and objects: its scalars, the keys of its objects among them,
and the document that another reading of each scalar makes.

The two walks refuse a document for its shape alone, and it is written exactly when each of its scalars
is; so a fact about a whole document comes down to one about each scalar.
-/
import Cosmic.Json.FormatRead

set_option autoImplicit false

namespace Cosmic.Json

open Cosmic.Base List

mutual

/-- A value with what `f` makes of each scalar, wherever its keys stand. -/
def Val.over (f : Val → Val) : Val → Val
  | .null => f .null
  | .bool b => f (.bool b)
  | .raw text => f (.raw text)
  | .num n => f (.num n)
  | .str s => f (.str s)
  | .arr items => .arr (over_items f items)
  | .obj members => .obj (over_members f members)

def over_items (f : Val → Val) : List Val → List Val
  | [] => []
  | v :: vs => v.over f :: over_items f vs

def over_members (f : Val → Val) : List (Key × Val) → List (Key × Val)
  | [] => []
  | (key, v) :: ms => (⟨0, key.text⟩, v.over f) :: over_members f ms

end

/-- `f` makes scalars of scalars, and leaves strings as they are. -/
structure Scalar (f : Val → Val) : Prop where
  scalar : ∀ s, s.is_scalar = true → (f s).is_scalar = true
  str : ∀ s, f (.str s) = .str s

variable {f g : Val → Val}

theorem keys_over (members : List (Key × Val)) : keys (over_members f members) = keys members := by
  induction members with
  | nil => rfl
  | cons m members ih =>
    rw [over_members, keys, keys, map_cons, map_cons]
    exact congrArg _ ih

theorem scalars_of_scalar {s : Val} (h : s.is_scalar = true) : s.scalars = [s] := by
  cases s with
  | arr items => exact absurd h Bool.false_ne_true
  | obj members => exact absurd h Bool.false_ne_true
  | _ => rfl

theorem over_of_scalar {s : Val} (h : s.is_scalar = true) : s.over f = f s := by
  cases s with
  | arr items => exact absurd h Bool.false_ne_true
  | obj members => exact absurd h Bool.false_ne_true
  | _ => rfl

theorem mem_scalars_members {s : Val} (members : List (Key × Val)) :
    s ∈ scalars_members members ↔ ∃ m ∈ members, s = .str m.1.text ∨ s ∈ m.2.scalars := by
  induction members with
  | nil => simp [scalars_members]
  | cons m members ih =>
    rw [scalars_members, mem_cons, mem_append, ih, exists_mem_cons_iff, or_assoc]

mutual

theorem is_scalar_of_mem {s : Val} : ∀ {v : Val}, s ∈ v.scalars → s.is_scalar = true
  | .null, h => by rw [mem_singleton.mp h]; rfl
  | .bool _, h => by rw [mem_singleton.mp h]; rfl
  | .raw _, h => by rw [mem_singleton.mp h]; rfl
  | .num _, h => by rw [mem_singleton.mp h]; rfl
  | .str _, h => by rw [mem_singleton.mp h]; rfl
  | .arr _, h => is_scalar_of_mem_items h
  | .obj _, h => is_scalar_of_mem_members h

theorem is_scalar_of_mem_items {s : Val} : ∀ {items : List Val}, s ∈ scalars_items items → s.is_scalar = true
  | [], h => absurd h not_mem_nil
  | item :: items, h => by
      rw [scalars_items, mem_append] at h
      exact h.elim is_scalar_of_mem is_scalar_of_mem_items

theorem is_scalar_of_mem_members {s : Val} :
    ∀ {members : List (Key × Val)}, s ∈ scalars_members members → s.is_scalar = true
  | [], h => absurd h not_mem_nil
  | (key, item) :: members, h => by
      rw [scalars_members, mem_cons, mem_append] at h
      rcases h with rfl | h | h
      · rfl
      · exact is_scalar_of_mem h
      · exact is_scalar_of_mem_members h

end

mutual

theorem scalars_over (hf : Scalar f) : ∀ v : Val, (v.over f).scalars = v.scalars.map f
  | .null => scalars_of_scalar (hf.scalar _ rfl)
  | .bool _ => scalars_of_scalar (hf.scalar _ rfl)
  | .raw _ => scalars_of_scalar (hf.scalar _ rfl)
  | .num _ => scalars_of_scalar (hf.scalar _ rfl)
  | .str _ => scalars_of_scalar (hf.scalar _ rfl)
  | .arr items => by rw [Val.over, Val.scalars, Val.scalars, scalars_over_items hf items]
  | .obj members => by rw [Val.over, Val.scalars, Val.scalars, scalars_over_members hf members]

theorem scalars_over_items (hf : Scalar f) :
    ∀ items : List Val, scalars_items (over_items f items) = (scalars_items items).map f
  | [] => rfl
  | item :: items => by
      rw [over_items, scalars_items, scalars_items, map_append, scalars_over hf item, scalars_over_items hf items]

theorem scalars_over_members (hf : Scalar f) :
    ∀ members : List (Key × Val), scalars_members (over_members f members) = (scalars_members members).map f
  | [] => rfl
  | (key, item) :: members => by
      rw [over_members, scalars_members, scalars_members, map_cons, map_append, scalars_over hf item,
        scalars_over_members hf members, hf.str]

end

mutual

theorem over_over (hf : Scalar f) : ∀ v : Val, (v.over f).over g = v.over (g ∘ f)
  | .null => over_of_scalar (hf.scalar _ rfl)
  | .bool _ => over_of_scalar (hf.scalar _ rfl)
  | .raw _ => over_of_scalar (hf.scalar _ rfl)
  | .num _ => over_of_scalar (hf.scalar _ rfl)
  | .str _ => over_of_scalar (hf.scalar _ rfl)
  | .arr items => by rw [Val.over, Val.over, Val.over, over_over_items hf items]
  | .obj members => by rw [Val.over, Val.over, Val.over, over_over_members hf members]

theorem over_over_items (hf : Scalar f) :
    ∀ items : List Val, over_items g (over_items f items) = over_items (g ∘ f) items
  | [] => rfl
  | item :: items => by rw [over_items, over_items, over_items, over_over hf item, over_over_items hf items]

theorem over_over_members (hf : Scalar f) :
    ∀ members : List (Key × Val), over_members g (over_members f members) = over_members (g ∘ f) members
  | [] => rfl
  | (key, item) :: members => by
      rw [over_members, over_members, over_members, over_over hf item, over_over_members hf members]

end

mutual

theorem over_congr : ∀ v : Val, (∀ s ∈ v.scalars, f s = g s) → v.over f = v.over g
  | .null, h => h _ (mem_singleton_self _)
  | .bool _, h => h _ (mem_singleton_self _)
  | .raw _, h => h _ (mem_singleton_self _)
  | .num _, h => h _ (mem_singleton_self _)
  | .str _, h => h _ (mem_singleton_self _)
  | .arr items, h => by rw [Val.over, Val.over, over_congr_items items h]
  | .obj members, h => by rw [Val.over, Val.over, over_congr_members members h]

theorem over_congr_items : ∀ items : List Val,
    (∀ s ∈ scalars_items items, f s = g s) → over_items f items = over_items g items
  | [], _ => rfl
  | item :: items, h => by
      rw [scalars_items, forall_mem_append] at h
      rw [over_items, over_items, over_congr item h.1, over_congr_items items h.2]

theorem over_congr_members : ∀ members : List (Key × Val),
    (∀ s ∈ scalars_members members, f s = g s) → over_members f members = over_members g members
  | [], _ => rfl
  | (key, item) :: members, h => by
      rw [scalars_members, forall_mem_cons, forall_mem_append] at h
      rw [over_members, over_members, over_congr item h.2.1, over_congr_members members h.2.2]

end

mutual

theorem plain_eq_over : ∀ v : Val, v.plain = v.over id
  | .null => rfl
  | .bool _ => rfl
  | .raw _ => rfl
  | .num _ => rfl
  | .str _ => rfl
  | .arr items => by rw [Val.plain, Val.over, plain_items_eq_over items]
  | .obj members => by rw [Val.plain, Val.over, plain_members_eq_over members]

theorem plain_items_eq_over : ∀ items : List Val, plain_items items = over_items id items
  | [] => rfl
  | item :: items => by rw [plain_items, over_items, plain_eq_over item, plain_items_eq_over items]

theorem plain_members_eq_over : ∀ members : List (Key × Val), plain_members members = over_members id members
  | [] => rfl
  | (key, item) :: members => by
      rw [plain_members, over_members, plain_eq_over item, plain_members_eq_over members]

end

theorem scalar_id : Scalar id := ⟨fun _ h => h, fun _ => rfl⟩

theorem scalar_told (y : Yyjson) : Scalar (told y false) := by
  refine ⟨fun s h => ?_, fun s => rfl⟩
  cases s with
  | arr items => exact absurd h Bool.false_ne_true
  | obj members => exact absurd h Bool.false_ne_true
  | _ => rfl

mutual

theorem told_eq_over (y : Yyjson) : ∀ v : Val, told y false v = v.over (told y false)
  | .null => rfl
  | .bool _ => rfl
  | .raw _ => rfl
  | .num _ => rfl
  | .str _ => rfl
  | .arr items => by rw [told, Val.over, told_items_eq_over y items]
  | .obj members => by rw [told, Val.over, told_members_eq_over y members, if_neg Bool.false_ne_true]

theorem told_items_eq_over (y : Yyjson) :
    ∀ items : List Val, told_items y false items = over_items (told y false) items
  | [] => rfl
  | item :: items => by rw [told_items, over_items, told_eq_over y item, told_items_eq_over y items]

theorem told_members_eq_over (y : Yyjson) :
    ∀ members : List (Key × Val), told_members y false members = over_members (told y false) members
  | [] => rfl
  | (key, item) :: members => by
      rw [told_members, over_members, told_eq_over y item, told_members_eq_over y members]

end

/-! ## Shape -/

variable {max_depth : ℕ} {duplicate_keys : Bool}

theorem clear_of_scalar {s : Val} {depth : ℕ} (h : s.is_scalar = true) : Clear max_depth duplicate_keys depth s := by
  cases s with
  | arr items => exact absurd h Bool.false_ne_true
  | obj members => exact absurd h Bool.false_ne_true
  | _ => trivial

mutual

theorem clear_over (hf : Scalar f) {depth : ℕ} : ∀ v : Val,
    Clear max_depth duplicate_keys depth (v.over f) ↔ Clear max_depth duplicate_keys depth v
  | .null => iff_of_true (clear_of_scalar (hf.scalar _ rfl)) trivial
  | .bool _ => iff_of_true (clear_of_scalar (hf.scalar _ rfl)) trivial
  | .raw _ => iff_of_true (clear_of_scalar (hf.scalar _ rfl)) trivial
  | .num _ => iff_of_true (clear_of_scalar (hf.scalar _ rfl)) trivial
  | .str _ => iff_of_true (clear_of_scalar (hf.scalar _ rfl)) trivial
  | .arr items => by rw [Val.over, Clear, Clear, clear_over_items hf items]
  | .obj members => by rw [Val.over, Clear, Clear, clear_over_members hf members, keys_over]

theorem clear_over_items (hf : Scalar f) {depth : ℕ} : ∀ items : List Val,
    ClearItems max_depth duplicate_keys depth (over_items f items) ↔ ClearItems max_depth duplicate_keys depth items
  | [] => by rw [over_items]
  | item :: items => by rw [over_items, ClearItems, ClearItems, clear_over hf item, clear_over_items hf items]

theorem clear_over_members (hf : Scalar f) {depth : ℕ} : ∀ members : List (Key × Val),
    ClearMembers max_depth duplicate_keys depth (over_members f members) ↔
      ClearMembers max_depth duplicate_keys depth members
  | [] => by rw [over_members]
  | (key, item) :: members => by
      rw [over_members, ClearMembers, ClearMembers, clear_over hf item, clear_over_members hf members]

end

/-!
What decode builds of a document does not depend on where its keys stand, nor on how its scalars are
held, so long as each makes the same Lua value.
-/

mutual

/-- A value with what `f` makes of each scalar and `k` of each key. -/
def Val.remake (k : Key → Key) (f : Val → Val) : Val → Val
  | .null => f .null
  | .bool b => f (.bool b)
  | .raw text => f (.raw text)
  | .num n => f (.num n)
  | .str s => f (.str s)
  | .arr items => .arr (remake_items k f items)
  | .obj members => .obj (remake_members k f members)

def remake_items (k : Key → Key) (f : Val → Val) : List Val → List Val
  | [] => []
  | v :: vs => v.remake k f :: remake_items k f vs

def remake_members (k : Key → Key) (f : Val → Val) : List (Key × Val) → List (Key × Val)
  | [] => []
  | (key, v) :: ms => (k key, v.remake k f) :: remake_members k f ms

end

def Key.plain (key : Key) : Key := ⟨0, key.text⟩

mutual

theorem remake_plain (f : Val → Val) : ∀ v : Val, v.remake Key.plain f = v.over f
  | .null => rfl
  | .bool _ => rfl
  | .raw _ => rfl
  | .num _ => rfl
  | .str _ => rfl
  | .arr items => by rw [Val.remake, Val.over, remake_plain_items f items]
  | .obj members => by rw [Val.remake, Val.over, remake_plain_members f members]

theorem remake_plain_items (f : Val → Val) : ∀ items : List Val, remake_items Key.plain f items = over_items f items
  | [] => rfl
  | item :: items => by rw [remake_items, over_items, remake_plain f item, remake_plain_items f items]

theorem remake_plain_members (f : Val → Val) :
    ∀ members : List (Key × Val), remake_members Key.plain f members = over_members f members
  | [] => rfl
  | (key, item) :: members => by
      rw [remake_members, over_members, remake_plain f item, remake_plain_members f members]
      rfl

end

mutual

theorem remake_id : ∀ v : Val, v.remake id id = v
  | .null => rfl
  | .bool _ => rfl
  | .raw _ => rfl
  | .num _ => rfl
  | .str _ => rfl
  | .arr items => by rw [Val.remake, remake_id_items items]
  | .obj members => by rw [Val.remake, remake_id_members members]

theorem remake_id_items : ∀ items : List Val, remake_items id id items = items
  | [] => rfl
  | item :: items => by rw [remake_items, remake_id item, remake_id_items items]

theorem remake_id_members : ∀ members : List (Key × Val), remake_members id id members = members
  | [] => rfl
  | (key, item) :: members => by
      rw [remake_members, remake_id item, remake_id_members members]
      rfl

end

theorem length_remake_members (k : Key → Key) (f : Val → Val) (members : List (Key × Val)) :
    (remake_members k f members).length = members.length := by
  induction members with
  | nil => rfl
  | cons m members ih => rw [remake_members, length_cons, ih, length_cons]

/-- `k` keeps each key's bytes. -/
def KeepsText (k : Key → Key) : Prop := ∀ key, (k key).text = key.text

theorem keeps_id : KeepsText id := fun _ => rfl

theorem keeps_plain : KeepsText Key.plain := fun _ => rfl

theorem keys_remake {k : Key → Key} (hk : KeepsText k) (f : Val → Val) (members : List (Key × Val)) :
    keys (remake_members k f members) = keys members := by
  induction members with
  | nil => rfl
  | cons m members ih =>
    rw [remake_members, keys, keys, map_cons, map_cons, hk]
    exact congrArg _ ih

/-! ## Building -/

variable {y : Yyjson} {d d' : Decoding}

theorem push_scalar {s : Val} (h : s.is_scalar = true) (depth depth' : ℕ) :
    push_value y d depth s = push_value y d depth' s := by
  cases s with
  | arr items => exact absurd h Bool.false_ne_true
  | obj members => exact absurd h Bool.false_ne_true
  | _ => rfl

/-- What a scalar is read as and what another is build the same. -/
structure Builds (y : Yyjson) (d d' : Decoding) (s s' : Val) : Prop where
  value : ∀ depth depth' x, push_value y d depth s = .ok x → push_value y d' depth' s' = .ok x
  null : s = .null ↔ s' = .null

/-- Two ways to decode that differ in how many levels may nest alone. -/
structure Alike (d d' : Decoding) : Prop where
  null : d'.null = d.null
  big_as_string : d'.big_as_string = d.big_as_string
  duplicate_keys : d'.duplicate_keys = d.duplicate_keys

theorem drop_nulls_cons {t : List (LuaKey × Lua)} {key : Key} {v : Val} {ms : List (Key × Val)} (h : v ≠ .null) :
    drop_nulls t ((key, v) :: ms) = drop_nulls t ms := by
  cases v with
  | null => exact absurd rfl h
  | _ => rfl

variable {k k' : Key → Key} {f g : Val → Val}

theorem remake_null {s : Val} (h : ∀ s' ∈ s.scalars, Builds y d d' (f s') (g s')) :
    s.remake k f = .null ↔ s.remake k' g = .null := by
  cases s with
  | arr items => rw [Val.remake, Val.remake]; simp
  | obj members => rw [Val.remake, Val.remake]; simp
  | _ => exact (h _ (mem_singleton_self _)).null

theorem drop_nulls_remake (hk : KeepsText k) (hk' : KeepsText k') (members : List (Key × Val)) :
    ∀ t : List (LuaKey × Lua), (∀ s ∈ scalars_members members, Builds y d d' (f s) (g s)) →
      drop_nulls t (remake_members k f members) = drop_nulls t (remake_members k' g members) := by
  induction members with
  | nil => intro t _; rfl
  | cons m members ih =>
    obtain ⟨key, v⟩ := m
    intro t h
    rw [scalars_members, forall_mem_cons, forall_mem_append] at h
    rw [remake_members, remake_members]
    have hnull : v.remake k f = .null ↔ v.remake k' g = .null := remake_null h.2.1
    by_cases hv : v.remake k f = .null
    · rw [hv, hnull.mp hv, drop_nulls, drop_nulls, hk, hk']
      exact ih _ h.2.2
    · rw [drop_nulls_cons hv, drop_nulls_cons (fun h' => hv (hnull.mpr h'))]
      exact ih _ h.2.2

mutual

theorem push_remake (hd : Alike d d') (hk : KeepsText k) (hk' : KeepsText k') : ∀ (v : Val) {depth depth' : ℕ},
    depth' + d.max_depth ≤ depth + d'.max_depth → (∀ s ∈ v.scalars, Builds y d d' (f s) (g s)) →
      ∀ x, push_value y d depth (v.remake k f) = .ok x → push_value y d' depth' (v.remake k' g) = .ok x
  | .null, _, _, _, h, x, hx => (h _ (mem_singleton_self _)).value _ _ x hx
  | .bool _, _, _, _, h, x, hx => (h _ (mem_singleton_self _)).value _ _ x hx
  | .raw _, _, _, _, h, x, hx => (h _ (mem_singleton_self _)).value _ _ x hx
  | .num _, _, _, _, h, x, hx => (h _ (mem_singleton_self _)).value _ _ x hx
  | .str _, _, _, _, h, x, hx => (h _ (mem_singleton_self _)).value _ _ x hx
  | .arr items, depth, depth', hdepth, h, x, hx => by
      rw [Val.remake, push_value] at hx ⊢
      split_ifs at hx with hdeep
      obtain ⟨t, ht, rfl⟩ := map_ok hx
      rw [if_neg (by omega), push_remake_items hd hk hk' items hdepth h 0 [] t ht]
      rfl
  | .obj members, depth, depth', hdepth, h, x, hx => by
      rw [Val.remake, push_value] at hx ⊢
      dsimp only at hx ⊢
      rw [length_remake_members, keys_remake hk] at hx
      rw [length_remake_members, keys_remake hk', hd.null, hd.duplicate_keys]
      by_cases hdeep : depth ≥ d.max_depth
      · rw [if_pos hdeep] at hx
        cases hx
      rw [if_neg hdeep] at hx
      obtain ⟨t, ht, rfl⟩ := map_ok hx
      rw [if_neg (by omega), push_remake_members hd hk hk' _ _ members hdepth h 0 [] t ht,
        drop_nulls_remake hk hk' members t h]
      rfl

theorem push_remake_items (hd : Alike d d') (hk : KeepsText k) (hk' : KeepsText k') :
    ∀ (items : List Val) {depth depth' : ℕ}, depth' + d.max_depth ≤ depth + d'.max_depth →
      (∀ s ∈ scalars_items items, Builds y d d' (f s) (g s)) → ∀ idx t x,
        push_items y d depth idx t (remake_items k f items) = .ok x →
          push_items y d' depth' idx t (remake_items k' g items) = .ok x
  | [], _, _, _, _, _, _, _, hx => hx
  | item :: items, depth, depth', hdepth, h, idx, t, x, hx => by
      rw [scalars_items, forall_mem_append] at h
      rw [remake_items, push_items] at hx ⊢
      rcases hitem : push_value y d (depth + 1) (item.remake k f) with found | v
      · rw [hitem] at hx
        cases hx
      · rw [hitem] at hx
        rw [push_remake hd hk hk' item (by omega) h.1 v hitem]
        exact push_remake_items hd hk hk' items hdepth h.2 _ _ x hx

theorem push_remake_members (hd : Alike d d') (hk : KeepsText k) (hk' : KeepsText k') (repeat_ : ℕ) (check : Bool) :
    ∀ (members : List (Key × Val)) {depth depth' : ℕ}, depth' + d.max_depth ≤ depth + d'.max_depth →
      (∀ s ∈ scalars_members members, Builds y d d' (f s) (g s)) → ∀ idx t x,
        push_members y d depth repeat_ check idx t (remake_members k f members) = .ok x →
          push_members y d' depth' repeat_ check idx t (remake_members k' g members) = .ok x
  | [], _, _, _, _, _, _, _, hx => hx
  | (key, item) :: members, depth, depth', hdepth, h, idx, t, x, hx => by
      rw [scalars_members, forall_mem_cons, forall_mem_append] at h
      rw [remake_members, push_members, hk] at hx
      rw [remake_members, push_members, hk']
      split_ifs at hx with hidx hcheck
      rw [if_neg hidx, if_neg hcheck]
      rcases hitem : push_value y d (depth + 1) (item.remake k f) with found | v
      · rw [hitem] at hx
        cases hx
      · rw [hitem] at hx
        rw [push_remake hd hk hk' item (by omega) h.2.1 v hitem]
        exact push_remake_members hd hk hk' repeat_ check members hdepth h.2.2 _ _ x hx

end

end Cosmic.Json
