/-
What a document says: objects as maps from keys to values, arrays in order, strings by their
characters, which UTF-8 has one encoding of, and numbers by the double they read as, -0 being 0.

The canonical form tells what the document says, and tells it in one way only.
-/
import Cosmic.Json.Ecma
import Cosmic.Json.Rewrite

set_option autoImplicit false

namespace Cosmic.Json

open Cosmic.Base List

def Double.unsigned (f : Double) : Double := if f.is_zero then .zero else f

/-- What a document says. -/
inductive Meaning where
  | null
  | bool (b : Bool)
  | num (f : Double)
  | str (s : Bytes)
  | arr (items : List Meaning)
  | obj (members : Bytes → Option Meaning)

mutual

/-- What a document says, where `nearest` is the double of a number kept as its text. -/
def meaning (y : Yyjson) (nearest : Decimal → Double) : Val → Meaning
  | .null => .null
  | .bool b => .bool b
  | .raw text => .num (nearest (decimal_of text)).unsigned
  | .num n => .num (y.get_num n).unsigned
  | .str s => .str s
  | .arr items => .arr (meaning_items y nearest items)
  | .obj members => .obj (meaning_members y nearest members)

def meaning_items (y : Yyjson) (nearest : Decimal → Double) : List Val → List Meaning
  | [] => []
  | v :: vs => meaning y nearest v :: meaning_items y nearest vs

def meaning_members (y : Yyjson) (nearest : Decimal → Double) : List (Key × Val) → Bytes → Option Meaning
  | [], _ => none
  | (key, v) :: ms, s => if key.text = s then some (meaning y nearest v) else meaning_members y nearest ms s

end

variable {y : Yyjson} {nearest : Decimal → Double} {f : Val → Val}

mutual

theorem meaning_over : ∀ v : Val, (∀ s ∈ v.scalars, meaning y nearest (f s) = meaning y nearest s) →
    meaning y nearest (v.over f) = meaning y nearest v
  | .null, h => h _ (mem_singleton_self _)
  | .bool _, h => h _ (mem_singleton_self _)
  | .raw _, h => h _ (mem_singleton_self _)
  | .num _, h => h _ (mem_singleton_self _)
  | .str _, h => h _ (mem_singleton_self _)
  | .arr items, h => by rw [Val.over, meaning, meaning, meaning_over_items items h]
  | .obj members, h => by rw [Val.over, meaning, meaning, meaning_over_members members h]

theorem meaning_over_items : ∀ items : List Val,
    (∀ s ∈ scalars_items items, meaning y nearest (f s) = meaning y nearest s) →
      meaning_items y nearest (over_items f items) = meaning_items y nearest items
  | [], _ => rfl
  | item :: items, h => by
      rw [scalars_items, forall_mem_append] at h
      rw [over_items, meaning_items, meaning_items, meaning_over item h.1, meaning_over_items items h.2]

theorem meaning_over_members : ∀ members : List (Key × Val),
    (∀ s ∈ scalars_members members, meaning y nearest (f s) = meaning y nearest s) →
      meaning_members y nearest (over_members f members) = meaning_members y nearest members
  | [], _ => rfl
  | (key, item) :: members, h => by
      rw [scalars_members, forall_mem_cons, forall_mem_append] at h
      funext s
      rw [over_members, meaning_members, meaning_members, meaning_over item h.2.1, meaning_over_members members h.2.2]

end

/-! ## Objects as maps -/

variable {members : List (Key × Val)}

theorem meaning_members_some (h : (keys members).Nodup) {s : Bytes} {m : Meaning} :
    meaning_members y nearest members s = some m ↔
      ∃ member ∈ members, member.1.text = s ∧ meaning y nearest member.2 = m := by
  induction members with
  | nil => simp [meaning_members]
  | cons member members ih =>
    obtain ⟨key, v⟩ := member
    rw [keys, map_cons, nodup_cons] at h
    obtain ⟨hnew, hrest⟩ := h
    rw [meaning_members, exists_mem_cons_iff]
    by_cases hkey : key.text = s
    · subst hkey
      rw [if_pos rfl, Option.some_inj]
      refine ⟨fun hm => .inl ⟨rfl, hm⟩, ?_⟩
      rintro (⟨-, hm⟩ | ⟨member, hmember, hsame, -⟩)
      · exact hm
      · exact absurd (mem_map.mpr ⟨member, hmember, hsame⟩) hnew
    · rw [if_neg hkey, ih hrest]
      refine ⟨.inr, ?_⟩
      rintro (⟨hsame, -⟩ | hlater)
      · exact absurd hsame hkey
      · exact hlater

theorem meaning_members_congr {members members' : List (Key × Val)} (h : (keys members).Nodup)
    (h' : (keys members').Nodup) (hsame : ∀ m, m ∈ members ↔ m ∈ members') :
    meaning_members y nearest members = meaning_members y nearest members' := by
  funext s
  refine Option.ext fun m => ?_
  rw [meaning_members_some h, meaning_members_some h']
  simp only [hsame]

theorem keys_told (canonical : Bool) (members : List (Key × Val)) :
    keys (told_members y canonical members) = keys members := by
  induction members with
  | nil => rfl
  | cons m members ih =>
    rw [told_members, keys, keys, map_cons, map_cons]
    exact congrArg _ ih

variable {canonical : Bool}

theorem mem_told {m : Key × Val} :
    m ∈ told_members y canonical members ↔ ∃ m' ∈ members, m = (⟨0, m'.1.text⟩, told y canonical m'.2) := by
  induction members with
  | nil => simp [told_members]
  | cons m' members ih => rw [told_members, mem_cons, ih, exists_mem_cons_iff]

/-! ## Documents whose keys differ -/

/-- No object has a key twice. -/
def Distinct (v : Val) : Prop := ∃ max_depth depth, Clear max_depth false depth v

theorem Distinct.item {items : List Val} (h : Distinct (.arr items)) {item : Val} (hitem : item ∈ items) :
    Distinct item := by
  obtain ⟨max_depth, depth, hclear⟩ := h
  exact ⟨_, _, (clearItems_iff items).mp hclear.2 item hitem⟩

theorem Distinct.keys (h : Distinct (.obj members)) : (keys members).Nodup := by
  obtain ⟨max_depth, depth, hclear⟩ := h
  exact hclear.2.1 rfl

theorem Distinct.member (h : Distinct (.obj members)) {m : Key × Val}
    (hm : m ∈ members) : Distinct m.2 := by
  obtain ⟨max_depth, depth, hclear⟩ := h
  exact ⟨_, _, (clearMembers_iff members).mp hclear.2.2 m hm⟩

/-! ## What the canonical form tells -/

mutual

theorem meaning_told : ∀ v : Val, Distinct v → meaning y nearest (told y true v) = meaning y nearest (told y false v)
  | .null, _ => rfl
  | .bool _, _ => rfl
  | .raw _, _ => rfl
  | .num _, _ => rfl
  | .str _, _ => rfl
  | .arr items, h => by rw [told, told, meaning, meaning, meaning_told_items items fun _ hitem => h.item hitem]
  | .obj members, h => by
      have hkeys : (keys (told_members y true members)).Nodup := by
        rw [keys_told]
        exact h.keys
      rw [told, told, meaning, meaning, if_pos rfl, if_neg Bool.false_ne_true,
        meaning_members_congr (keys_sorted_nodup.mpr hkeys) hkeys fun _ => mem_sorted,
        meaning_told_members members fun _ hm => h.member hm]

theorem meaning_told_items : ∀ items : List Val, (∀ item ∈ items, Distinct item) →
    meaning_items y nearest (told_items y true items) = meaning_items y nearest (told_items y false items)
  | [], _ => rfl
  | item :: items, h => by
      rw [forall_mem_cons] at h
      rw [told_items, told_items, meaning_items, meaning_items, meaning_told item h.1, meaning_told_items items h.2]

theorem meaning_told_members : ∀ members : List (Key × Val), (∀ m ∈ members, Distinct m.2) →
    meaning_members y nearest (told_members y true members) = meaning_members y nearest (told_members y false members)
  | [], _ => rfl
  | (key, item) :: members, h => by
      rw [forall_mem_cons] at h
      funext s
      rw [told_members, told_members, meaning_members, meaning_members, meaning_told item h.1,
        meaning_told_members members h.2]

end

/-- A scalar that is written and is no number kept as its text. -/
structure Plain (y : Yyjson) (s : Val) : Prop where
  writes : Writes y s
  not_raw : ∀ text, s ≠ .raw text

theorem put_number_finite {n : Number} (h : (y.get_num n).isfinite = true) :
    put_number y n = put_canonical_number y (y.get_num n) := by
  exact if_neg (by simp [h])

theorem put_number_unsigned {n n' : Number} (h : (y.get_num n).unsigned = (y.get_num n').unsigned)
    (hfinite : (y.get_num n).isfinite = true) (hfinite' : (y.get_num n').isfinite = true) :
    put_number y n = put_number y n' := by
  have hput (g : Double) : put_canonical_number y g = put_canonical_number y g.unsigned := by
    unfold Double.unsigned
    split_ifs with hzero
    · rw [put_canonical_number, if_pos hzero, put_canonical_number, if_pos (by decide)]
    · rfl
  rw [put_number_finite hfinite, put_number_finite hfinite', hput (y.get_num n), hput (y.get_num n'), h]

theorem finite_of_writes {n : Number} (h : Writes y (.num n)) : (y.get_num n).isfinite = true := by
  obtain ⟨out, hout⟩ := h
  rw [put_text_value] at hout
  unfold put_number at hout
  by_contra hfinite
  rw [if_pos (by simpa using hfinite)] at hout
  cases hout

theorem utf8_of_writes {s : Bytes} (h : Writes y (.str s)) : is_utf8 s = true := by
  obtain ⟨out, hout⟩ := h
  rw [put_text_value] at hout
  unfold put_string at hout
  by_contra hutf8
  rw [if_pos (by simpa using hutf8)] at hout
  cases hout

theorem utf8Keys_of_plain (h : ∀ s ∈ scalars_members members, Plain y s) :
    Utf8Keys members := by
  intro m hm
  exact utf8_of_writes (h _ ((mem_scalars_members members).mpr ⟨m, hm, .inl rfl⟩)).writes

theorem utf8Keys_told (h : Utf8Keys members) :
    Utf8Keys (told_members y canonical members) := by
  intro m hm
  obtain ⟨m', hm', rfl⟩ := mem_told.mp hm
  exact h m' hm'

mutual

theorem told_of_meaning : ∀ v w : Val, Distinct v → Distinct w → (∀ s ∈ v.scalars, Plain y s) →
    (∀ s ∈ w.scalars, Plain y s) → meaning y nearest v = meaning y nearest w → told y true v = told y true w
  | .null, w, _, _, _, hw, h => by
      cases w with
      | null => rfl
      | raw t => exact absurd rfl ((hw _ (mem_singleton_self _)).not_raw t)
      | _ => cases h
  | .bool b, w, _, _, _, hw, h => by
      cases w with
      | bool b' => rw [meaning, meaning] at h; rw [Meaning.bool.inj h]
      | raw t => exact absurd rfl ((hw _ (mem_singleton_self _)).not_raw t)
      | _ => cases h
  | .raw t, w, _, _, hv, _, _ => absurd rfl ((hv _ (mem_singleton_self _)).not_raw t)
  | .num n, w, _, _, hv, hw, h => by
      cases w with
      | num n' =>
        rw [told, told, put_number_unsigned (Meaning.num.inj h)
          (finite_of_writes (hv _ (mem_singleton_self _)).writes)
          (finite_of_writes (hw _ (mem_singleton_self _)).writes)]
      | raw t => exact absurd rfl ((hw _ (mem_singleton_self _)).not_raw t)
      | _ => cases h
  | .str s, w, _, _, _, hw, h => by
      cases w with
      | str s' => rw [meaning, meaning] at h; rw [Meaning.str.inj h]
      | raw t => exact absurd rfl ((hw _ (mem_singleton_self _)).not_raw t)
      | _ => cases h
  | .arr items, w, hdv, hdw, hv, hw, h => by
      cases w with
      | arr items' =>
        rw [meaning, meaning] at h
        rw [told, told, told_of_meaning_items items items' (fun _ hitem => hdv.item hitem)
          (fun _ hitem => hdw.item hitem) hv hw (Meaning.arr.inj h)]
      | raw t => exact absurd rfl ((hw _ (mem_singleton_self _)).not_raw t)
      | _ => cases h
  | .obj members, w, hdv, hdw, hv, hw, h => by
      cases w with
      | obj members' =>
        have hmap := Meaning.obj.inj h
        have hall := told_of_meaning_members members (fun _ hm => hdv.member hm) hv
        have hplain' : ∀ m' ∈ members', ∀ s ∈ m'.2.scalars, Plain y s := fun m' hm' s hs =>
          hw s ((mem_scalars_members members').mpr ⟨m', hm', .inr hs⟩)
        rw [told, told, if_pos rfl, if_pos rfl]
        congr 1
        apply sorted_eq (utf8Keys_told (utf8Keys_of_plain hv))
        · rw [keys_told]
          exact hdv.keys
        · rw [keys_told]
          exact hdw.keys
        intro m
        rw [mem_told, mem_told]
        constructor
        · rintro ⟨m', hm', rfl⟩
          have hhere : meaning_members y nearest members m'.1.text = some (meaning y nearest m'.2) :=
            (meaning_members_some hdv.keys).mpr ⟨m', hm', rfl, rfl⟩
          rw [hmap] at hhere
          obtain ⟨m'', hm'', hkey, hmeaning⟩ := (meaning_members_some hdw.keys).mp hhere
          refine ⟨m'', hm'', ?_⟩
          rw [hkey, hall m' hm' m''.2 (hdw.member hm'') (hplain' m'' hm'') hmeaning.symm]
        · rintro ⟨m'', hm'', rfl⟩
          have hhere : meaning_members y nearest members' m''.1.text = some (meaning y nearest m''.2) :=
            (meaning_members_some hdw.keys).mpr ⟨m'', hm'', rfl, rfl⟩
          rw [← hmap] at hhere
          obtain ⟨m', hm', hkey, hmeaning⟩ := (meaning_members_some hdv.keys).mp hhere
          refine ⟨m', hm', ?_⟩
          rw [hkey, hall m' hm' m''.2 (hdw.member hm'') (hplain' m'' hm'') hmeaning]
      | raw t => exact absurd rfl ((hw _ (mem_singleton_self _)).not_raw t)
      | _ => cases h

theorem told_of_meaning_items : ∀ items items' : List Val, (∀ item ∈ items, Distinct item) →
    (∀ item ∈ items', Distinct item) → (∀ s ∈ scalars_items items, Plain y s) →
      (∀ s ∈ scalars_items items', Plain y s) → meaning_items y nearest items = meaning_items y nearest items' →
        told_items y true items = told_items y true items'
  | [], items', _, _, _, _, h => by
      rcases items' with _ | ⟨item', items'⟩
      · rfl
      · cases h
  | item :: items, items', hdv, hdw, hv, hw, h => by
      rcases items' with _ | ⟨item', items'⟩
      · cases h
      rw [scalars_items, forall_mem_append] at hv hw
      rw [forall_mem_cons] at hdv hdw
      obtain ⟨hitem, hitems⟩ := List.cons.inj h
      rw [told_items, told_items, told_of_meaning item item' hdv.1 hdw.1 hv.1 hw.1 hitem,
        told_of_meaning_items items items' hdv.2 hdw.2 hv.2 hw.2 hitems]

theorem told_of_meaning_members : ∀ members : List (Key × Val), (∀ m ∈ members, Distinct m.2) →
    (∀ s ∈ scalars_members members, Plain y s) → ∀ m ∈ members, ∀ w : Val, Distinct w →
      (∀ s ∈ w.scalars, Plain y s) → meaning y nearest m.2 = meaning y nearest w → told y true m.2 = told y true w
  | [], _, _, m, hm, _, _, _, _ => absurd hm not_mem_nil
  | (key, item) :: members, hdv, hv, m, hm, w, hdw, hw, h => by
      rw [scalars_members, forall_mem_cons, forall_mem_append] at hv
      rw [forall_mem_cons] at hdv
      rcases mem_cons.mp hm with rfl | hm
      · exact told_of_meaning item w hdv.1 hdw hv.2.1 hw h
      · exact told_of_meaning_members members hdv.2 hv.2.2 m hm w hdw hw h

end

mutual

theorem mem_scalars_told {s : Val} : ∀ v : Val,
    s ∈ (told y canonical v).scalars ↔ ∃ s' ∈ v.scalars, told y false s' = s
  | .null => by simp [told, Val.scalars, eq_comm]
  | .bool _ => by simp [told, Val.scalars, eq_comm]
  | .raw _ => by simp [told, Val.scalars, eq_comm]
  | .num _ => by simp [told, Val.scalars, eq_comm]
  | .str _ => by simp [told, Val.scalars, eq_comm]
  | .arr items => by rw [told, Val.scalars, Val.scalars, mem_scalars_told_items items]
  | .obj members => by
      have hmembers : s ∈ scalars_members (told_members y canonical members) ↔
          ∃ s' ∈ scalars_members members, told y false s' = s := mem_scalars_told_members members
      rw [told, Val.scalars, Val.scalars, ← hmembers, mem_scalars_members, mem_scalars_members]
      split_ifs
      · simp only [mem_sorted]
      · rfl

theorem mem_scalars_told_items {s : Val} : ∀ items : List Val,
    s ∈ scalars_items (told_items y canonical items) ↔ ∃ s' ∈ scalars_items items, told y false s' = s
  | [] => by simp [told_items, scalars_items]
  | item :: items => by
      rw [told_items, scalars_items, scalars_items, mem_append, mem_scalars_told item, mem_scalars_told_items items]
      simp only [mem_append, or_and_right, exists_or]

theorem mem_scalars_told_members {s : Val} : ∀ members : List (Key × Val),
    s ∈ scalars_members (told_members y canonical members) ↔ ∃ s' ∈ scalars_members members, told y false s' = s
  | [] => by simp [told_members, scalars_members]
  | (key, item) :: members => by
      rw [told_members, scalars_members, scalars_members, mem_cons, mem_append, mem_scalars_told item,
        mem_scalars_told_members members, exists_mem_cons_iff]
      simp only [mem_append, or_and_right, exists_or, told, eq_comm]

end

mutual

theorem clear_told {max_depth depth : ℕ} {duplicate_keys : Bool} : ∀ v : Val,
    Clear max_depth duplicate_keys depth (told y canonical v) ↔ Clear max_depth duplicate_keys depth v
  | .null => Iff.rfl
  | .bool _ => Iff.rfl
  | .raw _ => Iff.rfl
  | .num _ => Iff.rfl
  | .str _ => Iff.rfl
  | .arr items => by rw [told, Clear, Clear, clear_told_items items]
  | .obj members => by
      have hmembers : ClearMembers max_depth duplicate_keys (depth + 1) (told_members y canonical members) ↔
          ClearMembers max_depth duplicate_keys (depth + 1) members := clear_told_members members
      rw [told, Clear, Clear, ← hmembers]
      split_ifs
      · rw [keys_sorted_nodup, keys_told, clearMembers_iff, clearMembers_iff]
        simp only [mem_sorted]
      · rw [keys_told]

theorem clear_told_items {max_depth depth : ℕ} {duplicate_keys : Bool} : ∀ items : List Val,
    ClearItems max_depth duplicate_keys depth (told_items y canonical items) ↔
      ClearItems max_depth duplicate_keys depth items
  | [] => Iff.rfl
  | item :: items => by rw [told_items, ClearItems, ClearItems, clear_told item, clear_told_items items]

theorem clear_told_members {max_depth depth : ℕ} {duplicate_keys : Bool} :
    ∀ members : List (Key × Val), ClearMembers max_depth duplicate_keys depth (told_members y canonical members) ↔
      ClearMembers max_depth duplicate_keys depth members
  | [] => Iff.rfl
  | (key, item) :: members => by
      rw [told_members, ClearMembers, ClearMembers, clear_told item, clear_told_members members]

end

mutual

/-- Every object's members stand in the order of their keys. -/
def Ordered : Val → Prop
  | .arr items => OrderedItems items
  | .obj members => Increasing members ∧ OrderedMembers members
  | _ => True

def OrderedItems : List Val → Prop
  | [] => True
  | v :: vs => Ordered v ∧ OrderedItems vs

def OrderedMembers : List (Key × Val) → Prop
  | [] => True
  | (_, v) :: ms => Ordered v ∧ OrderedMembers ms

end

theorem orderedMembers_iff (members : List (Key × Val)) : OrderedMembers members ↔ ∀ m ∈ members, Ordered m.2 := by
  induction members with
  | nil => simp [OrderedMembers]
  | cons m members ih => rw [OrderedMembers, ih, forall_mem_cons]

mutual

theorem ordered_told : ∀ v : Val, Distinct v → (∀ s ∈ v.scalars, Plain y s) → Ordered (told y true v)
  | .null, _, _ => trivial
  | .bool _, _, _ => trivial
  | .raw _, _, _ => trivial
  | .num _, _, _ => trivial
  | .str _, _, _ => trivial
  | .arr items, hd, h => ordered_told_items items (fun _ hitem => hd.item hitem) h
  | .obj members, hd, h => by
      have hordered := ordered_told_members members (fun _ hm => hd.member hm) h
      rw [orderedMembers_iff] at hordered
      rw [told, if_pos rfl, Ordered, orderedMembers_iff]
      constructor
      · apply sorted_increasing (utf8Keys_told (utf8Keys_of_plain h))
        rw [keys_told]
        exact hd.keys
      · exact fun m hm => hordered m (mem_sorted.mp hm)

theorem ordered_told_items : ∀ items : List Val, (∀ item ∈ items, Distinct item) →
    (∀ s ∈ scalars_items items, Plain y s) → OrderedItems (told_items y true items)
  | [], _, _ => trivial
  | item :: items, hd, h => by
      rw [scalars_items, forall_mem_append] at h
      rw [forall_mem_cons] at hd
      exact ⟨ordered_told item hd.1 h.1, ordered_told_items items hd.2 h.2⟩

theorem ordered_told_members : ∀ members : List (Key × Val), (∀ m ∈ members, Distinct m.2) →
    (∀ s ∈ scalars_members members, Plain y s) → OrderedMembers (told_members y true members)
  | [], _, _ => trivial
  | (key, item) :: members, hd, h => by
      rw [scalars_members, forall_mem_cons, forall_mem_append] at h
      rw [forall_mem_cons] at hd
      exact ⟨ordered_told item hd.1 h.2.1, ordered_told_members members hd.2 h.2.2⟩

end

end Cosmic.Json
