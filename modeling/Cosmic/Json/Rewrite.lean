/-
The order of an object's members in the canonical form: by the UTF-16 units of their keys, which for
keys of UTF-8 is a total order in which only equal keys are equal.

Members of different keys are sorted in one way only, whatever order they came in.
-/
import Cosmic.Json.Scalars

set_option autoImplicit false

namespace Cosmic.Json

open Cosmic.Base List

/-! ## The order of keys -/

theorem compare_utf16_lt (s t : List Char) : compare_utf16 (encode s) (encode t) < 0 ↔ units s < units t := by
  rcases compare_utf16_spec s t with ⟨hlt, hneg⟩ | ⟨rfl, hzero⟩ | ⟨hgt, hpos⟩
  · exact iff_of_true hneg hlt
  · exact iff_of_false (by omega) (lt_irrefl _)
  · exact iff_of_false (by omega) (lt_asymm hgt)

theorem compare_utf16_eq (s t : List Char) : compare_utf16 (encode s) (encode t) = 0 ↔ s = t := by
  rcases compare_utf16_spec s t with ⟨hlt, hneg⟩ | ⟨rfl, hzero⟩ | ⟨hgt, hpos⟩
  · refine iff_of_false (by omega) ?_
    rintro rfl
    exact lt_irrefl _ hlt
  · exact iff_of_true hzero rfl
  · refine iff_of_false (by omega) ?_
    rintro rfl
    exact lt_irrefl _ hgt

theorem units_inj {s t : List Char} (h : units s = units t) : s = t := by
  rcases compare_utf16_spec s t with ⟨hlt, -⟩ | ⟨heq, -⟩ | ⟨hgt, -⟩
  · exact absurd hlt (by rw [h]; exact lt_irrefl _)
  · exact heq
  · exact absurd hgt (by rw [h]; exact lt_irrefl _)

theorem compare_utf16_le (s t : List Char) : compare_utf16 (encode s) (encode t) ≤ 0 ↔ units s ≤ units t := by
  rw [le_iff_lt_or_eq, compare_utf16_lt, compare_utf16_eq, le_iff_lt_or_eq]
  exact or_congr_right ⟨congrArg units, units_inj⟩

/-- A key of UTF-8 spells characters, and two such keys are in the order of the UTF-16 units of theirs. -/
theorem keys_ordered (a : Bytes) : (is_utf8 a = true ↔ ∃ s, a = encode s) ∧ ∀ s t,
    (compare_utf16 (encode s) (encode t) < 0 ↔ units s < units t) ∧ (compare_utf16 (encode s) (encode t) = 0 ↔ s = t) ∧
      (0 < compare_utf16 (encode s) (encode t) ↔ units t < units s) := by
  refine ⟨is_utf8_iff, fun s t => ⟨compare_utf16_lt s t, compare_utf16_eq s t, ?_⟩⟩
  rw [← not_le, compare_utf16_le, not_le]

/-! ## Keys by their units -/

open Classical in
/-- The characters that `s` encodes, if it is UTF-8. -/
noncomputable def chars_of (s : Bytes) : List Char := if h : ∃ cs, s = encode cs then h.choose else []

variable {s : Bytes}

theorem encode_chars_of (h : is_utf8 s = true) : encode (chars_of s) = s := by
  have hex := is_utf8_iff.mp h
  rw [chars_of, dif_pos hex]
  exact hex.choose_spec.symm

noncomputable def key_units (s : Bytes) : List ℕ := units (chars_of s)

theorem key_units_encode (cs : List Char) : key_units (encode cs) = units cs := by
  have hutf8 : is_utf8 (encode cs) = true := is_utf8_iff.mpr ⟨cs, rfl⟩
  rw [key_units, encode_inj (encode_chars_of hutf8)]

variable {t : Bytes}

theorem compare_key_units (hs : is_utf8 s = true) (ht : is_utf8 t = true) :
    compare_utf16 s t ≤ 0 ↔ key_units s ≤ key_units t := by
  have hle := compare_utf16_le (chars_of s) (chars_of t)
  rwa [encode_chars_of hs, encode_chars_of ht] at hle

theorem key_units_inj (hs : is_utf8 s = true) (ht : is_utf8 t = true) (h : key_units s = key_units t) : s = t := by
  rw [← encode_chars_of hs, ← encode_chars_of ht, units_inj h]

/-! ## Members in order -/

def Utf8Keys (members : List (Key × Val)) : Prop := ∀ m ∈ members, is_utf8 m.1.text = true

def Increasing (members : List (Key × Val)) : Prop :=
  members.Pairwise fun m m' => key_units m.1.text < key_units m'.1.text

theorem sorted_perm (members : List (Key × Val)) : (sorted members).Perm members := perm_insertionSort _ _

variable {members : List (Key × Val)}

theorem mem_sorted {m : Key × Val} : m ∈ sorted members ↔ m ∈ members := mem_insertionSort _

theorem nodup_of_keys (h : (keys members).Nodup) : members.Nodup := List.Nodup.of_map _ h

theorem keys_sorted_nodup : (keys (sorted members)).Nodup ↔ (keys members).Nodup :=
  ((sorted_perm members).map _).nodup_iff

theorem sorted_increasing (hutf8 : Utf8Keys members) (hkeys : (keys members).Nodup) :
    Increasing (sorted members) := by
  -- by the units alone, which are ordered whatever the keys hold
  have hsame : sorted members = members.insertionSort fun m m' => key_units m.1.text ≤ key_units m'.1.text := by
    have hmap := map_insertionSort (fun m m' : Key × Val => compare_utf16 m.1.text m'.1.text ≤ 0)
      (fun m m' => key_units m.1.text ≤ key_units m'.1.text) id members
      fun m hm m' hm' => compare_key_units (hutf8 m hm) (hutf8 m' hm')
    rwa [map_id, map_id] at hmap
  have hle : (sorted members).Pairwise fun m m' => key_units m.1.text ≤ key_units m'.1.text := by
    rw [hsame]
    exact pairwise_insertionSort _ _
  have hne : (sorted members).Pairwise fun m m' => m.1.text ≠ m'.1.text :=
    pairwise_map.mp (keys_sorted_nodup.mpr hkeys)
  refine (hle.and hne).imp_of_mem ?_
  rintro m m' hm hm' ⟨hunits, hdiff⟩
  refine lt_of_le_of_ne hunits fun heq => hdiff ?_
  exact key_units_inj (hutf8 m (mem_sorted.mp hm)) (hutf8 m' (mem_sorted.mp hm')) heq

/-- The same members are sorted alike. -/
theorem sorted_eq {members' : List (Key × Val)} (hutf8 : Utf8Keys members) (hkeys : (keys members).Nodup)
    (hkeys' : (keys members').Nodup) (h : ∀ m, m ∈ members ↔ m ∈ members') : sorted members = sorted members' := by
  have hutf8' : Utf8Keys members' := fun m hm => hutf8 m ((h m).mpr hm)
  have hperm : (sorted members).Perm (sorted members') :=
    (sorted_perm _).trans (((perm_ext_iff_of_nodup (nodup_of_keys hkeys) (nodup_of_keys hkeys')).mpr h).trans
      (sorted_perm _).symm)
  refine List.Perm.eq_of_pairwise ?_ (sorted_increasing hutf8 hkeys) (sorted_increasing hutf8' hkeys') hperm
  intro m m' _ _ hlt hlt'
  exact absurd hlt' (lt_asymm hlt)

/-!
Writing a document that was written before: what is told of it, written in the text's order, is the
same text.

A document is written exactly when each of its scalars is, whatever the form.
-/

variable {y : Yyjson}

/-! ## What is written -/

/-- A scalar that can be written, in any form and at any depth. -/
def Writes (y : Yyjson) (s : Val) : Prop := ∃ out, put_text_value y ⟨false, false⟩ 0 s = .ok out

theorem put_scalar {s : Val} (h : s.is_scalar = true) (form : Form) (depth : ℕ) :
    put_text_value y form depth s = put_text_value y ⟨false, false⟩ 0 s := by
  cases s with
  | arr items => exact absurd h Bool.false_ne_true
  | obj members => exact absurd h Bool.false_ne_true
  | _ => rfl

theorem put_scalar_ok {s : Val} (h : s.is_scalar = true) (form : Form) (depth : ℕ) :
    (∃ out, put_text_value y form depth s = .ok out) ↔ ∀ s' ∈ s.scalars, Writes y s' := by
  rw [scalars_of_scalar h, forall_mem_singleton, put_scalar h]
  rfl

theorem writes_str : Writes y (.str s) ↔ ∃ quoted, put_string false s = .ok quoted := Iff.rfl

theorem exists_map {ε α β : Type} (f : α → β) (r : Except ε α) : (∃ b, r.map f = .ok b) ↔ ∃ a, r = .ok a := by
  constructor
  · rintro ⟨b, h⟩
    obtain ⟨a, ha, -⟩ := map_ok h
    exact ⟨a, ha⟩
  · rintro ⟨a, rfl⟩
    exact ⟨f a, rfl⟩

variable {pretty : Bool} {depth : ℕ}

theorem put_elements_ok (rs : List (Except Failure Bytes)) : ∀ idx : ℕ,
    (∃ text, put_elements pretty depth idx rs = .ok text) ↔ ∀ r ∈ rs, ∃ out, r = .ok out := by
  induction rs with
  | nil => intro idx; simp [put_elements]
  | cons r rs ih =>
    intro idx
    rw [forall_mem_cons]
    rcases r with e | out
    · simp [put_elements]
    · rw [put_elements, exists_map, ih]
      simp

theorem put_members_ok (xs : List Written) : ∀ first : Bool, (∃ text, put_members pretty depth first xs = .ok text) ↔
      ∀ x ∈ xs, (∃ quoted, put_string false x.1.text = .ok quoted) ∧ ∃ out, x.2 = .ok out := by
  induction xs with
  | nil => intro first; simp [put_members]
  | cons x xs ih =>
    intro first
    obtain ⟨key, r⟩ := x
    rw [forall_mem_cons, put_members, put_text_member]
    rcases put_string false key.text with e | quoted
    · simp
    rcases r with e | out
    · simp
    · rw [exists_map, ih]
      simp

mutual

theorem put_text_value_ok (form : Form) (depth : ℕ) : ∀ v : Val,
    (∃ out, put_text_value y form depth v = .ok out) ↔ ∀ s ∈ v.scalars, Writes y s
  | .null => put_scalar_ok rfl form depth
  | .bool _ => put_scalar_ok rfl form depth
  | .raw _ => put_scalar_ok rfl form depth
  | .num _ => put_scalar_ok rfl form depth
  | .str _ => put_scalar_ok rfl form depth
  | .arr [] => iff_of_true ⟨_, rfl⟩ (by simp [Val.scalars, scalars_items])
  | .arr (item :: items) => by
      rw [put_text_value, if_neg (by simp), exists_map, put_elements_ok, Val.scalars]
      exact put_text_items_ok form depth (item :: items)
  | .obj [] => iff_of_true ⟨_, rfl⟩ (by simp [Val.scalars, scalars_members])
  | .obj (member :: members) => by
      have hall := put_text_members_ok form depth (member :: members)
      rw [put_text_value, if_neg (by simp), exists_map, put_members_ok, Val.scalars, ← hall]
      by_cases hcanonical : form.canonical = true
      · simp only [if_pos hcanonical, mem_insertionSort]
      · simp only [if_neg hcanonical]

theorem put_text_items_ok (form : Form) (depth : ℕ) : ∀ items : List Val,
    (∀ r ∈ put_text_items y form depth items, ∃ out, r = .ok out) ↔ ∀ s ∈ scalars_items items, Writes y s
  | [] => by simp [put_text_items, scalars_items]
  | item :: items => by
      rw [put_text_items, forall_mem_cons, scalars_items, forall_mem_append,
        put_text_value_ok form (depth + 1) item, put_text_items_ok form depth items]

theorem put_text_members_ok (form : Form) (depth : ℕ) : ∀ members : List (Key × Val),
    (∀ x ∈ put_text_members y form depth members,
        (∃ quoted, put_string false x.1.text = .ok quoted) ∧ ∃ out, x.2 = .ok out) ↔
      ∀ s ∈ scalars_members members, Writes y s
  | [] => by simp [put_text_members, scalars_members]
  | (key, item) :: members => by
      rw [put_text_members, forall_mem_cons, scalars_members, forall_mem_cons, forall_mem_append,
        put_text_value_ok form (depth + 1) item, put_text_members_ok form depth members, writes_str, and_assoc]

end

/-! ## Written again -/

/-- What was written is written again. -/
def Again (r r' : Except Failure Bytes) : Prop := ∀ out, r = .ok out → r' = .ok out

theorem put_elements_again {rs rs' : List (Except Failure Bytes)} (h : Forall₂ Again rs rs') : ∀ idx : ℕ,
      Again (put_elements pretty depth idx rs) (put_elements pretty depth idx rs') := by
  induction h with
  | nil => exact fun _ _ h => h
  | @cons r r' rs rs' hr _ ih =>
    intro idx text htext
    rcases r with e | out
    · cases htext
    obtain rfl := hr out rfl
    rw [put_elements] at htext ⊢
    obtain ⟨rest, hrest, rfl⟩ := map_ok htext
    rw [ih (idx + 1) rest hrest]
    rfl

def AgainMember (x x' : Written) : Prop := x'.1.text = x.1.text ∧ Again x.2 x'.2

theorem put_members_again {xs xs' : List Written} (h : Forall₂ AgainMember xs xs') :
    ∀ first : Bool, Again (put_members pretty depth first xs) (put_members pretty depth first xs') := by
  induction h with
  | nil => exact fun _ _ h => h
  | @cons x x' xs xs' hx _ ih =>
    intro first text htext
    obtain ⟨key, r⟩ := x
    obtain ⟨key', r'⟩ := x'
    obtain ⟨hkey, hr⟩ := hx
    rw [put_members, put_text_member] at htext ⊢
    rw [hkey]
    rcases hquoted : put_string false key.text with e | quoted
    · rw [hquoted] at htext
      cases htext
    rw [hquoted] at htext
    rcases r with e | out
    · cases htext
    obtain rfl := hr out rfl
    obtain ⟨rest, hrest, rfl⟩ := map_ok htext
    rw [ih false rest hrest]
    rfl

theorem put_text_members_eq (form : Form) (depth : ℕ) (members : List (Key × Val)) :
    put_text_members y form depth members = members.map fun m => (m.1, put_text_value y form (depth + 1) m.2) := by
  induction members with
  | nil => rfl
  | cons m members ih => rw [put_text_members, ih, map_cons]

theorem put_raw_number_json (h : is_json_number t = true) : put_raw_number y t = .ok t := by
  rw [put_raw_number, if_pos h]

theorem put_sorted (form : Form) (depth : ℕ) (members : List (Key × Val)) :
    put_text_members y form depth (sorted members) =
      (put_text_members y form depth members).insertionSort fun x x' => compare_members x x' ≤ 0 := by
  rw [put_text_members_eq, put_text_members_eq, sorted]
  exact map_insertionSort _ _ _ _ fun _ _ _ _ => Iff.rfl

theorem sorted_isEmpty (members : List (Key × Val)) : (sorted members).isEmpty = members.isEmpty := by
  rw [Bool.eq_iff_iff, isEmpty_iff_length_eq_zero, isEmpty_iff_length_eq_zero, sorted, length_insertionSort]

mutual

theorem told_again (form : Form) (depth : ℕ) : ∀ v : Val, (∀ s ∈ v.scalars, Numeral y s) →
    Again (put_text_value y form depth v) (put_text_value y ⟨form.pretty, false⟩ depth (told y form.canonical v))
  | .null, _, _, h => h
  | .bool _, _, _, h => h
  | .str _, _, _, h => h
  | .raw s, hy, out, h => by
      rw [put_text_value] at h
      rw [told, h, text_of_ok]
      exact put_raw_number_json ((hy _ (mem_singleton_self _)).raw s out rfl h)
  | .num n, hy, out, h => by
      rw [put_text_value] at h
      rw [told, h, text_of_ok]
      exact put_raw_number_json ((hy _ (mem_singleton_self _)).num n out rfl h)
  | .arr [], _, _, h => h
  | .arr (item :: items), hy, out, h => by
      obtain ⟨text, htext, rfl⟩ := map_ok h
      have hagain := put_elements_again (told_items_again form depth (item :: items) hy) 0 text htext
      rw [told, put_text_value, if_neg (by simp [told_items]), hagain]
      rfl
  | .obj [], _, _, h => by
      rw [told, told_members]
      split_ifs <;> exact h
  | .obj (member :: members), hy, out, h => by
      rw [put_text_value, if_neg (by simp)] at h
      obtain ⟨text, htext, rfl⟩ := map_ok h
      have hmembers := told_members_again form depth (member :: members) hy
      have hempty : ¬(told_members y form.canonical (member :: members)).isEmpty = true := by
        simp [told_members]
      rw [told, put_text_value]
      dsimp only
      rw [if_neg Bool.false_ne_true]
      by_cases hcanonical : form.canonical = true
      · rw [if_pos hcanonical] at htext
        rw [if_pos hcanonical, sorted_isEmpty, if_neg hempty, put_sorted]
        rw [put_members_again (forall₂_insertionSort ?_ hmembers) true text htext]
        · rfl
        · rintro a a' b b' ⟨hkey, -⟩ ⟨hkey', -⟩
          rw [compare_members, compare_members, hkey, hkey']
      · rw [if_neg hcanonical] at htext
        rw [if_neg hcanonical, if_neg hempty, put_members_again hmembers true text htext]
        rfl

theorem told_items_again (form : Form) (depth : ℕ) : ∀ items : List Val, (∀ s ∈ scalars_items items, Numeral y s) →
    Forall₂ Again (put_text_items y form depth items)
      (put_text_items y ⟨form.pretty, false⟩ depth (told_items y form.canonical items))
  | [], _ => .nil
  | item :: items, hy => by
      rw [scalars_items, forall_mem_append] at hy
      exact .cons (told_again form (depth + 1) item hy.1) (told_items_again form depth items hy.2)

theorem told_members_again (form : Form) (depth : ℕ) : ∀ members : List (Key × Val),
    (∀ s ∈ scalars_members members, Numeral y s) → Forall₂ AgainMember (put_text_members y form depth members)
        (put_text_members y ⟨form.pretty, false⟩ depth (told_members y form.canonical members))
  | [], _ => .nil
  | (_, item) :: members, hy => by
      rw [scalars_members, forall_mem_cons, forall_mem_append] at hy
      exact .cons ⟨rfl, told_again form (depth + 1) item hy.2.1⟩ (told_members_again form depth members hy.2.2)

end

end Cosmic.Json
