/-
What `put_text_value` writes reads, as RFC 8259, as the value it wrote.

The value is `told`: each number as the text written of it, and in the canonical form the members in
their order.
-/
import Cosmic.Json.Format
import Cosmic.Json.StringRead

set_option autoImplicit false

namespace Cosmic.Json

open Cosmic.Base List Option Except Nat

/-! ## The value written -/

/-- The text of what was written, if it was. -/
def text_of (r : Except Failure Bytes) : Bytes := r.toOption.getD []

def sorted (members : List (Key × Val)) : List (Key × Val) :=
  members.insertionSort fun x y => compare_utf16 x.1.text y.1.text ≤ 0

mutual

/-- The value that is written of `val`. -/
def told (y : Yyjson) (canonical : Bool) : Val → Val
  | .raw text => .raw (text_of (put_raw_number y text))
  | .num n => .raw (text_of (put_number y n))
  | .arr items => .arr (told_items y canonical items)
  | .obj members =>
    .obj (if canonical then sorted (told_members y canonical members) else told_members y canonical members)
  | v => v

def told_items (y : Yyjson) (canonical : Bool) : List Val → List Val
  | [] => []
  | v :: vs => told y canonical v :: told_items y canonical vs

def told_members (y : Yyjson) (canonical : Bool) : List (Key × Val) → List (Key × Val)
  | [] => []
  | (key, v) :: ms => (⟨0, key.text⟩, told y canonical v) :: told_members y canonical ms

end

/-! ## Reading it -/

/-- `out` reads as `w`, whatever follows. -/
structure Reads (out : Bytes) (w : Val) : Prop where
  /-- It begins with neither white space nor a closing bracket. -/
  head : ∃ b s, out = b :: s ∧ Rfc.space b = false ∧ b ≠ 93
  value : ∀ n rest, 2 * out.length ≤ n → Ends rest → Rfc.value n (out ++ rest) = some (w, rest)

theorem value_scalar {b : UInt8} (n : ℕ) (s : Bytes) (hb : b ≠ 91) (hb' : b ≠ 123) :
    Rfc.value (n + 1) (b :: s) = Rfc.scalar (b :: s) := by
  rw [Rfc.value]
  · rintro s' h
    exact hb (List.cons.inj h).1
  · rintro s' h
    exact hb' (List.cons.inj h).1

theorem Reads.of_scalar {b : UInt8} {s : Bytes} {w : Val} (hspace : Rfc.space b = false) (hb : b ≠ 91)
    (hb' : b ≠ 123) (hb'' : b ≠ 93) (h : ∀ rest, Ends rest → Rfc.scalar (b :: s ++ rest) = some (w, rest)) :
    Reads (b :: s) w := by
  refine ⟨⟨b, s, rfl, hspace, hb''⟩, ?_⟩
  intro n rest hn hrest
  rw [length_cons] at hn
  obtain ⟨n, rfl⟩ := exists_eq_add_one_of_ne_zero (show n ≠ 0 by omega)
  rw [cons_append, value_scalar n _ hb hb']
  exact h rest hrest

theorem reads_null : Reads (lit "null") .null := .of_scalar rfl (by decide) (by decide) (by decide) fun _ _ => rfl

theorem reads_bool (b : Bool) : Reads (if b then lit "true" else lit "false") (.bool b) := by
  cases b with
  | true => exact .of_scalar rfl (by decide) (by decide) (by decide) fun _ _ => rfl
  | false => exact .of_scalar rfl (by decide) (by decide) (by decide) fun _ _ => rfl

theorem reads_string {s out : Bytes} (h : put_string false s = .ok out) : Reads out (.str s) := by
  obtain ⟨w, rfl, hread⟩ := put_string_read h
  refine .of_scalar rfl (by decide) (by decide) (by decide) fun rest _ => ?_
  show (Rfc.string (w ++ rest)).map (fun r => (Val.str r.1, r.2)) = _
  rw [hread, map_some]

theorem reads_number {s : Bytes} (h : is_json_number s = true) : Reads s (.raw s) := by
  obtain ⟨b, t, rfl, hb⟩ := number_head h
  have hne (c : UInt8) (hc : isDigit c = false ∧ c ≠ 45) : b ≠ c := by
    rintro rfl
    rcases hb with hb | hb
    · exact absurd hb (by rw [hc.1]; exact Bool.false_ne_true)
    · exact hc.2 hb
  have hspace : Rfc.space b = false := by
    simp [Rfc.space, hne 32 (by decide), hne 9 (by decide), hne 10 (by decide), hne 13 (by decide)]
  refine .of_scalar hspace (hne _ (by decide)) (hne _ (by decide)) (hne _ (by decide)) fun rest hrest => ?_
  have hnot (c : UInt8) (hc : isDigit c = false ∧ c ≠ 45) (w : Bytes) :
      ¬(c :: w).isPrefixOf (b :: (t ++ rest)) = true := by
    rw [List.isPrefixOf_iff_prefix]
    intro hstart
    exact hne c hc (cons_prefix_cons.mp hstart).1.symm
  have hnull : ¬(lit "null").isPrefixOf (b :: (t ++ rest)) = true := hnot 110 (by decide) (lit "ull")
  have htrue : ¬(lit "true").isPrefixOf (b :: (t ++ rest)) = true := hnot 116 (by decide) (lit "rue")
  have hfalse : ¬(lit "false").isPrefixOf (b :: (t ++ rest)) = true := hnot 102 (by decide) (lit "alse")
  rw [cons_append, Rfc.scalar, if_neg hnull, if_neg htrue, if_neg hfalse]
  · exact number_read h hrest
  · intro s' heq
    exact hne 34 (by decide) (List.cons.inj heq).1

/-! ## White space -/

def Blank (w : Bytes) : Prop := ∀ b ∈ w, Rfc.space b = true

theorem blank_break (pretty : Bool) (depth : ℕ) : Blank (put_break pretty depth) := by
  intro b hb
  unfold put_break at hb
  split_ifs at hb
  · rcases mem_cons.mp hb with rfl | hb
    · rfl
    · rw [eq_of_mem_replicate hb]
      rfl
  · cases hb

theorem skip_blank {w : Bytes} (h : Blank w) (s : Bytes) : Rfc.skip (w ++ s) = Rfc.skip s := dropWhile_append_of_pos h

theorem skip_head {b : UInt8} (h : Rfc.space b = false) (s : Bytes) : Rfc.skip (b :: s) = b :: s :=
  dropWhile_cons_of_neg (by rw [h]; exact Bool.false_ne_true)

theorem ends_blank {w : Bytes} (h : Blank w) {b : UInt8} (hb : Rfc.number_byte b = false) (s : Bytes) :
    Ends (w ++ b :: s) := by
  rcases w with _ | ⟨c, w⟩
  · exact ends_cons s hb
  have hspace := h c (mem_cons_self ..)
  have hall : ∀ n < 256, Rfc.space (UInt8.ofNat n) = true → Rfc.number_byte (UInt8.ofNat n) = false := by
    decide +kernel
  have hone := hall c.toNat c.toNat_lt
  rw [UInt8.ofNat_toNat] at hone
  exact ends_cons _ (hone hspace)

theorem map_ok {ε α β : Type} {f : α → β} {r : Except ε α} {b : β} (h : r.map f = .ok b) :
    ∃ a, r = .ok a ∧ f a = b := by
  rcases r with e | a
  · cases h
  · exact ⟨a, rfl, ok.inj h⟩

/-! ## Arrays -/

/-- What was written of each element, and the value that it reads as. -/
abbrev ReadsAll : List (Except Failure Bytes) → List Val → Prop := Forall₂ fun r w => ∀ out, r = .ok out → Reads out w

theorem elements_read {pretty : Bool} {depth : ℕ} {rs : List (Except Failure Bytes)} {ws : List Val}
    (h : ReadsAll rs ws) (hne : rs ≠ []) : ∀ {idx : ℕ} {text : Bytes}, put_elements pretty depth idx rs = .ok text →
      ∃ body, text = (if idx > 0 then [44] else []) ++ put_break pretty (depth + 1) ++ body ∧
        (∃ b s, body = b :: s ∧ Rfc.space b = false ∧ b ≠ 93) ∧ ∀ n tail rest, Blank tail → 2 * body.length + 1 ≤ n →
            Rfc.items n (body ++ (tail ++ 93 :: rest)) = some (ws, rest) := by
  induction h with
  | nil => exact absurd rfl hne
  | @cons r w rs ws hr hrs ih =>
    intro idx text htext
    rcases r with e | out
    · cases htext
    have hout := hr out rfl
    obtain ⟨b, s, hhead, hspace, hbracket⟩ := hout.head
    obtain ⟨more, hmore, rfl⟩ := map_ok htext
    by_cases hlast : rs = []
    · -- the last element: its end is the bracket
      subst hlast
      obtain rfl := forall₂_nil_left_iff.mp hrs
      obtain rfl : [] = more := ok.inj hmore
      refine ⟨out, by rw [append_nil], ⟨b, s, hhead, hspace, hbracket⟩, ?_⟩
      intro n tail rest htail hn
      obtain ⟨n, rfl⟩ := exists_eq_add_one_of_ne_zero (show n ≠ 0 by omega)
      exact Rfc.items_last (hout.value n _ (by omega) (ends_blank htail rfl rest))
        (by rw [skip_blank htail, skip_head rfl])
    · -- a comma, and the elements after it
      obtain ⟨body, rfl, ⟨b', s', hhead', hspace', hbracket'⟩, hread⟩ := ih hlast hmore
      refine ⟨out ++ (44 :: (put_break pretty (depth + 1) ++ body)), ?_, ?_, ?_⟩
      · rw [if_pos (succ_pos idx)]
        simp only [append_assoc, cons_append, nil_append]
      · exact ⟨b, s ++ (44 :: (put_break pretty (depth + 1) ++ body)), by rw [hhead, cons_append], hspace, hbracket⟩
      · intro n tail rest htail hn
        rw [length_append, length_cons, length_append] at hn
        obtain ⟨n, rfl⟩ := exists_eq_add_one_of_ne_zero (show n ≠ 0 by omega)
        rw [append_assoc, cons_append, Rfc.items_more (hout.value n _ (by omega) (ends_cons _ rfl)) (skip_head rfl _)]
        rw [append_assoc, skip_blank (blank_break _ _), hhead', cons_append, skip_head hspace',
          ← cons_append, ← hhead', hread n tail rest htail (by omega), map_some]

theorem reads_array {pretty : Bool} {depth : ℕ} {rs : List (Except Failure Bytes)} {ws : List Val}
    (h : ReadsAll rs ws) (hne : rs ≠ []) {text : Bytes} (htext : put_elements pretty depth 0 rs = .ok text) :
    Reads (91 :: text ++ put_break pretty depth ++ [93]) (.arr ws) := by
  obtain ⟨body, rfl, ⟨b, s, hhead, hspace, hbracket⟩, hread⟩ := elements_read h hne htext
  rw [if_neg (Nat.lt_irrefl 0), nil_append]
  refine ⟨⟨91, _, rfl, rfl, by decide⟩, ?_⟩
  intro n rest hn _
  have hlen : 2 * body.length + 1 ≤ n - 1 := by
    simp only [length_append, length_cons] at hn
    omega
  obtain ⟨n, rfl⟩ := exists_eq_add_one_of_ne_zero (show n ≠ 0 by omega)
  have hskip : Rfc.skip (put_break pretty (depth + 1) ++ (body ++ (put_break pretty depth ++ 93 :: rest))) =
      body ++ (put_break pretty depth ++ 93 :: rest) := by
    rw [skip_blank (blank_break _ _), hhead, cons_append, skip_head hspace]
  have hshape : 91 :: (put_break pretty (depth + 1) ++ body) ++ put_break pretty depth ++ [93] ++ rest =
      91 :: (put_break pretty (depth + 1) ++ (body ++ (put_break pretty depth ++ 93 :: rest))) := by
    simp only [append_assoc, cons_append, nil_append]
  have hitems := hread n (put_break pretty depth) rest (blank_break _ _) hlen
  rw [hhead, cons_append] at hskip hitems
  rw [hshape, hhead, cons_append, Rfc.value_array hskip hbracket, hitems, map_some]

/-! ## Objects -/

/-- What was written of each member, and the member that it reads as. -/
abbrev ReadsMembers : List Written → List (Key × Val) → Prop :=
  Forall₂ fun x m => m.1 = ⟨0, x.1.text⟩ ∧ ∀ out, x.2 = .ok out → Reads out m.2

theorem members_read {pretty : Bool} {depth : ℕ} {xs : List Written} {ms : List (Key × Val)}
    (h : ReadsMembers xs ms) (hne : xs ≠ []) : ∀ {first : Bool} {text : Bytes},
      put_members pretty depth first xs = .ok text →
        ∃ body, text = (if first then [] else [44]) ++ put_break pretty (depth + 1) ++ 34 :: body ∧
          ∀ n tail rest, Blank tail → 2 * body.length + 1 ≤ n →
            Rfc.members n (34 :: body ++ (tail ++ 125 :: rest)) = some (ms, rest) := by
  induction h with
  | nil => exact absurd rfl hne
  | @cons x m xs ms hx hxs ih =>
    obtain ⟨key, r⟩ := x
    obtain ⟨key', w⟩ := m
    obtain ⟨hkey, hr⟩ := hx
    subst hkey
    intro first text htext
    rw [put_members, put_text_member] at htext
    rcases hstring : put_string false key.text with e | quoted
    · rw [hstring] at htext
      cases htext
    rw [hstring] at htext
    rcases r with e | out
    · cases htext
    dsimp only at htext
    have hout := hr out rfl
    obtain ⟨b, s, hhead, hspace, -⟩ := hout.head
    obtain ⟨word, rfl, hword⟩ := put_string_read hstring
    obtain ⟨more, hmore, rfl⟩ := map_ok htext
    have hgap : Blank (if pretty then [32] else []) := by
      intro b hb
      split_ifs at hb
      · rw [mem_singleton.mp hb]
        rfl
      · cases hb
    -- the key, the colon and the value, whatever follows
    have hmember : ∀ u, Rfc.key (34 :: (word ++ (58 :: u))) = some (⟨0, key.text⟩, u) := fun u =>
      Rfc.key_string (hword _) (skip_head rfl _)
    have hvalue : ∀ u, Rfc.skip ((if pretty then [32] else []) ++ (out ++ u)) = out ++ u := by
      intro u
      rw [skip_blank hgap, hhead, cons_append, skip_head hspace]
    by_cases hlast : xs = []
    · subst hlast
      obtain rfl := forall₂_nil_left_iff.mp hxs
      obtain rfl : [] = more := ok.inj hmore
      refine ⟨word ++ (58 :: ((if pretty then [32] else []) ++ out)), ?_, ?_⟩
      · simp only [append_assoc, cons_append, nil_append, append_nil]
      intro n tail rest htail hn
      simp only [length_append, length_cons] at hn
      obtain ⟨n, rfl⟩ := exists_eq_add_one_of_ne_zero (show n ≠ 0 by omega)
      have hfirst : Rfc.value n (Rfc.skip ((if pretty then [32] else []) ++ (out ++ (tail ++ 125 :: rest)))) =
          some (w, tail ++ 125 :: rest) := by
        rw [hvalue]
        exact hout.value n _ (by omega) (ends_blank htail rfl rest)
      rw [cons_append, append_assoc, cons_append, append_assoc]
      exact Rfc.members_last (hmember _) hfirst (by rw [skip_blank htail, skip_head rfl])
    · obtain ⟨body, rfl, hread⟩ := ih hlast hmore
      refine ⟨word ++ (58 :: ((if pretty then [32] else []) ++ (out ++ 44 :: (put_break pretty (depth + 1)
        ++ 34 :: body)))), ?_, ?_⟩
      · rw [if_neg Bool.false_ne_true]
        simp only [append_assoc, cons_append, nil_append]
      intro n tail rest htail hn
      simp only [length_append, length_cons] at hn
      obtain ⟨n, rfl⟩ := exists_eq_add_one_of_ne_zero (show n ≠ 0 by omega)
      have hfirst : ∀ u, Rfc.value n (Rfc.skip ((if pretty then [32] else []) ++ (out ++ 44 :: u))) =
          some (w, 44 :: u) := by
        intro u
        rw [hvalue]
        exact hout.value n _ (by omega) (ends_cons _ rfl)
      rw [cons_append, append_assoc, cons_append, append_assoc, append_assoc,
        cons_append, Rfc.members_more (hmember _) (hfirst _) (skip_head rfl _)]
      rw [append_assoc, skip_blank (blank_break _ _), cons_append, skip_head rfl, ← cons_append,
        hread n tail rest htail (by omega), map_some]

theorem reads_object {pretty : Bool} {depth : ℕ} {xs : List Written} {ms : List (Key × Val)}
    (h : ReadsMembers xs ms) (hne : xs ≠ []) {text : Bytes} (htext : put_members pretty depth true xs = .ok text) :
    Reads (123 :: text ++ put_break pretty depth ++ [125]) (.obj ms) := by
  obtain ⟨body, rfl, hread⟩ := members_read h hne htext
  rw [if_pos rfl, nil_append]
  refine ⟨⟨123, _, rfl, rfl, by decide⟩, ?_⟩
  intro n rest hn _
  have hlen : 2 * body.length + 1 ≤ n - 1 := by
    simp only [length_append, length_cons] at hn
    omega
  obtain ⟨n, rfl⟩ := exists_eq_add_one_of_ne_zero (show n ≠ 0 by omega)
  have hskip : Rfc.skip (put_break pretty (depth + 1) ++ (34 :: (body ++ (put_break pretty depth ++ 125 :: rest)))) =
      34 :: (body ++ (put_break pretty depth ++ 125 :: rest)) := by
    rw [skip_blank (blank_break _ _), skip_head rfl]
  have hshape : 123 :: (put_break pretty (depth + 1) ++ 34 :: body) ++ put_break pretty depth ++ [125] ++ rest =
      123 :: (put_break pretty (depth + 1) ++ (34 :: (body ++ (put_break pretty depth ++ 125 :: rest)))) := by
    simp only [append_assoc, cons_append, nil_append]
  have hmembers := hread n (put_break pretty depth) rest (blank_break _ _) hlen
  rw [cons_append] at hmembers
  rw [hshape, Rfc.value_object hskip (by decide), hmembers, map_some]

/-! ## Any value -/

theorem forall₂_orderedInsert {α β : Type} {R : α → β → Prop} {r : α → α → Prop} {s : β → β → Prop}
    [DecidableRel r] [DecidableRel s] (hrs : ∀ a a' b b', R a b → R a' b' → (r a a' ↔ s b b')) {a : α} {b : β}
    (hab : R a b) {as : List α} {bs : List β} (h : Forall₂ R as bs) :
    Forall₂ R (as.orderedInsert r a) (bs.orderedInsert s b) := by
  induction h with
  | nil => exact .cons hab .nil
  | @cons a' b' as bs hab' has ih =>
    rw [orderedInsert_cons, orderedInsert_cons]
    by_cases hr : r a a'
    · rw [if_pos hr, if_pos ((hrs _ _ _ _ hab hab').mp hr)]
      exact .cons hab (.cons hab' has)
    · rw [if_neg hr, if_neg (fun hs => hr ((hrs _ _ _ _ hab hab').mpr hs))]
      exact .cons hab' ih

theorem forall₂_insertionSort {α β : Type} {R : α → β → Prop} {r : α → α → Prop} {s : β → β → Prop}
    [DecidableRel r] [DecidableRel s] (hrs : ∀ a a' b b', R a b → R a' b' → (r a a' ↔ s b b')) {as : List α}
    {bs : List β} (h : Forall₂ R as bs) : Forall₂ R (as.insertionSort r) (bs.insertionSort s) := by
  induction h with
  | nil => exact .nil
  | cons hab _ ih => exact forall₂_orderedInsert hrs hab ih

/-- What was written of a number is a text of RFC 8259. -/
structure Numeral (y : Yyjson) (s : Val) : Prop where
  raw : ∀ t out, s = .raw t → put_raw_number y t = .ok out → is_json_number out = true
  num : ∀ n out, s = .num n → put_number y n = .ok out → is_json_number out = true

theorem text_of_ok (out : Bytes) : text_of (.ok out) = out := rfl

variable {y : Yyjson}

mutual

theorem put_text_value_reads (form : Form) (depth : ℕ) : ∀ (v : Val) (out : Bytes), (∀ s ∈ v.scalars, Numeral y s) →
    put_text_value y form depth v = .ok out → Reads out (told y form.canonical v)
  | .null, out, _, h => by
      cases h
      exact reads_null
  | .bool b, out, _, h => by
      cases h
      exact reads_bool b
  | .raw s, out, hy, h => by
      rw [put_text_value] at h
      rw [told, h, text_of_ok]
      exact reads_number ((hy _ (mem_singleton_self _)).raw s out rfl h)
  | .num n, out, hy, h => by
      rw [put_text_value] at h
      rw [told, h, text_of_ok]
      exact reads_number ((hy _ (mem_singleton_self _)).num n out rfl h)
  | .str s, out, _, h => by
      exact reads_string h
  | .arr [], out, _, h => by
      cases h
      refine ⟨⟨91, [93], rfl, rfl, by decide⟩, ?_⟩
      intro n rest hn _
      obtain ⟨n, rfl⟩ := exists_eq_add_one_of_ne_zero (show n ≠ 0 by rintro rfl; exact absurd hn (by decide))
      rfl
  | .arr (item :: items), out, hy, h => by
      obtain ⟨text, htext, rfl⟩ := map_ok h
      rw [told]
      exact reads_array (put_text_items_reads form depth (item :: items) hy) (by simp [put_text_items]) htext
  | .obj [], out, _, h => by
      cases h
      refine ⟨⟨123, [125], rfl, rfl, by decide⟩, ?_⟩
      intro n rest hn _
      obtain ⟨n, rfl⟩ := exists_eq_add_one_of_ne_zero (show n ≠ 0 by rintro rfl; exact absurd hn (by decide))
      rw [told]
      cases form.canonical <;> rfl
  | .obj (member :: members), out, hy, h => by
      rw [put_text_value, if_neg (by simp)] at h
      obtain ⟨text, htext, rfl⟩ := map_ok h
      have hreads := put_text_members_reads form depth (member :: members) hy
      have hne : put_text_members y form depth (member :: members) ≠ [] := by
        simp [put_text_members]
      rw [told]
      by_cases hcanonical : form.canonical = true
      · rw [if_pos hcanonical] at htext ⊢
        refine reads_object (forall₂_insertionSort ?_ hreads) ?_ htext
        · rintro a a' b b' ⟨hkey, -⟩ ⟨hkey', -⟩
          rw [compare_members, hkey, hkey']
        · intro hnil
          have hlength := length_insertionSort (fun x y => compare_members x y ≤ 0)
            (put_text_members y form depth (member :: members))
          rw [hnil] at hlength
          exact hne (length_eq_zero_iff.mp hlength.symm)
      · rw [if_neg hcanonical] at htext ⊢
        exact reads_object hreads hne htext

theorem put_text_items_reads (form : Form) (depth : ℕ) : ∀ items : List Val, (∀ s ∈ scalars_items items, Numeral y s) →
    ReadsAll (put_text_items y form depth items) (told_items y form.canonical items)
  | [], _ => .nil
  | item :: items, hy => by
      rw [scalars_items, forall_mem_append] at hy
      exact .cons (fun out => put_text_value_reads form (depth + 1) item out hy.1)
        (put_text_items_reads form depth items hy.2)

theorem put_text_members_reads (form : Form) (depth : ℕ) : ∀ members : List (Key × Val),
    (∀ s ∈ scalars_members members, Numeral y s) →
      ReadsMembers (put_text_members y form depth members) (told_members y form.canonical members)
  | [], _ => .nil
  | (_, item) :: members, hy => by
      rw [scalars_members, forall_mem_cons, forall_mem_append] at hy
      exact .cons ⟨rfl, fun out => put_text_value_reads form (depth + 1) item out hy.2.1⟩
        (put_text_members_reads form depth members hy.2.2)

end

theorem Reads.text {out : Bytes} {w : Val} (h : Reads out w) : Rfc.text out = some w := by
  obtain ⟨b, s, hhead, hspace, -⟩ := h.head
  have hskip : Rfc.skip out = out := by rw [hhead, skip_head hspace]
  have hread := h.value (2 * out.length + 1) [] (by omega) rfl
  rw [append_nil] at hread
  rw [Rfc.text, hskip, hread, bind_some]
  rfl

end Cosmic.Json
