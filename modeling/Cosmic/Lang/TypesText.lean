/-
The text of a type, over the texts of its parts, says what the type is made of.

A text is an item: an atom's name, or a list in parentheses that begins with a word for the form.
So two types with one text have one form, and parts with the texts of each other's. This is used at
two levels: of the keys of the store's table, where the texts of the parts are their ids, and of
the canonical text.
-/
import Cosmic.Lang.TypesForm

set_option autoImplicit false

namespace Cosmic.Types

open Cosmic.Base

/-! ## Quotes -/

def quoted_byte (b : UInt8) : Bytes := if is_escaped b then 92 :: three_digits b.toNat else [b]

theorem quote_eq (s : Bytes) : quote s = 34 :: s.flatMap quoted_byte ++ [34] := rfl

theorem quoted_byte_spec (b : UInt8) : (∀ x ∈ quoted_byte b, x ≠ 34) ∧
    ((quoted_byte b = [b] ∧ b ≠ 92) ∨ quoted_byte b = 92 :: three_digits b.toNat) := by
  unfold quoted_byte
  by_cases h : is_escaped b = true
  · rw [if_pos h]
    refine ⟨?_, .inr rfl⟩
    have hlt := b.toNat_lt
    have hdigit : ∀ k, k < 10 → UInt8.ofNat (48 + k) ≠ 34 := by decide
    intro x hx
    rcases List.mem_cons.mp hx with rfl | hx
    · decide
    · simp only [three_digits, List.mem_cons, List.not_mem_nil, or_false] at hx
      rcases hx with rfl | rfl | rfl
      · exact hdigit _ (by omega)
      · exact hdigit _ (by omega)
      · exact hdigit _ (by omega)
  · rw [if_neg h]
    simp only [is_escaped, Bool.or_eq_true, beq_iff_eq, not_or] at h
    obtain ⟨⟨⟨-, h34⟩, h92⟩, -⟩ := h
    refine ⟨?_, .inl ⟨rfl, h92⟩⟩
    intro x hx
    rwa [List.mem_singleton.mp hx]

theorem three_digits_inj {m n : ℕ} (hm : m < 256) (hn : n < 256) (h : three_digits m = three_digits n) : m = n := by
  have hdigit : ∀ i j : ℕ, i < 10 → j < 10 → UInt8.ofNat (48 + i) = UInt8.ofNat (48 + j) → i = j := by
    intro i j hi hj h
    have h' := congrArg UInt8.toNat h
    simp only [UInt8.toNat_ofNat'] at h'
    omega
  simp only [three_digits, List.cons.injEq, and_true] at h
  obtain ⟨h₁, h₂, h₃⟩ := h
  have h₁' := hdigit _ _ (by omega) (by omega) h₁
  have h₂' := hdigit _ _ (by omega) (by omega) h₂
  have h₃' := hdigit _ _ (by omega) (by omega) h₃
  omega

theorem quoted_bytes_inj {s s' : Bytes} (h : s.flatMap quoted_byte = s'.flatMap quoted_byte) : s = s' := by
  have hne : ∀ b, quoted_byte b ≠ [] := by
    intro b
    rcases (quoted_byte_spec b).2 with ⟨h, -⟩ | h
    · rw [h]
      exact List.cons_ne_nil _ _
    · rw [h]
      exact List.cons_ne_nil _ _
  induction s generalizing s' with
  | nil =>
    cases s' with
    | nil => rfl
    | cons b' s' => exact absurd (List.append_eq_nil_iff.mp h.symm).1 (hne b')
  | cons b s ih =>
    cases s' with
    | nil => exact absurd (List.append_eq_nil_iff.mp h).1 (hne b)
    | cons b' s' =>
      rw [List.flatMap_cons, List.flatMap_cons] at h
      rcases (quoted_byte_spec b).2 with ⟨hb, h92⟩ | hb
      · rcases (quoted_byte_spec b').2 with ⟨hb', h92'⟩ | hb'
        · rw [hb, hb'] at h
          obtain ⟨rfl, hs⟩ := List.cons_eq_cons.mp h
          rw [ih hs]
        · rw [hb, hb'] at h
          exact absurd (List.cons_eq_cons.mp h).1 h92
      · rcases (quoted_byte_spec b').2 with ⟨hb', h92'⟩ | hb'
        · rw [hb, hb'] at h
          exact absurd (List.cons_eq_cons.mp h).1.symm h92'
        · rw [hb, hb', List.cons_append, List.cons_append, List.cons_eq_cons] at h
          obtain ⟨hd, hs⟩ := List.append_inj h.2 rfl
          rw [UInt8.toNat_inj.mp (three_digits_inj b.toNat_lt b'.toNat_lt hd), ih hs]

theorem item_quote (s : Bytes) : Item (quote s) := by
  rw [quote_eq]
  apply item_quotes
  intro x hx
  obtain ⟨b, -, hb⟩ := List.mem_flatMap.mp hx
  exact (quoted_byte_spec b).1 x hb

theorem quote_inj {s s' : Bytes} (h : quote s = quote s') : s = s' := by
  rw [quote_eq, quote_eq, List.cons_append, List.cons_append, List.cons_eq_cons] at h
  exact quoted_bytes_inj (List.append_cancel_right h.2)

def path_text (module name : Bytes) : Bytes := quote module ++ lit " " ++ quote name

/-! ## Words -/

theorem ne_of_isDigit {b x : UInt8} (h : isDigit b = true) (hx : isDigit x = false) : b ≠ x := by
  rintro rfl
  rw [h] at hx
  cases hx

theorem item_digits (n : ℕ) : Item (tostring n) := by
  apply item_word
  intro b hb
  have hd := isDigit_of_mem_tostring hb
  simp only [is_word_byte, Bool.and_eq_true, bne_iff_ne]
  exact ⟨⟨⟨ne_of_isDigit hd rfl, ne_of_isDigit hd rfl⟩, ne_of_isDigit hd rfl⟩, ne_of_isDigit hd rfl⟩

def MARKS : List Bytes := [lit "opt", lit "rest", lit "...", lit "is", lit "asserts"]

/-- A text that stands for a type: an item, and no other thing that stands where a type may. -/
structure Plain (w : Bytes) : Prop where
  item : Item w
  ne_nil : w ≠ []
  no_hole : w ≠ lit "_"
  no_mark : ∀ mark ∈ MARKS, ∀ ws : List Bytes, (∀ v ∈ ws, Item v ∧ v ≠ []) → w ≠ paren (mark :: ws)

theorem plain_of_first {w : Bytes} (hw : Item w) (h : ∃ b ∈ w.head?, b ≠ 40 ∧ b ≠ 95) : Plain w := by
  obtain ⟨b, hb, h40, h95⟩ := h
  refine ⟨hw, ?_, ?_, ?_⟩
  · rintro rfl
    cases hb
  · rintro rfl
    exact h95 (Option.some.inj hb).symm
  · rintro mark - ws - rfl
    exact h40 (Option.some.inj hb).symm

theorem plain_tostring (n : ℕ) : Plain (tostring n) := by
  apply plain_of_first (item_digits n)
  obtain ⟨b, s, hs⟩ := List.exists_cons_of_ne_nil (tostring_ne_nil n)
  have hd : isDigit b = true := isDigit_of_mem_tostring (by rw [hs]; exact List.mem_cons_self)
  exact ⟨b, by rw [hs]; rfl, ne_of_isDigit hd rfl, ne_of_isDigit hd rfl⟩

theorem item_lit {w : Bytes} (h : w.all is_word_byte = true) : Item w :=
  item_word fun b hb => List.all_eq_true.mp h b hb

/-! ## Forms as lists of items -/

section

variable {α : Type} (decl_text : ℕ → Bytes) (path : ℕ → Bytes × Bytes) (sub : α → Bytes)

theorem render_slot_eq (type : Bytes) (omittable : Bool) :
    render_slot type omittable = if omittable then paren [lit "opt", type] else type := by
  unfold render_slot
  split
  · simp [paren_cons, spaced, lit]
  · rfl

def alt_items (alt : Alt α) : List Bytes :=
  match alt.narrows with
  | some narrows =>
    [paren [if narrows.asserts then lit "asserts" else lit "is", tostring narrows.param, sub narrows.to_]]
  | none => alt.items.map sub ++ (alt.tail.map fun tail => paren [lit "...", sub tail]).toList

theorem render_alt_eq (alt : Alt α) : render_alt sub alt = paren (alt_items sub alt) := by
  obtain ⟨items, tail, narrows⟩ := alt
  unfold render_alt alt_items
  cases narrows with
  | some narrows =>
    cases h : narrows.asserts <;> simp [h, paren, concat, lit]
  | none =>
    cases tail with
    | none => simp [paren, lit]
    | some tail => simp [paren, concat, lit]

def slot_items (params : List (Param α)) (rest : Option α) : List Bytes :=
  params.map (fun p => if p.omittable then paren [lit "opt", sub p.type] else sub p.type) ++
    (rest.map fun rest => paren [lit "rest", sub rest]).toList

def form_items : Form α → List Bytes
  | .atom _ => []
  | .named d args value =>
    (if value then lit "val" else lit "ref") :: quote (path d).1 :: quote (path d).2 :: args.map sub
  | .array element mutable => [if mutable then lit "marray" else lit "array", sub element]
  | .map key value mutable => [if mutable then lit "mmap" else lit "map", sub key, sub value]
  | .union members nilable =>
    lit "union" :: members.map sub ++ if nilable then [lit "nil"] else []
  | .var depth index => [lit "var", tostring depth, tostring index]
  | .fn tparams params rest rets =>
    [lit "fn", paren (lit "tp" :: tparams.map fun bound => (bound.map sub).getD (lit "_")),
      paren (slot_items sub params rest), paren (lit "rets" :: rets.map (render_alt sub))]

theorem render_fn_eq (tparams : List (Option α)) (params : List (Param α)) (rest : Option α)
    (rets : List (Alt α)) : render decl_text sub (.fn tparams params rest rets) =
      paren (form_items path sub (.fn tparams params rest rets)) := by
  have hslots : params.map (fun p => render_slot (sub p.type) p.omittable) ++
      (rest.map (fun rest => lit "(rest " ++ sub rest ++ lit ")")).toList =
      slot_items sub params rest := by
    unfold slot_items
    have hparams : params.map (fun p => render_slot (sub p.type) p.omittable) =
        params.map fun p => if p.omittable then paren [lit "opt", sub p.type] else sub p.type :=
      List.map_congr_left fun p _ => render_slot_eq _ _
    rw [hparams]
    cases rest with
    | none => rfl
    | some r => simp [paren_cons, spaced, lit]
  simp only [render, form_items, hslots]
  generalize slot_items sub params rest = slots
  simp only [paren_cons, spaced_cons, spaced_nil]
  simp [paren, spaced, lit, List.flatMap_map]

theorem render_eq {form : Form α} (hform : ∀ tag, form ≠ .atom tag)
    (hd : ∀ d ∈ form.names, decl_text d = path_text (path d).1 (path d).2) :
    render decl_text sub form = paren (form_items path sub form) := by
  cases form with
  | atom tag => exact absurd rfl (hform tag)
  | named d args value =>
    rw [render, hd d rfl]
    cases value <;> simp [form_items, path_text, paren_cons, spaced, lit, List.flatMap_map]
  | array element mutable =>
    cases mutable <;> simp [render, form_items, paren_cons, spaced, lit]
  | map key value mutable =>
    cases mutable <;> simp [render, form_items, paren_cons, spaced, lit]
  | union members nilable =>
    cases nilable <;> simp [render, form_items, paren_cons, spaced, lit, List.flatMap_map]
  | var depth index => simp [render, form_items, paren_cons, spaced, lit]
  | fn tparams params rest rets => exact render_fn_eq decl_text path sub tparams params rest rets

/-! ## Every item of a text is one -/

variable {path sub}

theorem item_mark {w : Bytes} (h : w ∈ MARKS) : Item w ∧ w ≠ [] := by
  have hall : ∀ w ∈ MARKS, w.all is_word_byte = true ∧ w ≠ [] := by decide
  exact ⟨item_lit (hall w h).1, (hall w h).2⟩

theorem item_marked {mark w : Bytes} (hmark : mark ∈ MARKS) (hw : Item w) :
    Item (paren [mark, w]) ∧ paren [mark, w] ≠ [] := by
  refine ⟨item_paren ?_, paren_ne_nil _⟩
  intro v hv
  rcases List.mem_cons.mp hv with rfl | hv
  · exact (item_mark hmark).1
  · rwa [List.mem_singleton.mp hv]

theorem alt_items_item {alt : Alt α} (hp : ∀ p ∈ alt.parts, Plain (sub p)) :
    ∀ w ∈ alt_items sub alt, Item w ∧ w ≠ [] := by
  obtain ⟨items, tail, narrows⟩ := alt
  simp only [Alt.parts, List.mem_append, or_assoc] at hp
  intro w hw
  cases narrows with
  | some narrows =>
    rw [List.mem_singleton.mp hw]
    refine ⟨item_paren ?_, paren_ne_nil _⟩
    intro v hv
    simp only [List.mem_cons, List.not_mem_nil, or_false] at hv
    rcases hv with rfl | rfl | rfl
    · split
      · exact (item_mark (by decide)).1
      · exact (item_mark (by decide)).1
    · exact item_digits _
    · exact (hp _ (by simp)).item
  | none =>
    rcases List.mem_append.mp hw with hw | hw
    · obtain ⟨p, hpmem, rfl⟩ := List.mem_map.mp hw
      exact ⟨(hp p (.inl hpmem)).item, (hp p (.inl hpmem)).ne_nil⟩
    cases tail with
    | none => cases hw
    | some tail =>
      simp only [Option.map_some, Option.toList_some, List.mem_singleton] at hw
      subst hw
      exact item_marked (by decide) (hp tail (by simp)).item

theorem slot_items_item {params : List (Param α)} {rest : Option α}
    (hparams : ∀ p ∈ params, Plain (sub p.type)) (hrest : ∀ r ∈ rest, Plain (sub r)) :
    ∀ w ∈ slot_items sub params rest, Item w ∧ w ≠ [] := by
  intro w hw
  rcases List.mem_append.mp hw with hw | hw
  · obtain ⟨p, hp, rfl⟩ := List.mem_map.mp hw
    split
    · exact item_marked (by decide) (hparams p hp).item
    · exact ⟨(hparams p hp).item, (hparams p hp).ne_nil⟩
  · cases rest with
    | none => cases hw
    | some r =>
      simp only [Option.map_some, Option.toList_some, List.mem_singleton] at hw
      subst hw
      exact item_marked (by decide) (hrest r rfl).item

theorem bound_item {tparams : List (Option α)} (h : ∀ b ∈ tparams.reduceOption, Plain (sub b)) :
    ∀ w ∈ tparams.map (fun bound => (bound.map sub).getD (lit "_")), Item w ∧ w ≠ [] := by
  intro w hw
  obtain ⟨bound, hb, rfl⟩ := List.mem_map.mp hw
  cases bound with
  | none =>
    show Item (lit "_") ∧ lit "_" ≠ []
    exact ⟨item_lit (by decide), by decide⟩
  | some b =>
    have hplain := h b (List.reduceOption_mem_iff.mpr hb)
    exact ⟨hplain.item, hplain.ne_nil⟩

theorem item_list {word : Bytes} {ws : List Bytes} (hword : word.all is_word_byte = true)
    (h : ∀ w ∈ ws, Item w ∧ w ≠ []) : Item (paren (word :: ws)) ∧ paren (word :: ws) ≠ [] := by
  refine ⟨item_paren ?_, paren_ne_nil _⟩
  intro w hw
  rcases List.mem_cons.mp hw with rfl | hw
  · exact item_lit hword
  · exact (h w hw).1

variable (path)

def Form.word : Form α → Bytes
  | .atom _ => []
  | .named _ _ value => if value then lit "val" else lit "ref"
  | .array _ mutable => if mutable then lit "marray" else lit "array"
  | .map _ _ mutable => if mutable then lit "mmap" else lit "map"
  | .union _ _ => lit "union"
  | .var _ _ => lit "var"
  | .fn _ _ _ _ => lit "fn"

/-- The words that begin a type in parentheses. -/
def WORDS : List Bytes :=
  [lit "ref", lit "val", lit "array", lit "marray", lit "map", lit "mmap", lit "union", lit "var", lit "fn"]

theorem word_mem {form : Form α} (hform : ∀ tag, form ≠ .atom tag) : form.word ∈ WORDS := by
  cases form with
  | atom tag => exact absurd rfl (hform tag)
  | named d args value => cases value <;> simp [Form.word, WORDS]
  | array element mutable => cases mutable <;> simp [Form.word, WORDS]
  | map key value mutable => cases mutable <;> simp [Form.word, WORDS]
  | _ => simp [Form.word, WORDS]

theorem form_items_item {form : Form α} (hform : ∀ tag, form ≠ .atom tag) (hp : ∀ p ∈ form.parts, Plain (sub p)) :
    ∃ ws, form_items path sub form = form.word :: ws ∧ ∀ w ∈ ws, Item w ∧ w ≠ [] := by
  have hpart : ∀ p ∈ form.parts, Item (sub p) ∧ sub p ≠ [] := fun p hmem =>
    ⟨(hp p hmem).item, (hp p hmem).ne_nil⟩
  cases form with
  | atom tag => exact absurd rfl (hform tag)
  | named d args value =>
    refine ⟨_, rfl, ?_⟩
    intro w hw
    simp only [List.mem_cons, List.mem_map] at hw
    rcases hw with rfl | rfl | ⟨a, ha, rfl⟩
    · exact ⟨item_quote _, List.cons_ne_nil _ _⟩
    · exact ⟨item_quote _, List.cons_ne_nil _ _⟩
    · exact hpart a ha
  | array element mutable =>
    refine ⟨_, rfl, ?_⟩
    intro w hw
    rw [List.mem_singleton.mp hw]
    exact hpart element (by simp [Form.parts])
  | map key value mutable =>
    refine ⟨_, rfl, ?_⟩
    intro w hw
    simp only [List.mem_cons, List.not_mem_nil, or_false] at hw
    rcases hw with rfl | rfl
    · exact hpart key (by simp [Form.parts])
    · exact hpart value (by simp [Form.parts])
  | union members nilable =>
    refine ⟨_, rfl, ?_⟩
    intro w hw
    rcases List.mem_append.mp hw with hw | hw
    · obtain ⟨m, hm, rfl⟩ := List.mem_map.mp hw
      exact hpart m hm
    · cases nilable with
      | false => cases hw
      | true =>
        rw [List.mem_singleton.mp hw]
        exact ⟨item_lit (by decide), by decide⟩
  | var depth index =>
    refine ⟨_, rfl, ?_⟩
    intro w hw
    simp only [List.mem_cons, List.not_mem_nil, or_false] at hw
    rcases hw with rfl | rfl
    · exact ⟨item_digits depth, tostring_ne_nil depth⟩
    · exact ⟨item_digits index, tostring_ne_nil index⟩
  | fn tparams params rest rets =>
    simp only [Form.parts, List.mem_append, or_assoc] at hp
    have htp := item_list (show (lit "tp").all is_word_byte = true by decide)
      (bound_item fun b (hb : b ∈ tparams.reduceOption) => hp b (.inl hb))
    have hslots := slot_items_item (fun p (hmem : p ∈ params) => hp p.type (.inr (.inl (List.mem_map_of_mem hmem))))
      fun r (hr : r ∈ rest) => hp r (.inr (.inr (.inl (Option.mem_toList.mpr hr))))
    have hrets := item_list (show (lit "rets").all is_word_byte = true by decide) <| by
      intro w (hw : w ∈ rets.map (render_alt sub))
      obtain ⟨alt, halt, rfl⟩ := List.mem_map.mp hw
      rw [render_alt_eq]
      refine ⟨item_paren fun w hw => (alt_items_item ?_ w hw).1, paren_ne_nil _⟩
      intro p hpart
      exact hp p (.inr (.inr (.inr (List.mem_flatMap.mpr ⟨alt, halt, hpart⟩))))
    refine ⟨_, rfl, ?_⟩
    intro w hw
    simp only [List.mem_cons, List.not_mem_nil, or_false] at hw
    rcases hw with rfl | rfl | rfl
    · exact htp
    · exact ⟨item_paren fun w hw => (hslots w hw).1, paren_ne_nil _⟩
    · exact hrets

theorem word_item {form : Form α} (hform : ∀ tag, form ≠ .atom tag) :
    Item form.word ∧ form.word ≠ [] ∧ form.word ∉ MARKS := by
  have hall : ∀ w ∈ WORDS, w.all is_word_byte = true ∧ w ≠ [] ∧ w ∉ MARKS := by decide
  have h := hall form.word (word_mem hform)
  exact ⟨item_lit h.1, h.2⟩

end

/-! ## One text, one form -/

section

variable {α β : Type} (D : ℕ → ℕ → Prop) (R : α → β → Prop)

/-- The alternatives are the same over related parts. -/
def Alt.Rel (a : Alt α) (b : Alt β) : Prop :=
  match a.narrows, b.narrows with
  | some n, some m => n.param = m.param ∧ R n.to_ m.to_ ∧ n.asserts = m.asserts
  | none, none => List.Forall₂ R a.items b.items ∧ Option.Rel R a.tail b.tail
  | _, _ => False

/-- The forms are the same over related parts and declarations. -/
def Form.Rel : Form α → Form β → Prop
  | .atom tag, .atom tag' => tag = tag'
  | .named d args value, .named d' args' value' =>
    D d d' ∧ List.Forall₂ R args args' ∧ value = value'
  | .array element mutable, .array element' mutable' => R element element' ∧ mutable = mutable'
  | .map key value mutable, .map key' value' mutable' =>
    R key key' ∧ R value value' ∧ mutable = mutable'
  | .union members nilable, .union members' nilable' =>
    List.Forall₂ R members members' ∧ nilable = nilable'
  | .var depth index, .var depth' index' => depth = depth' ∧ index = index'
  | .fn tparams params rest rets, .fn tparams' params' rest' rets' =>
    List.Forall₂ (Option.Rel R) tparams tparams' ∧
      List.Forall₂ (fun p q => R p.type q.type ∧ p.omittable = q.omittable) params params' ∧
      Option.Rel R rest rest' ∧ List.Forall₂ (Alt.Rel R) rets rets'
  | _, _ => False

end

section

variable {α β : Type} {path path' : ℕ → Bytes × Bytes} {sub : α → Bytes} {sub' : β → Bytes}

/-- The two parts have one text. -/
abbrev Same (sub : α → Bytes) (sub' : β → Bytes) (a : α) (b : β) : Prop := sub a = sub' b

theorem forall₂_of_map {γ δ : Type} {f : γ → Bytes} {g : δ → Bytes} {l : List γ} {l' : List δ}
    (h : l.map f = l'.map g) : List.Forall₂ (fun a b => f a = g b) l l' := by
  have h' : List.Forall₂ (· = ·) (l.map f) (l'.map g) := by
    rwa [List.forall₂_eq_eq_eq]
  exact List.forall₂_map_right_iff.mp (List.forall₂_map_left_iff.mp h')

theorem last_cancel {γ δ ε ζ : Type} {f : γ → Bytes} {g : δ → Bytes} {k : ε → Bytes} {k' : ζ → Bytes}
    {l : List γ} {l' : List δ} {t : Option ε} {t' : Option ζ}
    (hl : ∀ a ∈ l, ∀ x ∈ t', f a ≠ k' x) (hl' : ∀ b ∈ l', ∀ x ∈ t, g b ≠ k x)
    (h : l.map f ++ (t.map k).toList = l'.map g ++ (t'.map k').toList) :
    l.map f = l'.map g ∧ t.map k = t'.map k' := by
  induction l generalizing l' with
  | nil =>
    cases l' with
    | nil =>
      refine ⟨rfl, ?_⟩
      cases t <;> cases t' <;> simp_all
    | cons b l' =>
      cases t with
      | none => cases h
      | some x =>
        have h' := (List.cons_eq_cons.mp h).1
        exact absurd h'.symm (hl' b List.mem_cons_self x rfl)
  | cons a l ih =>
    cases l' with
    | nil =>
      cases t' with
      | none => cases h
      | some x =>
        have h' := (List.cons_eq_cons.mp h).1
        exact absurd h' (hl a List.mem_cons_self x rfl)
    | cons b l' =>
      obtain ⟨hab, hrest⟩ := List.cons_eq_cons.mp h
      obtain ⟨hmap, ht⟩ := ih (fun c hc => hl c (List.mem_cons_of_mem a hc))
        (fun c hc => hl' c (List.mem_cons_of_mem b hc)) hrest
      exact ⟨by rw [List.map_cons, List.map_cons, hab, hmap], ht⟩

theorem marked_inj {mark mark' w w' : Bytes} (hm : mark ∈ MARKS) (hm' : mark' ∈ MARKS)
    (hw : Item w ∧ w ≠ []) (hw' : Item w' ∧ w' ≠ []) (h : paren [mark, w] = paren [mark', w']) :
    mark = mark' ∧ w = w' := by
  have hitems : ∀ {m v : Bytes}, m ∈ MARKS → Item v ∧ v ≠ [] → ∀ x ∈ [m, v], Item x ∧ x ≠ [] := by
    intro m v hm hv x hx
    rcases List.mem_cons.mp hx with rfl | hx
    · exact item_mark hm
    · rwa [List.mem_singleton.mp hx]
  have heq := paren_inj (hitems hm hw) (hitems hm' hw') h
  simpa using heq

theorem Plain.ne_marked {w v mark : Bytes} (hw : Plain w) (hm : mark ∈ MARKS) (hv : Item v ∧ v ≠ []) :
    w ≠ paren [mark, v] := by
  apply hw.no_mark mark hm
  intro x hx
  rwa [List.mem_singleton.mp hx]

theorem Plain.both {w : Bytes} (h : Plain w) : Item w ∧ w ≠ [] := ⟨h.item, h.ne_nil⟩

theorem narrows_item {γ : Type} {sub : γ → Bytes} {n : Narrows γ} (h : Plain (sub n.to_)) :
    (if n.asserts then lit "asserts" else lit "is") ∈ MARKS ∧
      ∀ w ∈ [tostring n.param, sub n.to_], Item w ∧ w ≠ [] := by
  constructor
  · split <;> decide
  · intro w hw
    simp only [List.mem_cons, List.not_mem_nil, or_false] at hw
    rcases hw with rfl | rfl
    · exact ⟨item_digits _, tostring_ne_nil _⟩
    · exact h.both

theorem narrows_ne_values {γ δ : Type} {sub : γ → Bytes} {sub' : δ → Bytes} {n : Narrows γ}
    (hn : Plain (sub n.to_)) {items : List δ} {tail : Option δ}
    (hitems : ∀ p ∈ items, Plain (sub' p)) (htail : ∀ p ∈ tail, Plain (sub' p)) :
    [paren [if n.asserts then lit "asserts" else lit "is", tostring n.param, sub n.to_]] ≠
      items.map sub' ++ (tail.map fun tail => paren [lit "...", sub' tail]).toList := by
  obtain ⟨hmark, hws⟩ := narrows_item hn
  intro h
  cases items with
  | nil =>
    cases tail with
    | none => cases h
    | some p =>
      have h' := (List.cons_eq_cons.mp h).1
      have hall : ∀ w ∈ [lit "...", sub' p], Item w ∧ w ≠ [] := by
        intro w hw
        rcases List.mem_cons.mp hw with rfl | hw
        · exact item_mark (by decide)
        · rw [List.mem_singleton.mp hw]
          exact (htail p rfl).both
      have heq := paren_inj (fun w hw => by
        rcases List.mem_cons.mp hw with rfl | hw
        · exact item_mark hmark
        · exact hws w hw) hall h'
      exact absurd (congrArg List.length heq) (by simp)
  | cons p items =>
    have h' := (List.cons_eq_cons.mp h).1
    exact (hitems p List.mem_cons_self).no_mark _ hmark _ hws h'.symm

theorem alt_rel {alt : Alt α} {alt' : Alt β} (hp : ∀ p ∈ alt.parts, Plain (sub p))
    (hp' : ∀ p ∈ alt'.parts, Plain (sub' p)) (h : render_alt sub alt = render_alt sub' alt') :
    Alt.Rel (Same sub sub') alt alt' := by
  have heq : alt_items sub alt = alt_items sub' alt' := by
    rw [render_alt_eq, render_alt_eq] at h
    exact paren_inj (alt_items_item hp) (alt_items_item hp') h
  obtain ⟨items, tail, narrows⟩ := alt
  obtain ⟨items', tail', narrows'⟩ := alt'
  simp only [Alt.parts, List.mem_append, or_assoc, Option.mem_toList] at hp hp'
  have hitems : ∀ p ∈ items, Plain (sub p) := fun p hmem => hp p (.inl hmem)
  have hitems' : ∀ p ∈ items', Plain (sub' p) := fun p hmem => hp' p (.inl hmem)
  have htail : ∀ p ∈ tail, Plain (sub p) := fun p hmem => hp p (.inr (.inl hmem))
  have htail' : ∀ p ∈ tail', Plain (sub' p) := fun p hmem => hp' p (.inr (.inl hmem))
  cases narrows with
  | some n =>
    have hn : Plain (sub n.to_) := hp _ (.inr (.inr rfl))
    cases narrows' with
    | some n' =>
      have hn' : Plain (sub' n'.to_) := hp' _ (.inr (.inr rfl))
      obtain ⟨hmark, hws⟩ := narrows_item hn
      obtain ⟨hmark', hws'⟩ := narrows_item hn'
      have hlist := paren_inj (fun w hw => by
        rcases List.mem_cons.mp hw with rfl | hw
        · exact item_mark hmark
        · exact hws w hw) (fun w hw => by
        rcases List.mem_cons.mp hw with rfl | hw
        · exact item_mark hmark'
        · exact hws' w hw) (List.cons_eq_cons.mp heq).1
      simp only [List.cons.injEq, and_true] at hlist
      refine ⟨tostring_inj hlist.2.1, hlist.2.2, ?_⟩
      cases ha : n.asserts <;> cases ha' : n'.asserts <;>
        simp only [ha, ha', Bool.false_eq_true, if_true, if_false] at hlist ⊢
      · exact absurd hlist.1 (by decide)
      · exact absurd hlist.1 (by decide)
    | none => exact absurd heq (narrows_ne_values hn hitems' htail')
  | none =>
    cases narrows' with
    | some n' =>
      have hn' : Plain (sub' n'.to_) := hp' _ (.inr (.inr rfl))
      exact absurd heq.symm (narrows_ne_values hn' hitems htail)
    | none =>
      have h' := last_cancel (fun a ha x hx => (hitems a ha).ne_marked (by decide) (htail' x hx).both)
        (fun a ha x hx => (hitems' a ha).ne_marked (by decide) (htail x hx).both) heq
      refine ⟨forall₂_of_map h'.1, ?_⟩
      cases tail with
      | none =>
        cases tail' with
        | none => exact .none
        | some x' => exact absurd h'.2 (by simp)
      | some x =>
        cases tail' with
        | none => exact absurd h'.2 (by simp)
        | some x' =>
          exact .some (marked_inj (by decide) (by decide) (htail x rfl).both
            (htail' x' rfl).both (Option.some.inj h'.2)).2

theorem marked_rel {mark : Bytes} (hm : mark ∈ MARKS) {t : Option α} {t' : Option β}
    (ht : ∀ x ∈ t, Plain (sub x)) (ht' : ∀ x ∈ t', Plain (sub' x))
    (h : t.map (fun x => paren [mark, sub x]) = t'.map fun x => paren [mark, sub' x]) :
    Option.Rel (Same sub sub') t t' := by
  cases t with
  | none =>
    cases t' with
    | none => exact .none
    | some x' => cases h
  | some x =>
    cases t' with
    | none => cases h
    | some x' =>
      exact .some (marked_inj hm hm (ht x rfl).both (ht' x' rfl).both (Option.some.inj h)).2

theorem slots_rel {params : List (Param α)} {params' : List (Param β)} {rest : Option α}
    {rest' : Option β} (hp : ∀ p ∈ params, Plain (sub p.type)) (hr : ∀ r ∈ rest, Plain (sub r))
    (hp' : ∀ p ∈ params', Plain (sub' p.type)) (hr' : ∀ r ∈ rest', Plain (sub' r))
    (h : slot_items sub params rest = slot_items sub' params' rest') :
    List.Forall₂ (fun p q => Same sub sub' p.type q.type ∧ p.omittable = q.omittable)
      params params' ∧ Option.Rel (Same sub sub') rest rest' := by
  -- a slot is no rest parameter
  have hslot : ∀ {γ δ : Type} {f : γ → Bytes} {g : δ → Bytes} {p : Param γ} {r : δ}, Plain (f p.type) → Plain (g r) →
      (if p.omittable then paren [lit "opt", f p.type] else f p.type) ≠ paren [lit "rest", g r] := by
    intro γ δ f g p r hf hg
    split
    · intro h
      exact absurd (marked_inj (by decide) (by decide) hf.both hg.both h).1 (by decide)
    · exact hf.ne_marked (by decide) hg.both
  have h' := last_cancel (fun p hpm r hrm => hslot (hp p hpm) (hr' r hrm))
    (fun p hpm r hrm => hslot (hp' p hpm) (hr r hrm)) h
  refine ⟨?_, marked_rel (by decide) hr hr' h'.2⟩
  have hall := forall₂_of_map h'.1
  clear h h' hr hr'
  induction hall with
  | nil => exact .nil
  | @cons p q params params' hpq _ ih =>
    refine .cons ?_ (ih (fun p hm => hp p (List.mem_cons_of_mem _ hm))
      fun p hm => hp' p (List.mem_cons_of_mem _ hm))
    have hpp := hp p List.mem_cons_self
    have hqq := hp' q List.mem_cons_self
    cases ho : p.omittable <;> cases ho' : q.omittable <;>
      simp only [ho, ho', Bool.false_eq_true, if_true, if_false] at hpq ⊢
    · exact ⟨hpq, trivial⟩
    · exact absurd hpq (hpp.ne_marked (by decide) hqq.both)
    · exact absurd hpq.symm (hqq.ne_marked (by decide) hpp.both)
    · exact ⟨(marked_inj (by decide) (by decide) hpp.both hqq.both hpq).2, trivial⟩

theorem bounds_rel {tparams : List (Option α)} {tparams' : List (Option β)}
    (hp : ∀ b ∈ tparams.reduceOption, Plain (sub b))
    (hp' : ∀ b ∈ tparams'.reduceOption, Plain (sub' b))
    (h : tparams.map (fun bound => (bound.map sub).getD (lit "_")) =
      tparams'.map fun bound => (bound.map sub').getD (lit "_")) :
    List.Forall₂ (Option.Rel (Same sub sub')) tparams tparams' := by
  have hall := forall₂_of_map h
  clear h
  induction hall with
  | nil => exact .nil
  | @cons b b' tparams tparams' hbb _ ih =>
    have hb : ∀ x, b = some x → Plain (sub x) := fun x hx =>
      hp x (List.reduceOption_mem_iff.mpr (hx ▸ List.mem_cons_self))
    have hb' : ∀ x, b' = some x → Plain (sub' x) := fun x hx =>
      hp' x (List.reduceOption_mem_iff.mpr (hx ▸ List.mem_cons_self))
    refine .cons ?_ (ih (fun x hx => hp x (List.reduceOption_mem_iff.mpr
        (List.mem_cons_of_mem _ (List.reduceOption_mem_iff.mp hx))))
      fun x hx => hp' x (List.reduceOption_mem_iff.mpr (List.mem_cons_of_mem _ (List.reduceOption_mem_iff.mp hx))))
    cases b with
    | none =>
      cases b' with
      | none => exact .none
      | some x' => exact absurd hbb.symm (hb' x' rfl).no_hole
    | some x =>
      cases b' with
      | none => exact absurd hbb (hb x rfl).no_hole
      | some x' => exact .some hbb

/-- Whether a word says what changes: `mut` collections, and the value of a declaration. -/
def flag_of (w : Bytes) : Bool := w = lit "val" || w = lit "marray" || w = lit "mmap"

/-- A number for each form that a word may begin. -/
def code_of (w : Bytes) : ℕ :=
  if w = lit "ref" ∨ w = lit "val" then 1
  else if w = lit "array" ∨ w = lit "marray" then 2
  else if w = lit "map" ∨ w = lit "mmap" then 3
  else if w = lit "union" then 4
  else if w = lit "var" then 5
  else 6

section

variable {γ : Type}

theorem word_named (d : ℕ) (args : List γ) (value : Bool) :
    code_of (Form.named d args value).word = 1 ∧ flag_of (Form.named d args value).word = value := by
  cases value <;> exact ⟨by simp only [Form.word]; decide, by simp only [Form.word]; decide⟩

theorem word_array (element : γ) (mutable : Bool) : code_of (Form.array element mutable).word = 2 ∧
      flag_of (Form.array element mutable).word = mutable := by
  cases mutable <;> exact ⟨by simp only [Form.word]; decide, by simp only [Form.word]; decide⟩

theorem word_map (key value : γ) (mutable : Bool) : code_of (Form.map key value mutable).word = 3 ∧
      flag_of (Form.map key value mutable).word = mutable := by
  cases mutable <;> exact ⟨by simp only [Form.word]; decide, by simp only [Form.word]; decide⟩

def Form.code : Form γ → ℕ
  | .atom _ => 0
  | .named _ _ _ => 1
  | .array _ _ => 2
  | .map _ _ _ => 3
  | .union _ _ => 4
  | .var _ _ => 5
  | .fn _ _ _ _ => 6

theorem code_of_word {form : Form γ} (hform : ∀ tag, form ≠ .atom tag) : code_of form.word = form.code := by
  cases form with
  | atom tag => exact absurd rfl (hform tag)
  | named d args value => exact (word_named d args value).1
  | array element mutable => exact (word_array element mutable).1
  | map key value mutable => exact (word_map key value mutable).1
  | union members nilable =>
    show code_of (lit "union") = 4
    decide
  | var depth index =>
    show code_of (lit "var") = 5
    decide
  | fn tparams params rest rets =>
    show code_of (lit "fn") = 6
    decide

end

abbrev SamePath (path path' : ℕ → Bytes × Bytes) (d d' : ℕ) : Prop := path d = path' d'

theorem fn_rel {tparams : List (Option α)} {params : List (Param α)} {rest : Option α}
    {rets : List (Alt α)} {tparams' : List (Option β)} {params' : List (Param β)} {rest' : Option β}
    {rets' : List (Alt β)}
    (hp : ∀ p ∈ (Form.fn tparams params rest rets).parts, Plain (sub p))
    (hp' : ∀ p ∈ (Form.fn tparams' params' rest' rets').parts, Plain (sub' p))
    (h : form_items path sub (.fn tparams params rest rets) =
      form_items path' sub' (.fn tparams' params' rest' rets')) :
    (Form.fn tparams params rest rets).Rel (SamePath path path') (Same sub sub')
      (.fn tparams' params' rest' rets') := by
  simp only [Form.parts, List.mem_append, or_assoc, Option.mem_toList] at hp hp'
  simp only [form_items, List.cons.injEq, and_true, true_and] at h
  obtain ⟨htp, hslots, hrets⟩ := h
  have hb : ∀ b ∈ tparams.reduceOption, Plain (sub b) := fun b hb => hp b (.inl hb)
  have hb' : ∀ b ∈ tparams'.reduceOption, Plain (sub' b) := fun b hb => hp' b (.inl hb)
  have hps : ∀ p ∈ params, Plain (sub p.type) := fun p hm =>
    hp p.type (.inr (.inl (List.mem_map_of_mem hm)))
  have hps' : ∀ p ∈ params', Plain (sub' p.type) := fun p hm =>
    hp' p.type (.inr (.inl (List.mem_map_of_mem hm)))
  have hrest : ∀ r ∈ rest, Plain (sub r) := fun r hr => hp r (.inr (.inr (.inl hr)))
  have hrest' : ∀ r ∈ rest', Plain (sub' r) := fun r hr => hp' r (.inr (.inr (.inl hr)))
  have halts : ∀ alt ∈ rets, ∀ p ∈ alt.parts, Plain (sub p) := fun alt ha p hm =>
    hp p (.inr (.inr (.inr (List.mem_flatMap.mpr ⟨alt, ha, hm⟩))))
  have halts' : ∀ alt ∈ rets', ∀ p ∈ alt.parts, Plain (sub' p) := fun alt ha p hm =>
    hp' p (.inr (.inr (.inr (List.mem_flatMap.mpr ⟨alt, ha, hm⟩))))
  have hitem : ∀ {γ : Type} {f : γ → Bytes} {alts : List (Alt γ)}, (∀ alt ∈ alts, ∀ p ∈ alt.parts, Plain (f p)) →
      ∀ w ∈ alts.map (render_alt f), Item w ∧ w ≠ [] := by
    intro γ f alts hall w hw
    obtain ⟨alt, ha, rfl⟩ := List.mem_map.mp hw
    rw [render_alt_eq]
    exact ⟨item_paren fun v hv => (alt_items_item (hall alt ha) v hv).1, paren_ne_nil _⟩
  have hcons : ∀ {w : Bytes} {ws : List Bytes}, w.all is_word_byte = true → w ≠ [] →
      (∀ v ∈ ws, Item v ∧ v ≠ []) → ∀ v ∈ w :: ws, Item v ∧ v ≠ [] := by
    intro w ws hw hne hall v hv
    rcases List.mem_cons.mp hv with rfl | hv
    · exact ⟨item_lit hw, hne⟩
    · exact hall v hv
  refine ⟨?_, ?_, ?_, ?_⟩
  · apply bounds_rel hb hb'
    exact (List.cons_eq_cons.mp (paren_inj (hcons (by decide) (by decide) (bound_item hb))
      (hcons (by decide) (by decide) (bound_item hb')) htp)).2
  · exact (slots_rel hps hrest hps' hrest'
      (paren_inj (slot_items_item hps hrest) (slot_items_item hps' hrest') hslots)).1
  · exact (slots_rel hps hrest hps' hrest'
      (paren_inj (slot_items_item hps hrest) (slot_items_item hps' hrest') hslots)).2
  · have hmap := (List.cons_eq_cons.mp (paren_inj (hcons (by decide) (by decide) (hitem halts))
      (hcons (by decide) (by decide) (hitem halts')) hrets)).2
    have hall := forall₂_of_map hmap
    clear hrets hmap hp hp'
    induction hall with
    | nil => exact .nil
    | @cons alt alt' _ _ heq _ ih =>
      exact .cons (alt_rel (halts alt List.mem_cons_self) (halts' alt' List.mem_cons_self) heq)
        (ih (fun a ha => halts a (List.mem_cons_of_mem _ ha))
          fun a ha => halts' a (List.mem_cons_of_mem _ ha))

/-- Two forms whose texts are equal are one form, over parts with equal texts. The texts of the
members of a union are not `nil`, which is written for its flag. -/
theorem render_rel {decl_text decl_text' : ℕ → Bytes} {form : Form α} {form' : Form β}
    (hd : ∀ d ∈ form.names, decl_text d = path_text (path d).1 (path d).2)
    (hd' : ∀ d ∈ form'.names, decl_text' d = path_text (path' d).1 (path' d).2)
    (hp : ∀ p ∈ form.parts, Plain (sub p)) (hp' : ∀ p ∈ form'.parts, Plain (sub' p))
    (hn : ∀ members nilable, form = .union members nilable → ∀ m ∈ members, sub m ≠ lit "nil")
    (hn' : ∀ members nilable, form' = .union members nilable → ∀ m ∈ members, sub' m ≠ lit "nil")
    (h : render decl_text sub form = render decl_text' sub' form') :
    form.Rel (SamePath path path') (Same sub sub') form' := by
  -- an atom's name is no list
  have hatom : ∀ (tag : Atom) (ws : List Bytes), tag.text ≠ paren ws := by
    intro tag ws h
    have h' := congrArg List.head? h
    cases tag <;> exact absurd (Option.some.inj h') (by decide)
  by_cases ha : ∃ tag, form = .atom tag
  · obtain ⟨tag, rfl⟩ := ha
    by_cases ha' : ∃ tag', form' = .atom tag'
    · obtain ⟨tag', rfl⟩ := ha'
      show tag = tag'
      have h' : tag.text = tag'.text := h
      revert h'
      cases tag <;> cases tag' <;> decide
    · rw [render_eq decl_text' path' sub' (fun tag h => ha' ⟨tag, h⟩) hd'] at h
      exact absurd h (hatom tag _)
  have hform : ∀ tag, form ≠ .atom tag := fun tag h => ha ⟨tag, h⟩
  by_cases ha' : ∃ tag', form' = .atom tag'
  · obtain ⟨tag', rfl⟩ := ha'
    rw [render_eq decl_text path sub hform hd] at h
    exact absurd h.symm (hatom tag' _)
  have hform' : ∀ tag, form' ≠ .atom tag := fun tag h => ha' ⟨tag, h⟩
  rw [render_eq decl_text path sub hform hd, render_eq decl_text' path' sub' hform' hd'] at h
  obtain ⟨ws, hws, hall⟩ := form_items_item path hform hp
  obtain ⟨ws', hws', hall'⟩ := form_items_item path' hform' hp'
  have hitems : form_items path sub form = form_items path' sub' form' := by
    apply paren_inj ?_ ?_ h
    · rw [hws]
      intro w hw
      rcases List.mem_cons.mp hw with rfl | hw
      · exact ⟨(word_item hform).1, (word_item hform).2.1⟩
      · exact hall w hw
    · rw [hws']
      intro w hw
      rcases List.mem_cons.mp hw with rfl | hw
      · exact ⟨(word_item hform').1, (word_item hform').2.1⟩
      · exact hall' w hw
  have hword : form.word = form'.word := by
    rw [hws, hws'] at hitems
    exact (List.cons_eq_cons.mp hitems).1
  have hcode : form.code = form'.code := by
    rw [← code_of_word hform, hword, code_of_word hform']
  cases form with
  | atom tag => exact absurd rfl (hform tag)
  | named d args value =>
    cases form' with
    | named d' args' value' =>
      have hflag := congrArg flag_of hword
      rw [(word_named d args value).2, (word_named d' args' value').2] at hflag
      simp only [form_items, List.cons.injEq] at hitems
      exact ⟨Prod.ext (quote_inj hitems.2.1) (quote_inj hitems.2.2.1), forall₂_of_map hitems.2.2.2, hflag⟩
    | _ => cases hcode
  | array element mutable =>
    cases form' with
    | array element' mutable' =>
      have hflag := congrArg flag_of hword
      rw [(word_array element mutable).2, (word_array element' mutable').2] at hflag
      simp only [form_items, List.cons.injEq, and_true] at hitems
      exact ⟨hitems.2, hflag⟩
    | _ => cases hcode
  | map key value mutable =>
    cases form' with
    | map key' value' mutable' =>
      have hflag := congrArg flag_of hword
      rw [(word_map key value mutable).2, (word_map key' value' mutable').2] at hflag
      simp only [form_items, List.cons.injEq, and_true] at hitems
      exact ⟨hitems.2.1, hitems.2.2, hflag⟩
    | _ => cases hcode
  | union members nilable =>
    cases form' with
    | union members' nilable' =>
      -- the flag, as one item that may be missing
      have hflag : ∀ b : Bool, (if b then [lit "nil"] else []) =
          ((if b then some () else none).map fun _ => lit "nil").toList := by decide
      have htail := (List.cons_eq_cons.mp hitems).2
      rw [hflag, hflag] at htail
      have h' := last_cancel (fun m hm _ _ => hn members nilable rfl m hm)
        (fun m hm _ _ => hn' members' nilable' rfl m hm) htail
      refine ⟨forall₂_of_map h'.1, ?_⟩
      have hnil := h'.2
      revert hnil
      cases nilable <;> cases nilable' <;> decide
    | _ => cases hcode
  | var depth index =>
    cases form' with
    | var depth' index' =>
      simp only [form_items, List.cons.injEq, and_true, true_and] at hitems
      exact ⟨tostring_inj hitems.1, tostring_inj hitems.2⟩
    | _ => cases hcode
  | fn tparams params rest rets =>
    cases form' with
    | fn tparams' params' rest' rets' => exact fn_rel hp hp' hitems
    | _ => cases hcode

end

end Cosmic.Types
