/-
Texts made of items: words, quoted strings and parenthesised lists of items, with spaces between.

`item` is the item a text begins with. It is found without knowing how the text was made, so two
texts that begin with items begin with the same one when they are equal, and so do lists of items.
-/
import Cosmic.Base.Text

set_option autoImplicit false

namespace Cosmic.Base

open List

/-- The item a text begins with: the bytes before the first space or `)` that is in no parentheses
and no quotes. `depth` counts the parentheses that are open, and `quoted` is whether a quote is. -/
def item : ℕ → Bool → Bytes → Bytes
  | _, _, [] => []
  | depth, true, b :: s => b :: item depth (b != 34) s
  | 0, false, b :: s =>
    if b = 32 ∨ b = 41 then []
    else if b = 40 then b :: item 1 false s
    else b :: item 0 (b == 34) s
  | depth + 1, false, b :: s =>
    if b = 40 then b :: item (depth + 2) false s
    else if b = 41 then b :: item depth false s
    else b :: item (depth + 1) (b == 34) s

/-- A text that an item goes on after as it was before. -/
def Item (w : Bytes) : Prop := ∀ depth u, item depth false (w ++ u) = w ++ item depth false u

/-- A text that, in parentheses, an item goes on after as it was before. -/
def Inner (w : Bytes) : Prop := ∀ depth u, item (depth + 1) false (w ++ u) = w ++ item (depth + 1) false u

/-- What stands after an item: nothing, a space or a `)`. -/
def Delimited (u : Bytes) : Prop := u = [] ∨ ∃ s, u = 32 :: s ∨ u = 41 :: s

theorem Item.inner {w : Bytes} (h : Item w) : Inner w := fun depth u => h (depth + 1) u

theorem inner_nil : Inner [] := fun _ _ => rfl

theorem Inner.append {w w' : Bytes} (h : Inner w) (h' : Inner w') : Inner (w ++ w') := by
  intro depth u
  rw [append_assoc, h, h', append_assoc]

theorem inner_space : Inner [32] := fun _ _ => rfl

def is_word_byte (b : UInt8) : Bool := b != 32 && b != 34 && b != 40 && b != 41

theorem item_word {w : Bytes} (h : ∀ b ∈ w, is_word_byte b = true) : Item w := by
  intro depth u
  induction w with
  | nil => rfl
  | cons b w ih =>
    have hb := h b mem_cons_self
    simp only [is_word_byte, Bool.and_eq_true, bne_iff_ne, ne_eq] at hb
    obtain ⟨⟨⟨h32, h34⟩, h40⟩, h41⟩ := hb
    have hq : (b == 34) = false := by simpa using h34
    have ih' := ih fun a ha => h a (mem_cons_of_mem b ha)
    cases depth with
    | zero =>
      rw [cons_append, item, if_neg (by rintro (h | h) <;> contradiction), if_neg h40, hq, ih', cons_append]
    | succ depth => rw [cons_append, item, if_neg h40, if_neg h41, hq, ih', cons_append]

theorem item_parens {w : Bytes} (h : Inner w) : Item (40 :: w ++ [41]) := by
  intro depth u
  have hclose : item (depth + 1) false (41 :: u) = 41 :: item depth false u := rfl
  have hopen : ∀ v, item depth false (40 :: v) = 40 :: item (depth + 1) false v := by
    intro v
    cases depth with
    | zero => rfl
    | succ depth => rfl
  rw [append_assoc, cons_append, hopen, h, singleton_append, hclose]
  simp

/-- A string in quotes that has no quote in it. -/
theorem item_quotes {w : Bytes} (h : ∀ b ∈ w, b ≠ 34) : Item (34 :: w ++ [34]) := by
  intro depth u
  have hopen : ∀ v, item depth false (34 :: v) = 34 :: item depth true v := by
    intro v
    cases depth with
    | zero => rfl
    | succ depth => rfl
  have hquoted : item depth true (w ++ 34 :: u) = w ++ 34 :: item depth false u := by
    induction w with
    | nil => cases depth <;> rfl
    | cons b w ih =>
      have hb : (b != 34) = true := by simpa using h b mem_cons_self
      have ih' := ih fun a ha => h a (mem_cons_of_mem b ha)
      cases depth with
      | zero => rw [cons_append, item, hb, ih', cons_append]
      | succ depth => rw [cons_append, item, hb, ih', cons_append]
  rw [append_assoc, cons_append, hopen, singleton_append, hquoted]
  simp

theorem item_delimited {u : Bytes} (h : Delimited u) : item 0 false u = [] := by
  rcases h with rfl | ⟨s, rfl | rfl⟩ <;> rfl

theorem delimited_space (u : Bytes) : Delimited (32 :: u) := .inr ⟨u, .inl rfl⟩

theorem delimited_close (u : Bytes) : Delimited (41 :: u) := .inr ⟨u, .inr rfl⟩

theorem Item.cancel {w w' u u' : Bytes} (hw : Item w) (hw' : Item w') (hu : Delimited u)
    (hu' : Delimited u') (h : w ++ u = w' ++ u') : w = w' ∧ u = u' := by
  have heq := congrArg (item 0 false) h
  rw [hw, hw', item_delimited hu, item_delimited hu', append_nil, append_nil] at heq
  subst heq
  exact ⟨rfl, append_cancel_left h⟩

theorem Item.not_delimited {w u : Bytes} (hw : Item w) (hne : w ≠ []) : ¬Delimited (w ++ u) := by
  intro h
  have heq := item_delimited h
  rw [hw] at heq
  exact hne (append_eq_nil_iff.mp heq).1

/-! ## Lists of items -/

def spaced (ws : List Bytes) : Bytes := ws.flatMap fun w => 32 :: w

@[simp] theorem spaced_nil : spaced [] = [] := rfl

@[simp] theorem spaced_cons (w : Bytes) (ws : List Bytes) : spaced (w :: ws) = 32 :: w ++ spaced ws := rfl

theorem delimited_spaced (ws : List Bytes) (u : Bytes) : Delimited (spaced ws ++ 41 :: u) := by
  cases ws with
  | nil => exact delimited_close u
  | cons w ws => exact delimited_space (w ++ spaced ws ++ 41 :: u)

theorem spaced_cancel {ws ws' : List Bytes} {u u' : Bytes} (hw : ∀ w ∈ ws, Item w)
    (hw' : ∀ w ∈ ws', Item w) (h : spaced ws ++ 41 :: u = spaced ws' ++ 41 :: u') :
    ws = ws' ∧ u = u' := by
  induction ws generalizing ws' with
  | nil =>
    cases ws' with
    | nil => exact ⟨rfl, (cons_eq_cons.mp h).2⟩
    | cons w' ws' => exact absurd (cons_eq_cons.mp h).1 (by decide)
  | cons w ws ih =>
    cases ws' with
    | nil => exact absurd (cons_eq_cons.mp h).1 (by decide)
    | cons w' ws' =>
      simp only [spaced_cons, cons_append, append_assoc, cons_eq_cons, true_and] at h
      obtain ⟨rfl, hrest⟩ := (hw w mem_cons_self).cancel (hw' w' mem_cons_self)
        (delimited_spaced ws u) (delimited_spaced ws' u') h
      obtain ⟨rfl, rfl⟩ := ih (fun v hv => hw v (mem_cons_of_mem w hv))
        (fun v hv => hw' v (mem_cons_of_mem w hv)) hrest
      exact ⟨rfl, rfl⟩

/-- `table.concat(parts, sep)` -/
def concat (sep : Bytes) : List Bytes → Bytes
  | [] => []
  | [p] => p
  | p :: q :: ps => p ++ sep ++ concat sep (q :: ps)

theorem cons_concat (w : Bytes) (ws : List Bytes) : 32 :: concat [32] (w :: ws) = spaced (w :: ws) := by
  induction ws generalizing w with
  | nil => simp [concat, spaced]
  | cons v ws ih =>
    rw [concat, spaced_cons, ← ih v]
    simp

theorem inner_concat {ws : List Bytes} (h : ∀ w ∈ ws, Inner w) : Inner (concat [32] ws) := by
  induction ws with
  | nil => exact inner_nil
  | cons w ws ih =>
    cases ws with
    | nil => exact h w mem_cons_self
    | cons v ws =>
      have hw := (h w mem_cons_self).append inner_space
      exact hw.append (ih fun x hx => h x (mem_cons_of_mem w hx))

theorem concat_cancel {ws ws' : List Bytes} {u u' : Bytes} (hw : ∀ w ∈ ws, Item w ∧ w ≠ [])
    (hw' : ∀ w ∈ ws', Item w ∧ w ≠ [])
    (h : concat [32] ws ++ 41 :: u = concat [32] ws' ++ 41 :: u') : ws = ws' ∧ u = u' := by
  -- an item does not begin as what follows a list does
  have hne : ∀ {w ws u u'}, Item w ∧ w ≠ [] → concat [32] (w :: ws) ++ 41 :: u ≠ 41 :: u' := by
    intro w ws u u' hw h
    obtain ⟨v, hv⟩ : ∃ v, concat [32] (w :: ws) ++ 41 :: u = w ++ v := by
      cases ws with
      | nil => exact ⟨_, rfl⟩
      | cons x ws => exact ⟨_, by rw [concat, append_assoc, append_assoc]⟩
    apply hw.1.not_delimited hw.2
    rw [← hv, h]
    exact delimited_close u'
  cases ws with
  | nil =>
    cases ws' with
    | nil => exact ⟨rfl, (cons_eq_cons.mp h).2⟩
    | cons w' ws' => exact absurd h.symm (hne (hw' w' mem_cons_self))
  | cons w ws =>
    cases ws' with
    | nil => exact absurd h (hne (hw w mem_cons_self))
    | cons w' ws' =>
      have h' := congrArg (fun s => 32 :: s) h
      simp only [← cons_append, cons_concat] at h'
      exact spaced_cancel (fun v hv => (hw v hv).1) (fun v hv => (hw' v hv).1) h'

/-! ## Lists in parentheses -/

/-- Items in parentheses, with spaces between. -/
def paren (ws : List Bytes) : Bytes := 40 :: concat [32] ws ++ [41]

theorem item_paren {ws : List Bytes} (h : ∀ w ∈ ws, Item w) : Item (paren ws) :=
  item_parens (inner_concat fun w hw => (h w hw).inner)

theorem paren_ne_nil (ws : List Bytes) : paren ws ≠ [] := cons_ne_nil _ _

theorem paren_inj {ws ws' : List Bytes} (hw : ∀ w ∈ ws, Item w ∧ w ≠ [])
    (hw' : ∀ w ∈ ws', Item w ∧ w ≠ []) (h : paren ws = paren ws') : ws = ws' :=
  (concat_cancel hw hw' (cons_eq_cons.mp h).2).1

/-- The items after a first, each after a space. -/
theorem paren_cons (w : Bytes) (ws : List Bytes) : paren (w :: ws) = 40 :: w ++ spaced ws ++ [41] := by
  have h := cons_concat w ws
  rw [spaced_cons, cons_append, cons_eq_cons] at h
  unfold paren
  rw [h.2]
  rfl

end Cosmic.Base
