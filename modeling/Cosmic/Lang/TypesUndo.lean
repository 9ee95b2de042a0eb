/-
Taking back what a decode did.

A decode that is open journals what it does apart from the types and declarations it makes, which
are the last of their lists. So each step it takes adds what rolling back then takes away, the last
first: rolling back after the step is rolling back before it.
-/
import Cosmic.Lang.TypesDeclare

set_option autoImplicit false

namespace Cosmic.Types

open Cosmic.Base List Option Nat

/-! ## One thing taken back -/

section

variable {α : Type}

theorem modify_modify {l : List α} {d : ℕ} {x : α} (hd : at_id l d = some x) {f g : α → α}
    (h : g (f x) = x) : (l.modify (d - 1) f).modify (d - 1) g = l := by
  cases d with
  | zero => cases hd
  | succ d =>
    have hx : l[d]? = some x := hd
    apply ext_getElem?
    intro i
    rw [getElem?_modify, getElem?_modify]
    by_cases hi : d + 1 - 1 = i
    · have hi' : d = i := by omega
      subst hi'
      rw [hx]
      simp [h]
    · simp only [hi, if_false]
      cases l[i]? <;> rfl

theorem modify_append {l : List α} {d : ℕ} (h₁ : 1 ≤ d) (h₂ : d ≤ l.length) (f : α → α) (l' : List α) :
    (l ++ l').modify (d - 1) f = l.modify (d - 1) f ++ l' := by
  apply ext_getElem?
  intro i
  rw [getElem?_modify]
  by_cases hi : i < l.length
  · rw [getElem?_append_left hi, getElem?_append_left (by rwa [length_modify]), getElem?_modify]
  · have hne : d - 1 ≠ i := by omega
    rw [getElem?_append_right (Nat.le_of_not_lt hi),
      getElem?_append_right (by rw [length_modify]; omega), length_modify]
    simp only [hne, if_false]
    cases l'[i - l.length]? <;> rfl

end

theorem foldl_frame {σ ε : Type} {f : σ → ε → σ} {u : σ → σ} {I : σ → Prop} {es : List ε}
    (h : ∀ e ∈ es, ∀ s, I s → f (u s) e = u (f s e)) (hI : ∀ e ∈ es, ∀ s, I s → I (f s e)) {s : σ}
    (hs : I s) : es.foldl f (u s) = u (es.foldl f s) ∧ I (es.foldl f s) := by
  induction es generalizing s with
  | nil => exact ⟨rfl, hs⟩
  | cons e es ih =>
    rw [foldl_cons, foldl_cons, h e mem_cons_self s hs]
    exact ih (fun e' he' => h e' (mem_cons_of_mem e he'))
      (fun e' he' => hI e' (mem_cons_of_mem e he')) (hI e mem_cons_self s hs)

/-- The uses that wait, less the last of those that wait at `key`. -/
def shed (pending : Entries Bytes (List ℕ)) (key : Bytes) : Entries Bytes (List ℕ) :=
  match pending key with
  | none => pending
  | some uses =>
    if uses.dropLast = [] then pending.clear key else pending.enter key uses.dropLast

theorem undo_use (s : Store) (key : Bytes) : s.undo (.use key) = { s with pending := shed s.pending key } := by
  unfold Store.undo shed
  dsimp only
  cases s.pending key with
  | none => rfl
  | some uses =>
    dsimp only
    split
    · rfl
    · rfl

theorem drop_decl_eq (s : Store) (d : ℕ) : s.drop_decl d = { s with
    declared := match s.decl d with
      | none => s.declared
      | some decl => s.declared.clear decl.key } := by
  unfold Store.drop_decl
  cases s.decl d with
  | none => rfl
  | some decl => rfl

/-! ## What rolling back is made of -/

/-- What rolling back leaves when all that was done is taken back. -/
def Store.cut (s : Store) (mark : Mark) : Store :=
  { s with
    journal := s.journal.take mark.journal
    list := s.list.take mark.decls
    types := s.types.take mark.count
    count := mark.count
    building := fun path => s.building path && !(s.building_order.drop mark.building).contains path
    building_order := s.building_order.take mark.building
    depth := mark.depth
    decls := s.decls.take mark.made }

/-- What undoing and taking declarations back keep of the store `s₀`: all but bodies and arities,
uses that wait and the table of declarations. -/
structure Rolled (s₀ s : Store) : Prop where
  types : s.types = s₀.types
  interned : s.interned = s₀.interned
  list : s.list = s₀.list
  length : s.decls.length = s₀.decls.length
  head : ∀ d, (s.decl d).map Decl.head = (s₀.decl d).map Decl.head

namespace Rolled

variable {s₀ s : Store}

theorem refl (s : Store) : Rolled s s := ⟨rfl, rfl, rfl, rfl, fun _ => rfl⟩

theorem undo (h : Rolled s₀ s) {e : Undo} (he : ∀ d arity, e = .decl d arity → 1 ≤ d) : Rolled s₀ (s.undo e) := by
  cases e with
  | decl d arity =>
    refine ⟨h.types, h.interned, h.list, (length_modify ..).trans h.length, ?_⟩
    intro d'
    rw [← h.head d']
    show (at_id (s.decls.modify (d - 1) _) d').map Decl.head = (at_id s.decls d').map Decl.head
    rw [at_id_modify (he d arity rfl)]
    split
    · rw [Option.map_map]
      rfl
    · rfl
  | use key =>
    rw [undo_use]
    exact ⟨h.types, h.interned, h.list, h.length, h.head⟩
  | pending key list => exact ⟨h.types, h.interned, h.list, h.length, h.head⟩

theorem drop_decl (h : Rolled s₀ s) (d : ℕ) : Rolled s₀ (s.drop_decl d) := by
  rw [drop_decl_eq]
  exact ⟨h.types, h.interned, h.list, h.length, h.head⟩

theorem decl_text (h : Rolled s₀ s) (d : ℕ) : s.decl_text d = s₀.decl_text d := by
  have hhead := h.head d
  unfold Store.decl_text
  cases hd : s.decl d with
  | none =>
    cases hd₀ : s₀.decl d with
    | none => rfl
    | some decl₀ =>
      rw [hd, hd₀] at hhead
      cases hhead
  | some decl =>
    cases hd₀ : s₀.decl d with
    | none =>
      rw [hd, hd₀] at hhead
      cases hhead
    | some decl₀ =>
      rw [hd, hd₀] at hhead
      simp only [map_some, getD_some]
      exact Decl.head_text (some.inj hhead)

theorem key_of (h : Rolled s₀ s) (form : Form ℕ) : s.key_of form = s₀.key_of form :=
  render_congr (fun d _ => h.decl_text d) fun _ _ => rfl

end Rolled

/-- The store with the journal undone from `mark` on. -/
def Store.undone (s : Store) (mark : Mark) : Store := (s.journal.drop mark.journal).reverse.foldl Store.undo s

/-- The store with that and the declarations made since taken back. -/
def Store.undeclared (s : Store) (mark : Mark) : Store :=
  (s.list.drop mark.decls).reverse.foldl Store.drop_decl (s.undone mark)

/-- The store with that and the types made since taken back. -/
def Store.unmade (s : Store) (mark : Mark) : Store :=
  ((s.types.drop mark.count).map Cell.form).reverse.foldl Store.drop_type (s.undeclared mark)

/-- The store holds what it held at `mark`. -/
structure Within (mark : Mark) (s : Store) : Prop where
  count : mark.count ≤ s.types.length
  decls : mark.decls ≤ s.list.length
  journal : mark.journal ≤ s.journal.length
  made : mark.made ≤ s.decls.length

section

variable {s : Store} {mark : Mark}

theorem undone_rolled (hj : Logged s) (mark : Mark) : Rolled s (s.undone mark) := by
  have h := @foldl_frame Store Undo Store.undo id (Rolled s)
    (s.journal.drop mark.journal).reverse (fun _ _ _ _ => rfl) ?_ s (Rolled.refl s)
  · exact h.2
  · intro e he s' hs'
    apply hs'.undo
    rintro d arity rfl
    exact (hj (mem_of_mem_drop (mem_reverse.mp he))).1

theorem undeclared_rolled (hj : Logged s) (mark : Mark) : Rolled s (s.undeclared mark) := by
  exact (foldl_frame (f := Store.drop_decl) (u := id) (fun _ _ _ _ => rfl)
    (fun d _ _ hs' => hs'.drop_decl d) (undone_rolled hj mark)).2

theorem roll_back_eq (hj : Logged s) (mark : Mark) : roll_back s mark = (s.unmade mark).cut mark := by
  have hlist : (s.undone mark).list = s.list := (undone_rolled hj mark).list
  have htypes : (s.undeclared mark).types = s.types := (undeclared_rolled hj mark).types
  have hundeclared : ((s.undone mark).list.drop mark.decls).reverse.foldl Store.drop_decl
      (s.undone mark) = s.undeclared mark := by
    rw [hlist]
    rfl
  have hunmade : (((s.undeclared mark).types.drop mark.count).map Cell.form).reverse.foldl
      Store.drop_type (s.undeclared mark) = s.unmade mark := by
    rw [htypes]
    rfl
  have h : roll_back s mark = (fun b : Store =>
      (((b.types.drop mark.count).map Cell.form).reverse.foldl Store.drop_type b).cut mark)
      (((s.undone mark).list.drop mark.decls).reverse.foldl Store.drop_decl (s.undone mark)) := rfl
  rw [h, hundeclared]
  dsimp only
  rw [hunmade]

/-- Rolling back to where the store is changes nothing. -/
theorem roll_back_mark (hj : Logged s) (hcount : s.count = s.types.length) : roll_back s s.mark = s := by
  rw [roll_back_eq hj]
  have hunmade : s.unmade s.mark = s := by
    unfold Store.unmade Store.undeclared Store.undone Store.mark
    simp only [hcount, drop_length, reverse_nil, map_nil, foldl_nil]
  rw [hunmade]
  unfold Store.cut Store.mark
  simp only [hcount, take_length, drop_length, contains_nil, Bool.not_false, Bool.and_true]
  rw [← hcount]

theorem undone_declared (s : Store) (mark : Mark) : (s.undone mark).declared = s.declared := by
  refine (foldl_frame (f := Store.undo) (u := id) (I := fun x => x.declared = s.declared)
    (fun _ _ _ _ => rfl) ?_ rfl).2
  intro e _ x hx
  cases e with
  | decl d arity => exact hx
  | use key =>
    rwa [undo_use]
  | pending key list => exact hx

theorem unmade_rolled (hj : Logged s) (mark : Mark) :
    (s.unmade mark).types = s.types ∧ (s.unmade mark).list = s.list ∧
      (s.unmade mark).decls.length = s.decls.length := by
  have hr := undeclared_rolled hj mark
  exact (foldl_frame (f := Store.drop_type) (u := id)
    (I := fun x => x.types = s.types ∧ x.list = s.list ∧ x.decls.length = s.decls.length)
    (fun _ _ _ _ => rfl) (fun _ _ _ hx => hx) ⟨hr.types, hr.list, hr.length⟩).2

/-! ## What a step did is taken back -/

variable {o : Outside}

theorem cut_add (hs : Sound o s) (hw : Within mark s) {form : Form ℕ} (hm : Makes s form) :
    ((s.add o form).unmade mark).cut mark = (s.unmade mark).cut mark := by
  let u : Store → Store := fun x =>
    { x with
      count := (s.add o form).count
      types := (s.add o form).types
      interned := (s.add o form).interned }
  let v : Store → Store := fun x =>
    { x with
      count := (s.add o form).count
      types := (s.add o form).types }
  have hrolled := undeclared_rolled hs.journal.made mark
  have hundone : (s.add o form).undone mark = u (s.undone mark) := by
    refine (foldl_frame (f := Store.undo) (u := u) (I := fun _ => True) ?_ (fun _ _ _ _ => trivial) trivial).1
    intro e _ x _
    cases e with
    | decl d arity => rfl
    | use key =>
      rw [undo_use, undo_use]
    | pending key list => rfl
  have hundeclared : (s.add o form).undeclared mark = u (s.undeclared mark) := by
    unfold Store.undeclared
    rw [hundone]
    refine (foldl_frame (f := Store.drop_decl) (u := u) (I := fun _ => True) ?_ (fun _ _ _ _ => trivial) trivial).1
    intro d _ x _
    rw [drop_decl_eq, drop_decl_eq]
    rfl
  -- the type is the first to be taken back
  have hfirst : (u (s.undeclared mark)).drop_type form = v (s.undeclared mark) := by
    have hkey : (u (s.undeclared mark)).key_of form = s.key_of form := hrolled.key_of form
    unfold Store.drop_type
    rw [hkey]
    show { u (s.undeclared mark) with
      interned := (s.interned.enter (s.key_of form) (s.count + 1)).clear (s.key_of form) } = _
    rw [Entries.clear_enter hm.new, ← hrolled.interned]
  have hunmade : (s.add o form).unmade mark = v (s.unmade mark) := by
    unfold Store.unmade
    have hforms : (((s.add o form).types.drop mark.count).map Cell.form).reverse =
        form :: ((s.types.drop mark.count).map Cell.form).reverse := by
      show (((s.types ++ [s.cell_of o form]).drop mark.count).map Cell.form).reverse = _
      rw [drop_append_of_le_length hw.count, map_append, reverse_append]
      rfl
    rw [hforms, foldl_cons, hundeclared, hfirst]
    exact (foldl_frame (f := Store.drop_type) (u := v) (I := fun _ => True) (fun _ _ _ _ => rfl)
      (fun _ _ _ _ => trivial) trivial).1
  rw [hunmade]
  have htake : (s.types ++ [s.cell_of o form]).take mark.count = (s.unmade mark).types.take mark.count := by
    rw [take_append_of_le_length hw.count, (unmade_rolled hs.journal.made mark).1]
  unfold Store.cut
  show ({ s.unmade mark with
    journal := _, list := _, types := (s.types ++ [s.cell_of o form]).take mark.count, count := _
    building := _, building_order := _, depth := _, decls := _ } : Store) = _
  rw [htake]

theorem cut_add_decl (hs : Sound o s) (hw : Within mark s) {decl : Decl} (hkey : s.declared decl.key = none) :
    ((s.add_decl decl.key decl).unmade mark).cut mark = (s.unmade mark).cut mark := by
  let s' := s.add_decl decl.key decl
  let u : Store → Store := fun x =>
    { x with
      decls := x.decls ++ [decl]
      declared := s'.declared
      list := s'.list }
  let v : Store → Store := fun x =>
    { x with
      decls := x.decls ++ [decl]
      list := s'.list }
  have hundone : s'.undone mark = u (s.undone mark) := by
    refine (foldl_frame (f := Store.undo) (u := u) (I := fun x => x.decls.length = s.decls.length) ?_ ?_ rfl).1
    · intro e he x hx
      cases e with
      | decl d arity =>
        obtain ⟨h₁, h₂⟩ := hs.journal.made (mem_of_mem_drop (mem_reverse.mp he))
        show ({ u x with decls := (x.decls ++ [decl]).modify (d - 1) _ } : Store) = _
        rw [modify_append h₁ (by omega)]
        rfl
      | use key =>
        rw [undo_use, undo_use]
      | pending key list => rfl
    · intro e _ x hx
      cases e with
      | decl d arity => exact (length_modify ..).trans hx
      | use key =>
        rwa [undo_use]
      | pending key list => exact hx
  have hrolled := undone_rolled hs.journal.made mark
  -- the declaration is the first to be taken back
  have hfirst : (u (s.undone mark)).drop_decl (s.decls.length + 1) = v (s.undone mark) := by
    have hd : (u (s.undone mark)).decl (s.decls.length + 1) = some decl := by
      rw [← hrolled.length]
      exact at_id_append_self _ _
    rw [drop_decl_eq, hd]
    show ({ u (s.undone mark) with
      declared := (s.declared.enter decl.key (s.decls.length + 1)).clear decl.key } : Store) = _
    rw [Entries.clear_enter hkey, ← undone_declared s mark]
  have hundeclared : s'.undeclared mark = v (s.undeclared mark) := by
    unfold Store.undeclared
    have hlist : (s'.list.drop mark.decls).reverse = (s.decls.length + 1) :: (s.list.drop mark.decls).reverse := by
      show ((s.list ++ [s.decls.length + 1]).drop mark.decls).reverse = _
      rw [drop_append_of_le_length hw.decls, reverse_append]
      rfl
    rw [hlist, foldl_cons, hundone, hfirst]
    refine (foldl_frame ?_ (fun d _ _ hx => hx.drop_decl d) hrolled).1
    intro d hd x hx
    obtain ⟨decl', hd', -⟩ := decl_alive_iff.mp ((hs.decls.listed d).mp (mem_of_mem_drop (mem_reverse.mp hd)))
    have hdecl : (v x).decl d = x.decl d := by
      apply at_id_append
      rw [hx.length]
      exact decl_le hd'
    rw [drop_decl_eq, drop_decl_eq, hdecl]
  have hunmade : s'.unmade mark = v (s.unmade mark) := by
    unfold Store.unmade
    rw [hundeclared]
    refine (foldl_frame (f := Store.drop_type) (u := v)
      (I := fun x => x.decls.length = s.decls.length) ?_ (fun _ _ _ hx => hx)
      (undeclared_rolled hs.journal.made mark).length).1
    intro form hform x hx
    have hkey' : (v x).key_of form = x.key_of form := by
      apply render_congr ?_ fun _ _ => rfl
      intro d hd
      obtain ⟨c, hc, rfl⟩ := mem_map.mp (mem_reverse.mp hform)
      obtain ⟨i, hi, hci⟩ := getElem_of_mem (mem_of_mem_drop hc)
      have hcell : s.cell (i + 1) = some c := List.getElem?_eq_some_iff.mpr ⟨hi, hci⟩
      obtain ⟨decl', hd'⟩ := isSome_iff_exists.mp (hs.types.made hcell d hd)
      have hdecl : (v x).decl d = x.decl d := by
        apply at_id_append
        rw [hx]
        exact decl_le hd'
      unfold Store.decl_text
      rw [hdecl]
    unfold Store.drop_type
    rw [hkey']
  rw [show (s.add_decl decl.key decl).unmade mark = v (s.unmade mark) from hunmade]
  obtain ⟨-, hlist, hlen⟩ := unmade_rolled hs.journal.made mark
  have htake : (s.list ++ [s.decls.length + 1]).take mark.decls = (s.unmade mark).list.take mark.decls := by
    rw [take_append_of_le_length hw.decls, hlist]
  have htake' : ((s.unmade mark).decls ++ [decl]).take mark.made = (s.unmade mark).decls.take mark.made :=
    take_append_of_le_length (by rw [hlen]; exact hw.made)
  unfold Store.cut
  show ({ s.unmade mark with
    journal := _, list := (s.list ++ [s.decls.length + 1]).take mark.decls, types := _, count := _
    building := _, building_order := _, depth := _
    decls := ((s.unmade mark).decls ++ [decl]).take mark.made } : Store) = _
  rw [htake, htake']

theorem cut_journal {s' : Store} (hw : Within mark s) (undos : List Undo)
    (hjournal : s'.journal = s.journal ++ undos) (htypes : s'.types = s.types)
    (hlist : s'.list = s.list)
    (hundo : undos.reverse.foldl Store.undo s' = { s with journal := s.journal ++ undos }) :
    (s'.unmade mark).cut mark = (s.unmade mark).cut mark := by
  let u : Store → Store := fun x => { x with journal := s.journal ++ undos }
  have hundone : s'.undone mark = u (s.undone mark) := by
    unfold Store.undone
    rw [hjournal, drop_append_of_le_length hw.journal, reverse_append, foldl_append, hundo]
    refine (foldl_frame (f := Store.undo) (u := u) (I := fun _ => True) ?_ (fun _ _ _ _ => trivial) trivial).1
    intro e _ x _
    cases e with
    | decl d arity => rfl
    | use key => rw [undo_use, undo_use]
    | pending key list => rfl
  have hundeclared : s'.undeclared mark = u (s.undeclared mark) := by
    unfold Store.undeclared
    rw [hlist, hundone]
    refine (foldl_frame (f := Store.drop_decl) (u := u) (I := fun _ => True) ?_ (fun _ _ _ _ => trivial) trivial).1
    intro d _ x _
    rw [drop_decl_eq, drop_decl_eq]
    rfl
  have hunmade : s'.unmade mark = u (s.unmade mark) := by
    unfold Store.unmade
    rw [htypes, hundeclared]
    exact (foldl_frame (f := Store.drop_type) (u := u) (I := fun _ => True) (fun _ _ _ _ => rfl)
      (fun _ _ _ _ => trivial) trivial).1
  rw [hunmade]
  have hrest : (s.unmade mark).journal = s.journal := by
    have hfold : ∀ {ε : Type} {f : Store → ε → Store} {es : List ε} {x : Store},
        (∀ e ∈ es, ∀ y, y.journal = s.journal → (f y e).journal = s.journal) →
        x.journal = s.journal → (es.foldl f x).journal = s.journal := by
      intro ε f es x hf hx
      exact (foldl_frame (f := f) (u := id) (I := fun y => y.journal = s.journal) (fun _ _ _ _ => rfl) hf hx).2
    refine hfold (fun _ _ _ hy => hy) (hfold ?_ (hfold ?_ rfl))
    · intro d _ y hy
      rwa [drop_decl_eq]
    · intro e _ y hy
      cases e with
      | decl d arity => exact hy
      | use key =>
        rwa [undo_use]
      | pending key list => exact hy
  have htake : (s.journal ++ undos).take mark.journal = (s.unmade mark).journal.take mark.journal := by
    rw [take_append_of_le_length hw.journal, hrest]
  unfold Store.cut
  rw [htake]

theorem undo_set_decl {d : ℕ} {decl : Decl} (hd : s.decl d = some decl) (hbody : decl.body = none)
    (f : Decl → Decl) (hf : ∀ arity, { f decl with body := none, arity := arity } =
      { decl with body := none, arity := arity }) :
    (s.set_decl d f).undo (.decl d decl.arity) = s := by
  have hdecls := modify_modify (g := fun x => { x with body := none, arity := decl.arity }) hd <| by
    rw [hf, ← hbody]
  show ({ s with decls := (s.decls.modify (d - 1) f).modify (d - 1) _ } : Store) = s
  rw [hdecls]

theorem shed_enter {pending : Entries Bytes (List ℕ)} (hwait : ∀ k, pending k ≠ some []) (key : Bytes) (use : ℕ) :
    shed (pending.enter key ((pending key).getD [] ++ [use])) key = pending := by
  unfold shed
  rw [Entries.enter_self]
  dsimp only
  rw [dropLast_concat]
  cases hp : pending key with
  | none =>
    rw [if_pos (by rw [getD_none])]
    exact Entries.clear_enter hp _
  | some uses =>
    rw [getD_some, if_neg fun h => hwait key (by rw [hp, h]), Entries.enter_enter]
    exact Entries.enter_same hp

theorem Step.cut {s' : Store} (h : Step o s s') (hs : Sound o s) (hw : Within mark s)
    (hopen : 0 < s.transactions) : (s'.unmade mark).cut mark = (s.unmade mark).cut mark := by
  cases h with
  | type h =>
    cases h with
    | type hm _ => exact cut_add hs hw hm
  | @use d decl args value hm hd harity =>
    have hadd : Within mark (s.add o (.named d args value)) :=
      ⟨by show _ ≤ (s.types ++ [_]).length; rw [length_append]; exact
        le_add_right_of_le hw.count, hw.decls, hw.journal, hw.made⟩
    rw [← cut_add hs hw hm]
    refine cut_journal hadd [.use decl.key] (if_pos hopen) rfl rfl ?_
    show Store.undo _ (.use decl.key) = _
    rw [undo_use]
    show ({ s.add o (.named d args value) with
      pending := shed (s.pending.enter decl.key ((s.pending decl.key).getD [] ++ [s.count + 1])) decl.key
      journal := if s.transactions > 0 then s.journal ++ [.use decl.key] else s.journal } : Store) = _
    rw [shed_enter hs.decls.waiting, if_pos hopen]
    rfl
  | decl hkey _ _ _ => exact cut_add_decl hs hw hkey
  | @arity d n decl hd hdead harity huses =>
    have hbody : decl.body = none := by
      cases hb : decl.body with
      | none => rfl
      | some body =>
        have h := hs.decls.arity hd hb
        rw [harity] at h
        cases h
    have hnote : s.note d decl = { s with journal := s.journal ++ [.decl d decl.arity] } := by
      unfold Store.note
      rw [if_pos hopen]
    rw [hnote]
    refine cut_journal hw [.decl d decl.arity] rfl rfl rfl ?_
    exact undo_set_decl (s := { s with journal := s.journal ++ [.decl d decl.arity] }) hd hbody _
      fun _ => rfl
  | @body d decl body hd hdead hnone harity huses hbodied =>
    cases hp : s.pending decl.key with
    | none =>
      have hnote : (s.settle decl.key).note d decl = { s with journal := s.journal ++ [.decl d decl.arity] } := by
        unfold Store.settle Store.note
        rw [hp]
        rw [if_pos hopen]
      rw [hnote]
      refine cut_journal hw [.decl d decl.arity] rfl rfl rfl ?_
      exact undo_set_decl (s := { s with journal := s.journal ++ [.decl d decl.arity] }) hd hnone _
        fun _ => rfl
    | some list =>
      have hnote : (s.settle decl.key).note d decl = { s with
            pending := s.pending.clear decl.key
            journal := s.journal ++ [.pending decl.key list, .decl d decl.arity] } := by
        unfold Store.settle Store.note
        rw [hp]
        dsimp only
        rw [if_pos hopen, if_pos hopen, append_assoc]
        rfl
      rw [hnote]
      refine cut_journal hw [.pending decl.key list, .decl d decl.arity] rfl rfl rfl ?_
      have hundo := undo_set_decl (s := { s with
        pending := s.pending.clear decl.key
        journal := s.journal ++ [.pending decl.key list, .decl d decl.arity] }) hd hnone
        (fun decl => { decl with arity := some body.tparams.length, body := some body })
        fun _ => rfl
      show Store.undo (Store.undo _ (.decl d decl.arity)) (.pending decl.key list) = _
      rw [hundo]
      show ({ s with
        pending := (s.pending.clear decl.key).enter decl.key list
        journal := s.journal ++ [.pending decl.key list, .decl d decl.arity] } : Store) = _
      rw [Entries.enter_clear hp]

theorem Step.within {s' : Store} (h : Step o s s') (hw : Within mark s) : Within mark s' := by
  have hnote : ∀ (x : Store) (u : Undo),
      x.journal.length ≤ (if x.transactions > 0 then x.journal ++ [u] else x.journal).length := by
    intro x u
    split
    · rw [length_append]
      exact Nat.le_add_right _ _
    · exact le_rfl
  cases h with
  | type h =>
    cases h with
    | type _ _ =>
      refine ⟨?_, hw.decls, hw.journal, hw.made⟩
      show _ ≤ (s.types ++ [_]).length
      rw [length_append]
      exact le_add_right_of_le hw.count
  | use _ _ _ =>
    refine ⟨?_, hw.decls, hw.journal.trans (hnote s _), hw.made⟩
    show _ ≤ (s.types ++ [_]).length
    rw [length_append]
    exact le_add_right_of_le hw.count
  | decl _ _ _ _ =>
    refine ⟨hw.count, ?_, hw.journal, ?_⟩
    · show _ ≤ (s.list ++ [_]).length
      rw [length_append]
      exact le_add_right_of_le hw.decls
    · show _ ≤ (s.decls ++ [_]).length
      rw [length_append]
      exact le_add_right_of_le hw.made
  | arity _ _ _ _ =>
    refine ⟨hw.count, hw.decls, hw.journal.trans (hnote s _), ?_⟩
    exact hw.made.trans_eq (length_modify ..).symm
  | @body d decl body _ _ _ _ _ _ =>
    have hjournal : s.journal.length ≤ ((s.settle decl.key).note d decl).journal.length := by
      refine Nat.le_trans ?_ (hnote (s.settle decl.key) _)
      unfold Store.settle
      cases s.pending decl.key with
      | none => exact le_rfl
      | some list => exact hnote s _
    rw [set_body_eq]
    refine ⟨hw.count, hw.decls, hw.journal.trans hjournal, ?_⟩
    exact hw.made.trans_eq (length_modify ..).symm

theorem Step.transactions {s' : Store} (h : Step o s s') : s'.transactions = s.transactions := by
  cases h with
  | type h =>
    cases h with
    | type _ _ => rfl
  | body _ _ _ _ _ _ => rw [set_body_eq]; rfl
  | _ => rfl

theorem Steps.cut {s' : Store} (h : Steps o s s') (hs : Sound o s) (hw : Within mark s)
    (hopen : 0 < s.transactions) : (s'.unmade mark).cut mark = (s.unmade mark).cut mark ∧
      Within mark s' ∧ s'.transactions = s.transactions := by
  induction h with
  | refl => exact ⟨rfl, hw, rfl⟩
  | @tail s₁ s₂ h₁ h₂ ih =>
    obtain ⟨hcut, hw₁, ht⟩ := ih
    refine ⟨?_, h₂.within hw₁, h₂.transactions.trans ht⟩
    rw [h₂.cut (Steps.sound h₁ hs) hw₁ (by omega), hcut]

end

end Cosmic.Types
