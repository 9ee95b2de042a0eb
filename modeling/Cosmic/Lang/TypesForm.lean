/-
The normal forms of types, and what of a store they depend on.

A form is read in the store that keeps it: its parts by id, its declaration by position. What
`Shows` relates two stores by is all that a form whose parts are live depends on, so a normal form
stays one for as long as its parts live.
-/
import Cosmic.Lang.TypesDecode
import Mathlib.Data.List.ReduceOption

set_option autoImplicit false

namespace Cosmic.Types

open Cosmic.Base List

/-! ## Looking up -/

section

variable {α : Type} {l : List α} {i : ℕ} {x : α}

theorem at_id_pos (h : at_id l i = some x) : 1 ≤ i := by
  cases i with
  | zero => cases h
  | succ i => omega

theorem at_id_le (h : at_id l i = some x) : i ≤ l.length := by
  cases i with
  | zero => omega
  | succ i =>
    obtain ⟨hi, -⟩ := List.getElem?_eq_some_iff.mp h
    omega

theorem at_id_append (h : i ≤ l.length) (l' : List α) : at_id (l ++ l') i = at_id l i := by
  cases i with
  | zero => rfl
  | succ i => exact getElem?_append_left (by omega)

@[simp] theorem at_id_append_self (l : List α) (x : α) : at_id (l ++ [x]) (l.length + 1) = some x := by
  show (l ++ [x])[l.length]? = some x
  simp

/-- What is found in a list with one more: the one more, or what was found before. -/
theorem at_id_append_one {y : α} : at_id (l ++ [y]) i = some x ↔ at_id l i = some x ∨ (i = l.length + 1 ∧ x = y) := by
  constructor
  · intro h
    by_cases hi : i ≤ l.length
    · rw [at_id_append hi] at h
      exact .inl h
    · have hle := at_id_le h
      rw [length_append, length_singleton] at hle
      have hi' : i = l.length + 1 := by omega
      rw [hi', at_id_append_self] at h
      exact .inr ⟨hi', (Option.some.inj h).symm⟩
  · rintro (h | ⟨rfl, rfl⟩)
    · rw [at_id_append (at_id_le h), h]
    · exact at_id_append_self l x

theorem at_id_modify {d : ℕ} (hd : 1 ≤ d) (f : α → α) :
    at_id (l.modify (d - 1) f) i = if i = d then (at_id l i).map f else at_id l i := by
  cases i with
  | zero =>
    rw [if_neg (by omega)]
    rfl
  | succ i =>
    show (l.modify (d - 1) f)[i]? = _
    rw [getElem?_modify]
    by_cases h : i + 1 = d
    · have hi : d - 1 = i := by omega
      subst h
      simp only [hi, if_true]
      rfl
    · have hi : d - 1 ≠ i := by omega
      simp only [h, hi, if_false]
      exact Option.map_id'

theorem findSome?_congr {β : Type} {f g : α → Option β} (h : ∀ a ∈ l, f a = g a) : l.findSome? f = l.findSome? g := by
  induction l with
  | nil => rfl
  | cons a l ih =>
    rw [findSome?_cons, findSome?_cons, h a mem_cons_self, ih fun b hb => h b (mem_cons_of_mem a hb)]

end

theorem atom_of_inj {tag tag' : Atom} (h : atom_of tag = atom_of tag') : tag = tag' := by
  revert h
  cases tag <;> cases tag' <;> decide

/-- A declaration apart from its body and how many arguments it takes. -/
def Decl.head (d : Decl) : Decl := { d with arity := none, body := none }

theorem Decl.head_key {d d' : Decl} (h : d.head = d'.head) : d.key = d'.key := by
  have hm : d.head.module = d'.head.module := by rw [h]
  have hn : d.head.name = d'.head.name := by rw [h]
  show path_key d.head.module d.head.name = path_key d'.head.module d'.head.name
  rw [hm, hn]

theorem Decl.head_dead {d d' : Decl} (h : d.head = d'.head) : d.dead = d'.dead := by
  have hh : d.head.dead = d'.head.dead := by rw [h]
  exact hh

theorem Decl.head_kind {d d' : Decl} (h : d.head = d'.head) : d.kind = d'.kind := by
  have hh : d.head.kind = d'.head.kind := by rw [h]
  exact hh

theorem Decl.head_text {d d' : Decl} (h : d.head = d'.head) : d.text = d'.text := by
  have hh : d.head.text = d'.head.text := by rw [h]
  exact hh

def Form.names {α : Type} : Form α → Option ℕ
  | .named d _ _ => some d
  | _ => none

section

variable {s : Store} {t d : ℕ}

theorem alive_iff : s.alive t = true ↔ ∃ c, s.cell t = some c ∧ c.dead = false := by
  unfold Store.alive
  cases s.cell t with
  | none => simp
  | some c => simp

theorem decl_alive_iff : s.decl_alive d = true ↔ ∃ decl, s.decl d = some decl ∧ decl.dead = false := by
  unfold Store.decl_alive
  cases s.decl d with
  | none => simp
  | some decl => simp

theorem form_iff {f : Form ℕ} : s.form t = some f ↔ ∃ c, s.cell t = some c ∧ c.form = f := Option.map_eq_some_iff

end

/-! ## What a form depends on -/

/-- `s'` has what lives in `s`. -/
structure Shows (s s' : Store) : Prop where
  cell : ∀ {t}, s.alive t = true → s'.cell t = s.cell t
  decl : ∀ {d decl}, s.decl d = some decl → decl.dead = false →
    ∃ decl', s'.decl d = some decl' ∧ decl'.head = decl.head

/-- What a live type is made of and names is live. -/
structure Closed (s : Store) : Prop where
  parts : ∀ {t c}, s.cell t = some c → c.dead = false → ∀ p ∈ c.form.parts, s.alive p = true
  names : ∀ {t c}, s.cell t = some c → c.dead = false → ∀ d ∈ c.form.names, s.decl_alive d = true

namespace Shows

variable {s s' s'' : Store} {t d : ℕ}

theorem refl (s : Store) : Shows s s := ⟨fun _ => rfl, fun {_ decl} h _ => ⟨decl, h, rfl⟩⟩

theorem alive (h : Shows s s') (ht : s.alive t = true) : s'.alive t = true := by
  have hcell := h.cell ht
  obtain ⟨c, hc, hdead⟩ := alive_iff.mp ht
  exact alive_iff.mpr ⟨c, hcell.trans hc, hdead⟩

theorem decl_alive (h : Shows s s') (hd : s.decl_alive d = true) : s'.decl_alive d = true := by
  obtain ⟨decl, hdecl, hdead⟩ := decl_alive_iff.mp hd
  obtain ⟨decl', hdecl', hhead⟩ := h.decl hdecl hdead
  exact decl_alive_iff.mpr ⟨decl', hdecl', (Decl.head_dead hhead).trans hdead⟩

theorem trans (h : Shows s s') (h' : Shows s' s'') : Shows s s'' := by
  constructor
  · intro t ht
    exact (h'.cell (h.alive ht)).trans (h.cell ht)
  · intro d decl hd hdead
    obtain ⟨decl', hd', hhead⟩ := h.decl hd hdead
    obtain ⟨decl'', hd'', hhead'⟩ := h'.decl hd' ((Decl.head_dead hhead).trans hdead)
    exact ⟨decl'', hd'', hhead'.trans hhead⟩

theorem form (h : Shows s s') (ht : s.alive t = true) : s'.form t = s.form t := by
  unfold Store.form
  rw [h.cell ht]

theorem digest_text (h : Shows s s') (ht : s.alive t = true) : s'.digest_text t = s.digest_text t := by
  unfold Store.digest_text
  rw [h.cell ht]

theorem decl_text (h : Shows s s') (hd : s.decl_alive d = true) : s'.decl_text d = s.decl_text d := by
  obtain ⟨decl, hdecl, hdead⟩ := decl_alive_iff.mp hd
  obtain ⟨decl', hdecl', hhead⟩ := h.decl hdecl hdead
  unfold Store.decl_text
  rw [hdecl, hdecl', Option.map_some, Option.map_some, Decl.head_text hhead]

theorem kind (h : Shows s s') (hd : s.decl_alive d = true) (kind : DeclKind) :
    (s'.decl d).any (·.kind == kind) = (s.decl d).any (·.kind == kind) := by
  obtain ⟨decl, hdecl, hdead⟩ := decl_alive_iff.mp hd
  obtain ⟨decl', hdecl', hhead⟩ := h.decl hdecl hdead
  rw [hdecl, hdecl', Option.any_some, Option.any_some, Decl.head_kind hhead]

end Shows

section

variable {α : Type} {decl_text decl_text' : ℕ → Bytes} {sub sub' : α → Bytes}

theorem render_alt_congr {alt : Alt α} (h : ∀ p ∈ alt.parts, sub p = sub' p) :
    render_alt sub alt = render_alt sub' alt := by
  obtain ⟨items, tail, narrows⟩ := alt
  simp only [Alt.parts, mem_append, or_assoc] at h
  unfold render_alt
  cases narrows with
  | some narrows =>
    have hto : sub narrows.to_ = sub' narrows.to_ := h _ (by simp)
    simp only [hto]
  | none =>
    have hitems : items.map sub = items.map sub' := map_congr_left fun p hp => h p (.inl hp)
    cases tail with
    | none => simp only [hitems, Option.map_none]
    | some tail =>
      have htail : sub tail = sub' tail := h tail (by simp)
      simp only [hitems, htail, Option.map_some]

theorem render_congr {form : Form α} (hd : ∀ d ∈ form.names, decl_text d = decl_text' d)
    (h : ∀ p ∈ form.parts, sub p = sub' p) :
    render decl_text sub form = render decl_text' sub' form := by
  cases form with
  | atom tag => rfl
  | named d args value =>
    have hargs : args.flatMap (fun a => lit " " ++ sub a) = args.flatMap (fun a => lit " " ++ sub' a) :=
      flatMap_congr fun a ha => by rw [h a ha]
    simp only [render, hargs, hd d rfl]
  | array element mutable =>
    simp only [render, h element (by simp [Form.parts])]
  | map key value mutable =>
    simp only [render, h key (by simp [Form.parts]), h value (by simp [Form.parts])]
  | union members nilable =>
    have hmembers : members.flatMap (fun a => lit " " ++ sub a) = members.flatMap (fun a => lit " " ++ sub' a) :=
      flatMap_congr fun a ha => by rw [h a ha]
    simp only [render, hmembers]
  | var depth index => rfl
  | fn tparams params rest rets =>
    simp only [Form.parts, mem_append, or_assoc] at h
    have htparams : ∀ bound ∈ tparams, bound.map sub = bound.map sub' := by
      rintro (_ | b) hb
      · rfl
      · exact congrArg some (h b (.inl (reduceOption_mem_iff.mpr hb)))
    have hparams : ∀ p ∈ params, sub p.type = sub' p.type := fun p hp =>
      h p.type (.inr (.inl (mem_map_of_mem hp)))
    have hrest : rest.map sub = rest.map sub' := by
      cases rest with
      | none => rfl
      | some r => exact congrArg some (h r (by simp))
    have hrets : ∀ alt ∈ rets, render_alt sub alt = render_alt sub' alt := fun alt halt =>
      render_alt_congr fun p hp =>
        h p (.inr (.inr (.inr (mem_flatMap.mpr ⟨alt, halt, hp⟩))))
    have h₁ : tparams.flatMap (fun bound => lit " " ++ (bound.map sub).getD (lit "_")) =
        tparams.flatMap fun bound => lit " " ++ (bound.map sub').getD (lit "_") :=
      flatMap_congr fun bound hb => by rw [htparams bound hb]
    have h₂ : params.map (fun p => render_slot (sub p.type) p.omittable) =
        params.map fun p => render_slot (sub' p.type) p.omittable :=
      map_congr_left fun p hp => by rw [hparams p hp]
    have h₃ : rets.flatMap (fun alt => lit " " ++ render_alt sub alt) =
        rets.flatMap fun alt => lit " " ++ render_alt sub' alt :=
      flatMap_congr fun alt halt => by rw [hrets alt halt]
    simp only [render, h₁, h₂, h₃]
    cases rest with
    | none => rfl
    | some r =>
      have hr : sub r = sub' r := Option.some.inj hrest
      simp only [Option.map_some, hr]

end

section

variable {s s' : Store} (hs : Shows s s')

include hs

theorem key_of_shows {form : Form ℕ} (h : ∀ d ∈ form.names, s.decl_alive d = true) : s'.key_of form = s.key_of form :=
  render_congr (fun d hd => hs.decl_text (h d hd)) fun _ _ => rfl

theorem measure_shows {form : Form ℕ} (h : ∀ p ∈ form.parts, s.alive p = true) :
    measure s' form = measure s form := by
  have hparts : form.parts.filterMap s'.cell = form.parts.filterMap s.cell :=
    filterMap_congr fun p hp => hs.cell (h p hp)
  unfold measure
  rw [hparts]

theorem is_bound_shows (hc : Closed s) {bound : ℕ} (h : s.alive bound = true) :
    is_bound s' bound = is_bound s bound := by
  obtain ⟨c, hcell, hdead⟩ := alive_iff.mp h
  have hform : s.form bound = some c.form := form_iff.mpr ⟨c, hcell, rfl⟩
  unfold is_bound
  rw [hs.form h, hform]
  cases hf : c.form with
  | named d args value => exact congrArg (· && _) (hs.kind (hc.names hcell hdead d (by simp [hf, Form.names])) _)
  | _ => rfl

theorem covered_shows (hc : Closed s) {seen : List ℕ} {m : ℕ} (h : s.alive m = true) :
    covered s' seen m = covered s seen m := by
  obtain ⟨c, hcell, hdead⟩ := alive_iff.mp h
  have hform : s.form m = some c.form := form_iff.mpr ⟨c, hcell, rfl⟩
  unfold covered
  rw [hs.form h, hform]
  cases hf : c.form with
  | named d args value =>
    have hkind := hs.kind (hc.names hcell hdead d (by simp [hf, Form.names])) .enum
    simp only [hkind]
  | _ => rfl

theorem unbound_shows (hc : Closed s) (count levels : ℕ) : ∀ {level t : ℕ}, s.alive t = true →
    unbound s' count levels level t = unbound s count levels level t := by
  induction levels with
  | zero => intro _ _ _; rfl
  | succ levels ih =>
    intro level t ht
    obtain ⟨c, hcell, hdead⟩ := alive_iff.mp ht
    have hparts : ∀ level', c.form.parts.findSome? (unbound s' count levels level') =
        c.form.parts.findSome? (unbound s count levels level') := fun level' =>
      findSome?_congr fun p hp => ih (hc.parts hcell hdead p hp)
    unfold unbound
    rw [hs.cell ht, hcell]
    cases hf : c.form with
    | var depth index => simp only [hf]
    | _ =>
      rw [hf] at hparts
      simp only [hf, hparts]

end

end Cosmic.Types
