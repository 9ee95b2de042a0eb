/-
What a run of operations keeps of a store: what a refused decode did is taken back whole, and what is made stays what
it is, until it is forgotten, for good.
-/
import Cosmic.Lang.TypesUnionLaws

set_option autoImplicit false

namespace Cosmic.Types

open Cosmic.Base List Option
open Cosmic.Base.Raise

/-! ## Refused decodes -/

/-- The types and the declarations of the store `s` are in `s'` what they were, or dead. -/
structure Later (s s' : Store) : Prop where
  cell : ∀ {t c}, s.cell t = some c → ∃ c', s'.cell t = some c' ∧ c'.form = c.form ∧ (c.dead = true → c'.dead = true)
  decl : ∀ {d decl}, s.decl d = some decl → ∃ decl', s'.decl d = some decl' ∧ decl'.module = decl.module ∧
    decl'.name = decl.name ∧ (decl.dead = true → decl'.dead = true)

section

variable {o : Outside} {loader : Option Loader} {s s' s'' : Store}

theorem Later.refl (s : Store) : Later s s :=
  ⟨fun {_ c} h => ⟨c, h, rfl, id⟩, fun {_ decl} h => ⟨decl, h, rfl, rfl, id⟩⟩

theorem Later.trans (h : Later s s') (h' : Later s' s'') : Later s s'' := by
  constructor
  · intro t c hc
    obtain ⟨c', hc', hform, hdead⟩ := h.cell hc
    obtain ⟨c'', hc'', hform', hdead'⟩ := h'.cell hc'
    exact ⟨c'', hc'', hform'.trans hform, fun hd => hdead' (hdead hd)⟩
  · intro d decl hd
    obtain ⟨decl', hd', hm, hn, hdead⟩ := h.decl hd
    obtain ⟨decl'', hd'', hm', hn', hdead'⟩ := h'.decl hd'
    exact ⟨decl'', hd'', hm'.trans hm, hn'.trans hn, fun hd => hdead' (hdead hd)⟩

theorem Later.add (o : Outside) (s : Store) (form : Form ℕ) : Later s (s.add o form) :=
  ⟨fun {_ c} hc => ⟨c, add_cell.mpr (.inl hc), rfl, id⟩, fun {_ decl} hd => ⟨decl, hd, rfl, rfl, id⟩⟩

theorem Later.set_decl {d : ℕ} {decl : Decl} (hd : s.decl d = some decl) {f : Decl → Decl}
    (hf : (f decl).head = decl.head) : Later s (s.set_decl d f) := by
  refine ⟨fun {_ c} hc => ⟨c, hc, rfl, id⟩, fun {d' decl'} hd' => ?_⟩
  rw [set_decl_decl hd]
  by_cases h : d' = d
  · subst h
    rw [hd] at hd'
    cases hd'
    have hmodule : (f decl).head.module = decl.head.module := congrArg Decl.module hf
    have hname : (f decl).head.name = decl.head.name := congrArg Decl.name hf
    rw [if_pos rfl]
    exact ⟨f decl, rfl, hmodule, hname, fun hdead => (Decl.head_dead hf).trans hdead⟩
  · rw [if_neg h]
    exact ⟨decl', hd', rfl, rfl, id⟩

theorem Step.later (h : Step o s s') : Later s s' := by
  cases h with
  | type h =>
    cases h with
    | type _ _ => exact Later.add o s _
  | @use d decl args value _ _ _ =>
    have h := Later.add o s (.named d args value)
    exact ⟨h.cell, h.decl⟩
  | decl _ _ _ _ =>
    exact ⟨fun {_ c} hc => ⟨c, hc, rfl, id⟩, fun {_ decl'} hd => ⟨decl', add_decl_decl.mpr (.inl hd), rfl, rfl, id⟩⟩
  | @arity d n decl hd _ _ _ =>
    have h := Later.set_decl (f := fun decl => { decl with arity := some n }) hd rfl
    exact ⟨h.cell, h.decl⟩
  | @body d decl body hd _ _ _ _ _ =>
    have h := Later.set_decl (f := fun decl =>
      { decl with arity := some body.tparams.length, body := some body }) hd rfl
    rw [set_body_eq]
    exact ⟨h.cell, h.decl⟩

theorem Forgot.later {decls gone : List ℕ} (h : Forgot s s' decls gone) : Later s s' := by
  constructor
  · intro t c hc
    rw [h.cell, hc]
    refine ⟨_, rfl, ?_, ?_⟩
    · split <;> rfl
    · split
      · exact fun _ => rfl
      · exact id
  · intro d decl hd
    rw [h.decl, hd]
    refine ⟨_, rfl, ?_, ?_, ?_⟩
    · split <;> rfl
    · split <;> rfl
    · split
      · exact fun _ => rfl
      · exact id

/-! ## Runs -/

/-- An operation of the program, answering or raising. -/
def Ran (o : Outside) (loader : Option Loader) (s s' : Store) : Prop :=
  ∃ op, (∃ a, step o loader op s = .ok a s') ∨ ∃ why, step o loader op s = .raised why s'

abbrev Runs (o : Outside) (loader : Option Loader) : Store → Store → Prop := Relation.ReflTransGen (Ran o loader)

theorem Reached.runs (hs : Reached o loader s) (h : Runs o loader s s') : Reached o loader s' := by
  induction h with
  | refl => exact hs
  | tail _ h ih =>
    obtain ⟨op, ⟨a, hrun⟩ | ⟨why, hrun⟩⟩ := h
    · exact ih.answered hrun
    · exact ih.raised hrun

theorem ran_cases (loader : Option Loader) (hs : Sound o s) (op : Op) : Ends (step o loader op) s
      (fun a s' => (op.keeps = true ∧ Steps o s s' ∧ a.Alive s') ∨
        ∃ decls, op = .forget decls ∧ Forgot s s' decls (forgotten s decls) ∧ ∀ d ∈ decls, s.decl_alive d = true)
      fun _ s' => Steps o s s' := by
  by_cases hop : op.keeps = true
  · exact Ends.mono (stepping_exec (readers_spec o loader MAX_DEPTH) hs (.inl hop)) (fun _ _ h => .inl ⟨hop, h⟩)
      fun _ _ h => h
  cases op with
  | forget decls =>
    unfold step exec
    rw [ends_bind]
    refine Ends.mono (ends_forget_left s decls) ?_ ?_
    · rintro _ s' ⟨-, hlive, rfl⟩
      exact .inr ⟨decls, rfl, forgot_left hs hlive, hlive⟩
    · rintro _ s' rfl
      exact .refl
  | _ => exact absurd rfl hop

theorem Steps.later (h : Steps o s s') : Later s s' := by
  induction h with
  | refl => exact Later.refl s
  | tail _ h ih => exact ih.trans h.later

theorem Ran.later (hs : Sound o s) (h : Ran o loader s s') : Later s s' := by
  obtain ⟨op, h⟩ := h
  have hends := ran_cases loader hs op
  unfold Ends at hends
  rcases h with ⟨a, hrun⟩ | ⟨why, hrun⟩
  · rw [hrun] at hends
    rcases hends with ⟨-, hsteps, -⟩ | ⟨decls, -, hforgot, -⟩
    · exact hsteps.later
    · exact hforgot.later
  · rw [hrun] at hends
    exact Steps.later hends

theorem Runs.later (hs : Reached o loader s) (h : Runs o loader s s') : Later s s' := by
  induction h with
  | refl => exact Later.refl s
  | tail h' h ih => exact ih.trans (h.later (hs.runs h').sound)

/-! ## What a body is made of -/

def BodiesLive (s : Store) : Prop :=
  ∀ {d decl body}, s.decl d = some decl → decl.dead = false → decl.body = some body → ∀ root ∈ body.roots,
    s.alive root = true

/-- `decls` has every live declaration whose body would lose a type with `decls`. -/
def Covering (s : Store) (decls : List ℕ) : Prop :=
  ∀ d decl body, s.decl d = some decl → decl.dead = false → decl.body = some body →
    (∃ root ∈ body.roots, root ∈ forgotten s decls) → d ∈ decls

/-- A store of a program that forgets, with a declaration, those whose bodies name it. -/
inductive Careful (o : Outside) (loader : Option Loader) : Store → Prop where
  | new : Careful o loader (new o)
  | ran {s s' : Store} {op : Op} : Careful o loader s → (∀ decls, op = .forget decls → Covering s decls) →
      ((∃ a, step o loader op s = .ok a s') ∨ ∃ why, step o loader op s = .raised why s') → Careful o loader s'

theorem Step.bodies_live (h : Step o s s') (hs : Sound o s) (hb : BodiesLive s) : BodiesLive s' := by
  have hshows := h.shows
  intro d decl body hd hdead hbody root hroot
  -- The body was there, or is the one given.
  have hwas : (∃ decl', s.decl d = some decl' ∧ decl'.dead = false ∧ decl'.body = some body) ∨ s.alive root = true := by
    cases h with
    | type h =>
      cases h with
      | type _ _ => exact .inl ⟨decl, hd, hdead, hbody⟩
    | use _ _ _ => exact .inl ⟨decl, hd, hdead, hbody⟩
    | decl _ _ hnone _ =>
      rcases add_decl_decl.mp hd with hd | ⟨-, rfl⟩
      · exact .inl ⟨decl, hd, hdead, hbody⟩
      · rw [hnone] at hbody
        cases hbody
    | @arity d' n decl' hd' _ harity _ =>
      have hset := (set_decl_decl (f := fun decl => { decl with arity := some n }) hd' d).symm.trans hd
      split at hset
      · cases hset
        have hlen := hs.decls.arity hd' hbody
        rw [harity] at hlen
        cases hlen
      · exact .inl ⟨decl, hset, hdead, hbody⟩
    | @body d' decl' body' hd' _ _ _ _ hbodied =>
      rw [set_body_eq] at hd
      have hset := (set_decl_decl (f := fun decl =>
        { decl with arity := some body'.tparams.length, body := some body' }) hd' d).symm.trans hd
      split at hset
      · cases hset
        cases hbody
        exact .inr (hbodied.alive root hroot)
      · exact .inl ⟨decl, hset, hdead, hbody⟩
  rcases hwas with ⟨decl', hd', hdead', hbody'⟩ | halive
  · exact hshows.alive (hb hd' hdead' hbody' root hroot)
  · exact hshows.alive halive

theorem Steps.bodies_live (h : Steps o s s') (hs : Sound o s) (hb : BodiesLive s) : BodiesLive s' := by
  induction h with
  | refl => exact hb
  | tail h' h ih => exact h.bodies_live (Steps.sound h' hs) ih

theorem Forgot.bodies_live {decls : List ℕ} (h : Forgot s s' decls (forgotten s decls)) (hcovers : Covering s decls)
    (hb : BodiesLive s) : BodiesLive s' := by
  intro d decl body hd hdead hbody root hroot
  obtain ⟨hd', hnot⟩ := h.decl_alive hd hdead
  have hkept : root ∉ forgotten s decls := fun hgone => hnot (hcovers d decl body hd' hdead hbody ⟨root, hroot, hgone⟩)
  have halive := hb hd' hdead hbody root hroot
  unfold Store.alive at halive ⊢
  rwa [h.cell_of_not hkept]

theorem Careful.bodies_live (h : Careful o loader s) : Reached o loader s ∧ BodiesLive s := by
  induction h with
  | new =>
    refine ⟨.new, fun {d decl _} hd => ?_⟩
    have hle := at_id_le hd
    have hpos := at_id_pos hd
    exact absurd (show d ≤ 0 from hle) (by omega)
  | @ran s s' op _ hcovers hran ih =>
    have hends := ran_cases loader ih.1.sound op
    unfold Ends at hends
    rcases hran with ⟨a, hrun⟩ | ⟨why, hrun⟩
    · refine ⟨ih.1.answered hrun, ?_⟩
      rw [hrun] at hends
      rcases hends with ⟨-, hsteps, -⟩ | ⟨decls, hop, hforgot, -⟩
      · exact Steps.bodies_live hsteps ih.1.sound ih.2
      · exact hforgot.bodies_live (hcovers decls hop) ih.2
    · refine ⟨ih.1.raised hrun, ?_⟩
      rw [hrun] at hends
      exact Steps.bodies_live hends ih.1.sound ih.2

/-! ## One type a form -/

/-- `u` is `t`, or a type that it is made of. -/
inductive MadeOf (s : Store) (t : ℕ) : ℕ → Prop where
  | self : MadeOf s t t
  | part {u p : ℕ} {f : Form ℕ} : MadeOf s t u → s.form u = some f → p ∈ f.parts → MadeOf s t p

theorem MadeOf.alive (hs : Sound o s) {t u : ℕ} (h : MadeOf s t u) (ht : s.alive t = true) : s.alive u = true := by
  induction h with
  | self => exact ht
  | part _ hform hp ih =>
    obtain ⟨c, hc, hdead⟩ := alive_iff.mp ih
    obtain ⟨c', hc', rfl⟩ := form_iff.mp hform
    rw [hc] at hc'
    cases hc'
    exact hs.types.closed.parts hc hdead _ hp

end

end Cosmic.Types
