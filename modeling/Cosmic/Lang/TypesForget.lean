/-
Forgetting: what is left of a store is a store.

A type that names a forgotten declaration, or is made of one that does, is forgotten with it, so
what still lives is made of what still lives. The store left is read in the store before, where
nothing that still lives differs.
-/
import Cosmic.Lang.TypesDeclare

set_option autoImplicit false

namespace Cosmic.Types

open Cosmic.Base List
open Cosmic.Base.Raise

/-! ## Normal forms in the store before -/

section

variable {s s' : Store} (hs : Shows s' s) (hc : Closed s')

include hs

theorem nilable_hides {t : ℕ} (ht : s'.alive t = true) (h : Nilable s t) : Nilable s' t := by
  unfold Nilable at h ⊢
  rwa [hs.form ht] at h

include hc

theorem NormalUnion.hides {members : List ℕ} {nilable : Bool}
    (hm : ∀ m ∈ members, s'.alive m = true) (h : NormalUnion s members nilable) :
    NormalUnion s' members nilable where
  nodup := h.nodup
  some_member := h.some_member
  two := h.two
  single m hmem := by
    obtain ⟨f, hf, hsingle⟩ := h.single m hmem
    exact ⟨f, (hs.form (hm m hmem)).symm.trans hf, hsingle⟩
  not_both := h.not_both
  uncovered m hmem := (covered_shows hs hc (hm m hmem)).symm.trans (h.uncovered m hmem)
  sorted := by
    apply h.sorted.imp_of_mem
    intro a b ha hb hab
    unfold by_digest at hab
    rwa [hs.digest_text (hm a ha), hs.digest_text (hm b hb)] at hab

theorem NormalFn.hides {tparams : List (Option ℕ)} {params : List (Param ℕ)} {rest : Option ℕ}
    {rets : List (Alt ℕ)} (hp : ∀ t ∈ (Form.fn tparams params rest rets).parts, s'.alive t = true)
    (h : NormalFn s tparams params rest rets) : NormalFn s' tparams params rest rets where
  bounds b hb := by
    have hpart : b ∈ (Form.fn tparams params rest rets).parts := by
      simp only [Form.parts, mem_append]
      exact .inl (.inl (.inl hb))
    rw [← is_bound_shows hs hc (hp b hpart)]
    exact h.bounds b hb
  omittable p hmem ho := by
    apply nilable_hides hs _ (h.omittable p hmem ho)
    apply hp
    simp only [Form.parts, mem_append]
    exact .inl (.inl (.inr (mem_map_of_mem hmem)))
  alts := h.alts
  alone := h.alone
  ordered := by
    have hkeys : rets.map (render_alt s.digest_text) = rets.map (render_alt s'.digest_text) := by
      apply map_congr_left
      intro alt halt
      apply render_alt_congr
      intro p hpart
      apply hs.digest_text
      apply hp
      simp only [Form.parts, mem_append]
      exact .inr (mem_flatMap.mpr ⟨alt, halt, hpart⟩)
    rw [← hkeys]
    exact h.ordered
  bound hne t ht := (unbound_shows hs hc _ _ (hp t ht)).symm.trans (h.bound hne t ht)

theorem NormalForm.hides {form : Form ℕ} (hp : ∀ t ∈ form.parts, s'.alive t = true)
    (h : NormalForm s form) : NormalForm s' form := by
  cases form with
  | atom tag => exact h
  | union members nilable => exact NormalUnion.hides hs hc hp h
  | fn tparams params rest rets => exact NormalFn.hides hs hc hp h
  | _ => trivial

end

/-! ## What is forgotten -/

section

variable {s : Store} {decls : List ℕ}

/-- One type looked at by `forgotten`. -/
def forget_round (s : Store) (decls gone : List ℕ) (t : ℕ) : List ℕ :=
  match s.cell t with
  | some c => if !c.dead && names_dead decls gone c.form then gone ++ [t] else gone
  | none => gone

theorem mem_forget_round {gone : List ℕ} {t u : ℕ} : u ∈ forget_round s decls gone t ↔
    u ∈ gone ∨ (u = t ∧ ∃ c, s.cell t = some c ∧ c.dead = false ∧ names_dead decls gone c.form = true) := by
  unfold forget_round
  cases hc : s.cell t with
  | none => simp
  | some c =>
    by_cases h : (!c.dead && names_dead decls gone c.form) = true
    · simp only [h, if_true, mem_append, mem_singleton]
      simp only [Bool.and_eq_true, Bool.not_eq_true'] at h
      simp [h]
    · simp only [h]
      simp only [Bool.and_eq_true, Bool.not_eq_true', not_and] at h
      constructor
      · exact .inl
      · rintro (hu | ⟨rfl, c', hc', hdead, hn⟩)
        · exact hu
        · cases hc'
          exact absurd hn (h hdead)

/-- What is forgotten of the first `k` types that are no atoms. -/
def forgotten_of (s : Store) (decls : List ℕ) (k : ℕ) : List ℕ :=
  (range' (ATOMS.length + 1) k).foldl (forget_round s decls) []

theorem forgotten_of_succ (k : ℕ) : forgotten_of s decls (k + 1) =
    forget_round s decls (forgotten_of s decls k) (ATOMS.length + 1 + k) := by
  unfold forgotten_of
  rw [range'_concat, foldl_append, Nat.one_mul]
  rfl

theorem mem_forgotten_of {k t : ℕ} : t ∈ forgotten_of s decls k ↔
    ATOMS.length < t ∧ t < ATOMS.length + 1 + k ∧ ∃ c, s.cell t = some c ∧ c.dead = false ∧
      names_dead decls (forgotten_of s decls (t - (ATOMS.length + 1))) c.form = true := by
  induction k with
  | zero =>
    constructor
    · exact nofun
    · rintro ⟨h₁, h₂, -⟩
      omega
  | succ k ih =>
    rw [forgotten_of_succ, mem_forget_round, ih]
    constructor
    · rintro (⟨h₁, h₂, h₃⟩ | ⟨rfl, h⟩)
      · exact ⟨h₁, by omega, h₃⟩
      · refine ⟨by omega, by omega, ?_⟩
        rwa [Nat.add_sub_cancel_left]
    · rintro ⟨h₁, h₂, h₃⟩
      by_cases ht : t = ATOMS.length + 1 + k
      · refine .inr ⟨ht, ?_⟩
        subst ht
        rwa [Nat.add_sub_cancel_left] at h₃
      · exact .inl ⟨h₁, by omega, h₃⟩

theorem forgotten_eq (s : Store) (decls : List ℕ) :
    forgotten s decls = forgotten_of s decls (s.count - ATOMS.length) := rfl

theorem names_dead_iff {gone : List ℕ} {form : Form ℕ} : names_dead decls gone form = true ↔
    (∃ d ∈ form.names, d ∈ decls) ∨ ∃ p ∈ form.parts, p ∈ gone := by
  unfold names_dead
  rw [Bool.or_eq_true, any_eq_true]
  cases form <;> simp [Form.names]

theorem names_dead_congr {gone gone' : List ℕ} {form : Form ℕ} (h : ∀ p ∈ form.parts, p ∈ gone ↔ p ∈ gone') :
    names_dead decls gone form = true ↔ names_dead decls gone' form = true := by
  rw [names_dead_iff, names_dead_iff]
  refine or_congr_right ⟨?_, ?_⟩
  · rintro ⟨p, hp, hgone⟩
    exact ⟨p, hp, (h p hp).mp hgone⟩
  · rintro ⟨p, hp, hgone⟩
    exact ⟨p, hp, (h p hp).mpr hgone⟩

variable {o : Outside} (hs : TypesSound o s)

include hs

theorem mem_forgotten {t : ℕ} : t ∈ forgotten s decls ↔ ATOMS.length < t ∧
    ∃ c, s.cell t = some c ∧ c.dead = false ∧ names_dead decls (forgotten s decls) c.form = true := by
  rw [forgotten_eq, mem_forgotten_of]
  -- the parts of a type are looked at before it
  have hbefore : ∀ {c}, s.cell t = some c → ATOMS.length < t →
      t < ATOMS.length + 1 + (s.count - ATOMS.length) → ∀ p ∈ c.form.parts,
      p ∈ forgotten_of s decls (t - (ATOMS.length + 1)) ↔ p ∈ forgotten_of s decls (s.count - ATOMS.length) := by
    intro c hc h₁ h₂ p hp
    have hlt := hs.below hc p hp
    rw [mem_forgotten_of, mem_forgotten_of]
    constructor
    · rintro ⟨h₃, -, h₅⟩
      exact ⟨h₃, by omega, h₅⟩
    · rintro ⟨h₃, -, h₅⟩
      exact ⟨h₃, by omega, h₅⟩
  constructor
  · rintro ⟨h₁, h₂, c, hc, hdead, hn⟩
    exact ⟨h₁, c, hc, hdead, (names_dead_congr (hbefore hc h₁ h₂)).mp hn⟩
  rintro ⟨h₁, c, hc, hdead, hn⟩
  have hle := cell_le hc
  have h₂ : t < ATOMS.length + 1 + (s.count - ATOMS.length) := by
    rw [hs.count]
    omega
  exact ⟨h₁, h₂, c, hc, hdead, (names_dead_congr (hbefore hc h₁ h₂)).mpr hn⟩

theorem not_names_dead {t : ℕ} {c : Cell} (hc : s.cell t = some c) (hdead : c.dead = false)
    (ht : t ∉ forgotten s decls) : names_dead decls (forgotten s decls) c.form = false := by
  by_cases hatom : ATOMS.length < t
  · rw [mem_forgotten hs] at ht
    by_contra h
    exact ht ⟨hatom, c, hc, hdead, by simpa using h⟩
  have hpos := at_id_pos hc
  have htag : ∃ tag, atom_of tag = t := by
    have h : ∀ t ≤ ATOMS.length, 1 ≤ t → ∃ tag ∈ ATOMS, atom_of tag = t := by decide
    obtain ⟨tag, -, htag⟩ := h t (by omega) hpos
    exact ⟨tag, htag⟩
  obtain ⟨tag, rfl⟩ := htag
  obtain ⟨c', hc', -, hform⟩ := hs.atoms tag
  rw [hc] at hc'
  cases hc'
  rw [hform]
  rfl

end

/-! ## The store left -/

/-- `s'` is `s` less the types `gone`: their cells dead, and their keys out of the table. -/
structure Killed (s s' : Store) (gone : List ℕ) : Prop where
  rest : s' = { s with interned := s'.interned, types := s'.types }
  length : s'.types.length = s.types.length
  cell : ∀ t, s'.cell t = (s.cell t).map fun c => if t ∈ gone then { c with dead := true } else c
  kept : ∀ k, (∀ t ∈ gone, ∀ f, s.form t = some f → s.key_of f ≠ k) → s'.interned k = s.interned k
  cleared : ∀ t ∈ gone, ∀ f, s.form t = some f → s'.interned (s.key_of f) = none

section

variable {s s' : Store} {gone : List ℕ}

theorem Killed.form (h : Killed s s' gone) (t : ℕ) : s'.form t = s.form t := by
  unfold Store.form
  rw [h.cell, Option.map_map]
  congr 1
  funext c
  split <;> rfl

theorem Killed.key_of (h : Killed s s' gone) (f : Form ℕ) : s'.key_of f = s.key_of f := by
  rw [h.rest]
  rfl

theorem Killed.type (h : Killed s s' gone) (t : ℕ) : Killed s (s'.kill_type t) (gone ++ [t]) := by
  unfold Store.kill_type
  cases hform : s'.form t with
  | none =>
    -- no type of the store
    have hcell : s.cell t = none := by
      rw [h.form] at hform
      exact Option.map_eq_none_iff.mp hform
    have hno : ∀ f, s.form t ≠ some f := by
      intro f hf
      rw [Store.form, hcell] at hf
      cases hf
    refine ⟨h.rest, h.length, ?_, ?_, ?_⟩
    · intro u
      rw [h.cell]
      by_cases hu : u = t
      · rw [hu, hcell]
        rfl
      · simp only [mem_append, mem_singleton, hu, or_false]
    · exact fun k hk => h.kept k fun u hu => hk u (mem_append_left _ hu)
    · intro u hu f hf
      rcases mem_append.mp hu with hu | hu
      · exact h.cleared u hu f hf
      · rw [mem_singleton.mp hu] at hf
        exact absurd hf (hno f)
  | some f =>
    have hf : s.form t = some f := by rw [← h.form]; exact hform
    have hpos : 1 ≤ t := by
      obtain ⟨c, hc, -⟩ := form_iff.mp hf
      exact at_id_pos hc
    dsimp only
    rw [h.key_of]
    refine ⟨?_, ?_, ?_, ?_, ?_⟩
    · rw [h.rest]
    · exact (length_modify ..).trans h.length
    · intro u
      show at_id (s'.types.modify (t - 1) _) u = _
      rw [at_id_modify hpos, show at_id s'.types u = s'.cell u from rfl, h.cell]
      by_cases hu : u = t
      · rw [if_pos hu, Option.map_map]
        congr 1
        funext c
        have hmem : u ∈ gone ++ [t] := by simp [hu]
        rw [if_pos hmem]
        split <;> rfl
      · rw [if_neg hu]
        simp only [mem_append, mem_singleton, hu, or_false]
    · intro k hk
      have hne : k ≠ s.key_of f := fun heq => hk t (by simp) f hf heq.symm
      show s'.interned.clear (s.key_of f) k = _
      rw [Entries.clear_ne hne]
      exact h.kept k fun u hu => hk u (mem_append_left _ hu)
    · intro u hu g hg
      show s'.interned.clear (s.key_of f) (s.key_of g) = none
      by_cases heq : s.key_of g = s.key_of f
      · rw [heq]
        exact if_pos rfl
      rw [Entries.clear_ne heq]
      rcases mem_append.mp hu with hu | hu
      · exact h.cleared u hu g hg
      · rw [mem_singleton.mp hu, hf] at hg
        cases hg
        exact absurd rfl heq

theorem killed (s : Store) (gone : List ℕ) : Killed s (gone.foldl Store.kill_type s) gone := by
  induction gone using reverseRecOn with
  | nil =>
    refine ⟨rfl, rfl, fun t => ?_, fun _ _ => rfl, nofun⟩
    simp
  | append_singleton gone t ih =>
    rw [foldl_append]
    exact ih.type t

end

/-- `s'` is `s` less the declarations `gone`: dead, and out of the tables. -/
structure Undeclared (s s' : Store) (gone : List ℕ) : Prop where
  rest : s' = { s with
    decls := s'.decls, declared := s'.declared, pending := s'.pending, list := s'.list }
  decl : ∀ d, s'.decl d = (s.decl d).map fun c => if d ∈ gone then { c with dead := true } else c
  kept : ∀ k, (∀ d ∈ gone, ∀ decl, s.decl d = some decl → decl.key ≠ k) →
    s'.declared k = s.declared k ∧ s'.pending k = s.pending k
  cleared : ∀ d ∈ gone, ∀ decl, s.decl d = some decl → s'.declared decl.key = none
  pending : ∀ k, s'.pending k = none ∨ s'.pending k = s.pending k
  list : ∀ d, d ∈ s'.list ↔ d ∈ s.list ∧ (d ∈ gone → s.decl d = none)

section

variable {s s' : Store} {gone : List ℕ}

theorem Undeclared.one (h : Undeclared s s' gone) (d : ℕ) : Undeclared s (s'.kill_decl d) (gone ++ [d]) := by
  unfold Store.kill_decl
  cases hd' : s'.decl d with
  | none =>
    have hd : s.decl d = none := by
      rw [h.decl] at hd'
      exact Option.map_eq_none_iff.mp hd'
    refine ⟨h.rest, ?_, ?_, ?_, h.pending, ?_⟩
    · intro e
      rw [h.decl]
      by_cases he : e = d
      · rw [he, hd]
        rfl
      · simp only [mem_append, mem_singleton, he, or_false]
    · exact fun k hk => h.kept k fun e he => hk e (mem_append_left _ he)
    · intro e he decl hdecl
      rcases mem_append.mp he with he | he
      · exact h.cleared e he decl hdecl
      · rw [mem_singleton.mp he, hd] at hdecl
        cases hdecl
    · intro e
      rw [h.list]
      refine and_congr_right fun _ => ?_
      simp only [mem_append, mem_singleton]
      constructor
      · rintro hg (he | rfl)
        · exact hg he
        · exact hd
      · exact fun hg he => hg (.inl he)
  | some decl' =>
    obtain ⟨decl, hd, hkey⟩ : ∃ decl, s.decl d = some decl ∧ decl'.key = decl.key := by
      rw [h.decl] at hd'
      obtain ⟨decl, hd, hmap⟩ := Option.map_eq_some_iff.mp hd'
      refine ⟨decl, hd, ?_⟩
      rw [← hmap]
      split <;> rfl
    have hpos := at_id_pos hd'
    dsimp only
    rw [hkey]
    refine ⟨?_, ?_, ?_, ?_, ?_, ?_⟩
    · dsimp only [Store.set_decl]
      rw [h.rest]
    · intro e
      show at_id (s'.decls.modify (d - 1) _) e = _
      rw [at_id_modify hpos, show at_id s'.decls e = s'.decl e from rfl, h.decl]
      by_cases he : e = d
      · rw [if_pos he, Option.map_map]
        congr 1
        funext c
        have hmem : e ∈ gone ++ [d] := by simp [he]
        rw [if_pos hmem]
        split <;> rfl
      · rw [if_neg he]
        simp only [mem_append, mem_singleton, he, or_false]
    · intro k hk
      have hne : k ≠ decl.key := fun heq => hk d (by simp) decl hd heq.symm
      obtain ⟨h₁, h₂⟩ := h.kept k fun e he => hk e (mem_append_left _ he)
      exact ⟨(Entries.clear_ne hne).trans h₁, (Entries.clear_ne hne).trans h₂⟩
    · intro e he g hg
      show s'.declared.clear decl.key g.key = none
      by_cases heq : g.key = decl.key
      · rw [heq]
        exact if_pos rfl
      rw [Entries.clear_ne heq]
      rcases mem_append.mp he with he | he
      · exact h.cleared e he g hg
      · rw [mem_singleton.mp he, hd] at hg
        cases hg
        exact absurd rfl heq
    · intro k
      show s'.pending.clear decl.key k = none ∨ s'.pending.clear decl.key k = s.pending k
      by_cases hk : k = decl.key
      · rw [hk]
        exact .inl (if_pos rfl)
      · rw [Entries.clear_ne hk]
        exact h.pending k
    · intro e
      rw [List.mem_filter, h.list]
      simp only [mem_append, mem_singleton, decide_eq_true_eq]
      constructor
      · rintro ⟨⟨h₁, h₂⟩, hne⟩
        refine ⟨h₁, ?_⟩
        rintro (he | he)
        · exact h₂ he
        · exact absurd he hne
      · rintro ⟨h₁, h₂⟩
        refine ⟨⟨h₁, fun he => h₂ (.inl he)⟩, ?_⟩
        rintro rfl
        exact absurd ((h₂ (.inr rfl)).symm.trans hd) (by simp)

theorem undeclared (s : Store) (gone : List ℕ) : Undeclared s (gone.foldl Store.kill_decl s) gone := by
  induction gone using reverseRecOn with
  | nil =>
    refine ⟨rfl, fun d => ?_, fun _ _ => ⟨rfl, rfl⟩, nofun,
      fun _ => .inr rfl, fun d => ?_⟩
    · simp
    · simp
  | append_singleton gone d ih =>
    rw [foldl_append]
    exact ih.one d

end

/-! ## What is left is sound -/

/-- `s'` is `s` less the declarations `decls` and the types that name one. -/
structure Forgot (s s' : Store) (decls gone : List ℕ) : Prop where
  rest : s'.count = s.count ∧ s'.journal = s.journal ∧ s'.transactions = s.transactions
  length : s'.types.length = s.types.length
  cell : ∀ t, s'.cell t = (s.cell t).map fun c => if t ∈ gone then { c with dead := true } else c
  interned_kept : ∀ k, (∀ t ∈ gone, ∀ f, s.form t = some f → s.key_of f ≠ k) → s'.interned k = s.interned k
  interned_cleared : ∀ t ∈ gone, ∀ f, s.form t = some f → s'.interned (s.key_of f) = none
  decl : ∀ d, s'.decl d = (s.decl d).map fun c => if d ∈ decls then { c with dead := true } else c
  kept : ∀ k, (∀ d ∈ decls, ∀ decl, s.decl d = some decl → decl.key ≠ k) →
    s'.declared k = s.declared k ∧ s'.pending k = s.pending k
  cleared : ∀ d ∈ decls, ∀ decl, s.decl d = some decl → s'.declared decl.key = none
  pending : ∀ k, s'.pending k = none ∨ s'.pending k = s.pending k
  list : ∀ d, d ∈ s'.list ↔ d ∈ s.list ∧ d ∉ decls

section

variable {o : Outside} {s s' : Store} {decls gone : List ℕ}

theorem Forgot.cell_alive (h : Forgot s s' decls gone) {t : ℕ} {c : Cell} (hc : s'.cell t = some c)
    (hdead : c.dead = false) : s.cell t = some c ∧ t ∉ gone := by
  rw [h.cell] at hc
  obtain ⟨c', hc', hmap⟩ := Option.map_eq_some_iff.mp hc
  by_cases ht : t ∈ gone
  · rw [if_pos ht] at hmap
    rw [← hmap] at hdead
    cases hdead
  · rw [if_neg ht] at hmap
    exact ⟨hmap ▸ hc', ht⟩

theorem Forgot.decl_alive (h : Forgot s s' decls gone) {d : ℕ} {decl : Decl} (hd : s'.decl d = some decl)
    (hdead : decl.dead = false) : s.decl d = some decl ∧ d ∉ decls := by
  rw [h.decl] at hd
  obtain ⟨decl', hd', hmap⟩ := Option.map_eq_some_iff.mp hd
  by_cases ht : d ∈ decls
  · rw [if_pos ht] at hmap
    rw [← hmap] at hdead
    cases hdead
  · rw [if_neg ht] at hmap
    exact ⟨hmap ▸ hd', ht⟩

theorem Forgot.cell_of_not (h : Forgot s s' decls gone) {t : ℕ} (ht : t ∉ gone) : s'.cell t = s.cell t := by
  rw [h.cell]
  simp [ht]

theorem Forgot.decl_of_not (h : Forgot s s' decls gone) {d : ℕ} (hd : d ∉ decls) : s'.decl d = s.decl d := by
  rw [h.decl]
  simp [hd]

theorem Forgot.shows (h : Forgot s s' decls gone) : Shows s' s := by
  constructor
  · intro t ht
    obtain ⟨c, hc, hdead⟩ := alive_iff.mp ht
    rw [hc]
    exact (h.cell_alive hc hdead).1
  · intro d decl hd hdead
    exact ⟨decl, (h.decl_alive hd hdead).1, rfl⟩

theorem Forgot.decl_text (h : Forgot s s' decls gone) (d : ℕ) : s'.decl_text d = s.decl_text d := by
  unfold Store.decl_text
  rw [h.decl, Option.map_map]
  congr 2
  funext c
  split <;> rfl

theorem Forgot.key_of (h : Forgot s s' decls gone) (f : Form ℕ) : s'.key_of f = s.key_of f :=
  render_congr (fun d _ => h.decl_text d) fun _ _ => rfl

variable (h : Forgot s s' decls gone) (hs : Sound o s) (hgone : gone = forgotten s decls)

include h hs hgone

theorem Forgot.closed : Closed s' := by
  have hlive : ∀ {t c}, s'.cell t = some c → c.dead = false →
      (∀ p ∈ c.form.parts, p ∉ gone) ∧ ∀ d ∈ c.form.names, d ∉ decls := by
    intro t c hc hdead
    obtain ⟨hc', ht⟩ := h.cell_alive hc hdead
    rw [hgone] at ht
    have hn := not_names_dead hs.types hc' hdead ht
    rw [← hgone, Bool.eq_false_iff, ne_eq, names_dead_iff, not_or] at hn
    exact ⟨fun p hp hg => hn.2 ⟨p, hp, hg⟩, fun d hd hg => hn.1 ⟨d, hd, hg⟩⟩
  constructor
  · intro t c hc hdead p hp
    obtain ⟨c', hc', hdead'⟩ := alive_iff.mp (hs.types.closed.parts (h.cell_alive hc hdead).1 hdead p hp)
    exact alive_iff.mpr ⟨c', (h.cell_of_not ((hlive hc hdead).1 p hp)).trans hc', hdead'⟩
  · intro t c hc hdead d hd
    obtain ⟨decl, hdecl, hdead'⟩ := decl_alive_iff.mp (hs.types.closed.names (h.cell_alive hc hdead).1 hdead d hd)
    exact decl_alive_iff.mpr ⟨decl, (h.decl_of_not ((hlive hc hdead).2 d hd)).trans hdecl, hdead'⟩

theorem Forgot.types_sound : TypesSound o s' := by
  have hshows := h.shows
  have hclosed := h.closed hs hgone
  -- a dead cell is a cell of the store before with another flag
  have hcell : ∀ {t c}, s'.cell t = some c → ∃ c', s.cell t = some c' ∧ c'.form = c.form := by
    intro t c hc
    rw [h.cell] at hc
    obtain ⟨c', hc', hmap⟩ := Option.map_eq_some_iff.mp hc
    refine ⟨c', hc', ?_⟩
    rw [← hmap]
    split <;> rfl
  constructor
  · rw [h.rest.1, hs.types.count, h.length]
  · intro tag
    obtain ⟨c, hc, hdead, hform⟩ := hs.types.atoms tag
    have hnot : atom_of tag ∉ gone := by
      rw [hgone, mem_forgotten hs.types]
      rintro ⟨hlt, -⟩
      have hle : atom_of tag ≤ ATOMS.length := by cases tag <;> decide
      omega
    exact ⟨c, (h.cell_of_not hnot).trans hc, hdead, hform⟩
  · exact hclosed
  · intro t c hc p hp
    obtain ⟨c', hc', hform⟩ := hcell hc
    exact hs.types.below hc' p (by rw [hform]; exact hp)
  · intro t c hc d hd
    obtain ⟨c', hc', hform⟩ := hcell hc
    have hmade := hs.types.made hc' d (by rw [hform]; exact hd)
    rwa [h.decl, Option.isSome_map]
  · intro t c hc hdead
    rcases hs.types.normal (h.cell_alive hc hdead).1 hdead with htag | hn
    · exact .inl htag
    · exact .inr (hn.hides hshows hclosed (hclosed.parts hc hdead))
  · intro k t
    constructor
    · intro hk
      have hkept : ∀ u ∈ gone, ∀ f, s.form u = some f → s.key_of f ≠ k := by
        intro u hu f hf heq
        rw [← heq, h.interned_cleared u hu f hf] at hk
        cases hk
      rw [h.interned_kept k hkept] at hk
      obtain ⟨c, hc, hdead, hkey⟩ := (hs.types.interned k t).mp hk
      have ht : t ∉ gone := fun hg => hkept t hg c.form (form_iff.mpr ⟨c, hc, rfl⟩) hkey
      exact ⟨c, (h.cell_of_not ht).trans hc, hdead, (h.key_of c.form).trans hkey⟩
    · rintro ⟨c, hc, hdead, hkey⟩
      obtain ⟨hc', ht⟩ := h.cell_alive hc hdead
      rw [h.key_of] at hkey
      have hk := (hs.types.interned k t).mpr ⟨c, hc', hdead, hkey⟩
      rw [h.interned_kept k ?_]
      · exact hk
      intro u hu f hf heq
      rw [hgone] at hu
      obtain ⟨-, cu, hcu, hdeadu, -⟩ := (mem_forgotten hs.types).mp hu
      have hfu : cu.form = f := by
        rw [Store.form, hcu] at hf
        exact Option.some.inj hf
      have hk' := (hs.types.interned k u).mpr ⟨cu, hcu, hdeadu, by rw [hfu]; exact heq⟩
      rw [hk] at hk'
      rw [Option.some.inj hk', hgone] at ht
      exact ht hu
  · intro t c hc hdead
    rw [← cell_of_shows hshows (hclosed.parts hc hdead) (hclosed.names hc hdead)]
    exact hs.types.measured (h.cell_alive hc hdead).1 hdead
  · intro t c hc hdead
    exact hs.types.shallow (h.cell_alive hc hdead).1 hdead

theorem Forgot.decls_sound (hlive : ∀ d ∈ decls, s.decl_alive d = true) : DeclsSound s' := by
  have hkey_ne : ∀ {d decl}, s.decl d = some decl → decl.dead = false → d ∉ decls →
      ∀ e ∈ decls, ∀ decl', s.decl e = some decl' → decl'.key ≠ decl.key := by
    intro d decl hd hdead hnot e he decl' hd' heq
    obtain ⟨decl'', hd'', hdead''⟩ := decl_alive_iff.mp (hlive e he)
    rw [hd'] at hd''
    cases hd''
    have h₁ := (hs.decls.declared decl.key d).mpr ⟨decl, hd, hdead, rfl⟩
    have h₂ := (hs.decls.declared decl.key e).mpr ⟨decl', hd', hdead'', heq⟩
    rw [h₁] at h₂
    exact hnot (Option.some.inj h₂ ▸ he)
  have hdecl : ∀ {d decl}, s'.decl d = some decl → ∃ decl', s.decl d = some decl' ∧
      decl'.text = decl.text ∧ decl'.module = decl.module ∧ decl'.names = decl.names ∧
      decl'.name = decl.name ∧ decl'.arity = decl.arity ∧ decl'.body = decl.body := by
    intro d decl hd
    rw [h.decl] at hd
    obtain ⟨decl', hd', hmap⟩ := Option.map_eq_some_iff.mp hd
    refine ⟨decl', hd', ?_⟩
    rw [← hmap]
    split <;> exact ⟨rfl, rfl, rfl, rfl, rfl, rfl⟩
  constructor
  · intro d decl hd
    obtain ⟨decl', hd', htext, hmodule, hnames, hname, -⟩ := hdecl hd
    have hp := hs.decls.proper hd'
    exact ⟨by rw [← htext, ← hmodule, ← hname]; exact hp.text,
      by rw [← hmodule, ← hnames, ← hname]; exact hp.name⟩
  · intro k d
    constructor
    · intro hk
      have hkept : ∀ e ∈ decls, ∀ decl, s.decl e = some decl → decl.key ≠ k := by
        intro e he decl hd heq
        rw [← heq, h.cleared e he decl hd] at hk
        cases hk
      rw [(h.kept k hkept).1] at hk
      obtain ⟨decl, hd, hdead, hkey⟩ := (hs.decls.declared k d).mp hk
      have hnot : d ∉ decls := fun hm => hkept d hm decl hd hkey
      exact ⟨decl, (h.decl_of_not hnot).trans hd, hdead, hkey⟩
    · rintro ⟨decl, hd, hdead, hkey⟩
      obtain ⟨hd', hnot⟩ := h.decl_alive hd hdead
      rw [(h.kept k ?_).1]
      · exact (hs.decls.declared k d).mpr ⟨decl, hd', hdead, hkey⟩
      · intro e he decl' hde
        rw [← hkey]
        exact hkey_ne hd' hdead hnot e he decl' hde
  · intro d
    rw [h.list, hs.decls.listed]
    constructor
    · rintro ⟨ha, hnot⟩
      obtain ⟨decl, hd, hdead⟩ := decl_alive_iff.mp ha
      exact decl_alive_iff.mpr ⟨decl, (h.decl_of_not hnot).trans hd, hdead⟩
    · intro ha
      obtain ⟨decl, hd, hdead⟩ := decl_alive_iff.mp ha
      obtain ⟨hd', hnot⟩ := h.decl_alive hd hdead
      exact ⟨decl_alive_iff.mpr ⟨decl, hd', hdead⟩, hnot⟩
  · intro d decl body hd hbody
    obtain ⟨decl', hd', -, -, -, -, harity, hbody'⟩ := hdecl hd
    rw [← harity]
    exact hs.decls.arity hd' (hbody'.trans hbody)
  · intro t c d args value decl n hc hdead hform hd harity
    obtain ⟨decl', hd', -, -, -, -, harity', -⟩ := hdecl hd
    exact hs.decls.args (h.cell_alive hc hdead).1 hdead hform hd' (harity'.trans harity)
  · intro t c d args value decl hc hdead hform hd harity
    have halive := (h.closed hs hgone).names hc hdead d (by rw [hform]; rfl)
    obtain ⟨decl', hd', hdead'⟩ := decl_alive_iff.mp halive
    rw [hd] at hd'
    cases hd'
    obtain ⟨hd', hnot⟩ := h.decl_alive hd hdead'
    rw [(h.kept decl.key (hkey_ne hd' hdead' hnot)).2]
    exact hs.decls.uses (h.cell_alive hc hdead).1 hdead hform hd' harity
  · intro k hk
    rcases h.pending k with hp | hp
    · rw [hp] at hk
      cases hk
    · exact hs.decls.waiting k (hp.symm.trans hk)

theorem Forgot.sound (hlive : ∀ d ∈ decls, s.decl_alive d = true) (ht : s.transactions = 0) : Sound o s' := by
  refine ⟨h.types_sound hs hgone, h.decls_sound hs hgone hlive, ?_, ?_⟩
  · intro d arity hmem
    rw [h.rest.2.1, hs.journal.idle ht] at hmem
    cases hmem
  · intro _
    rw [h.rest.2.1]
    exact hs.journal.idle ht

end

/-- What `forget` changes a store to, once it has refused what it refuses. -/
def Store.left (s : Store) (decls : List ℕ) : Store :=
  let gone := forgotten s decls
  let s := { s with dead := s.dead + gone.length }
  let s := gone.foldl Store.kill_type s
  (s.list.filter (decls.contains ·)).foldl Store.kill_decl s

section

variable {o : Outside} {s : Store} {decls : List ℕ}

theorem forgot_left (hs : Sound o s) (hlive : ∀ d ∈ decls, s.decl_alive d = true) :
    Forgot s (s.left decls) decls (forgotten s decls) := by
  let s₀ : Store := { s with dead := s.dead + (forgotten s decls).length }
  let s₁ := (forgotten s decls).foldl Store.kill_type s₀
  have hk : Killed s₀ s₁ (forgotten s decls) := killed s₀ _
  have hu : Undeclared s₁ (s.left decls) (s₁.list.filter (decls.contains ·)) := undeclared s₁ _
  have hdecl : s₁.decl = s.decl := by
    funext d
    rw [hk.rest]
    rfl
  have hlist : s₁.list = s.list := by rw [hk.rest]
  -- the declarations forgotten are all in the list
  have hmem : ∀ d, d ∈ s₁.list.filter (decls.contains ·) ↔ d ∈ decls := by
    intro d
    rw [List.mem_filter, hlist, contains_iff_mem]
    constructor
    · exact fun h => h.2
    · exact fun h => ⟨(hs.decls.listed d).mpr (hlive d h), h⟩
  constructor
  · rw [hu.rest, hk.rest]
    exact ⟨rfl, rfl, rfl⟩
  · rw [hu.rest]
    exact hk.length
  · intro t
    rw [hu.rest]
    exact hk.cell t
  · intro k h
    rw [hu.rest]
    exact hk.kept k h
  · intro t ht f hf
    rw [hu.rest]
    exact hk.cleared t ht f hf
  · intro d
    rw [hu.decl, hdecl]
    congr 1
    funext c
    simp only [hmem]
  · intro k h
    have hkept := hu.kept k (fun d hd decl hdd => h d ((hmem d).mp hd) decl (by rw [← hdecl]; exact hdd))
    rwa [hk.rest] at hkept
  · intro d hd decl hdd
    exact hu.cleared d ((hmem d).mpr hd) decl (by rw [hdecl]; exact hdd)
  · intro k
    have hpending := hu.pending k
    rwa [hk.rest] at hpending
  · intro d
    rw [hu.list, hmem, hlist, hdecl]
    refine and_congr_right fun hd => ⟨fun himp hdecls => ?_, fun hnot hdecls => absurd hdecls hnot⟩
    obtain ⟨decl, hsome, -⟩ := decl_alive_iff.mp (hlive d hdecls)
    exact absurd ((himp hdecls).symm.trans hsome) (by simp)

theorem ends_forget_left (s : Store) (decls : List ℕ) : Ends (forget decls) s
      (fun _ s' => s.transactions = 0 ∧ (∀ d ∈ decls, s.decl_alive d = true) ∧ s' = s.left decls) fun _ s' => s' = s := by
  have hlive : Quiet (each declared_here decls) s fun _ => ∀ d ∈ decls, s.decl_alive d = true := by
    apply (quiet_each decls
      fun d _ => quiet_declared s d).mono
    intro ds _ _ h
    have hall : Forall₂ (fun d (_ : Decl) => s.decl_alive d = true) decls ds :=
      h.imp fun d decl hd => decl_alive_iff.mpr ⟨decl, hd⟩
    exact forall_of_forall₂ hall
  unfold forget
  simp only [ends_bind, ends_read, ends_refuse, ends_change]
  refine ⟨fun _ => trivial, fun ht => ?_⟩
  apply Ends.mono hlive
  · rintro _ s' ⟨rfl, hlive⟩
    exact ⟨by omega, hlive, rfl⟩
  · rintro _ s' rfl
    rfl

/-- Forgetting keeps a store sound, and what is refused changes nothing. -/
theorem ends_forget (hs : Sound o s) (decls : List ℕ) :
    Ends (forget decls) s (fun _ s' => Sound o s') fun _ s' => s' = s := by
  refine Ends.mono (ends_forget_left s decls) ?_ fun _ _ h => h
  rintro _ s' ⟨ht, hlive, rfl⟩
  exact (forgot_left hs hlive).sound hs rfl hlive ht

end

end Cosmic.Types
