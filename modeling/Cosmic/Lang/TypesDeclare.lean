/-
What the operations on declarations do, as runs of steps.
-/
import Cosmic.Lang.TypesMake

set_option autoImplicit false

namespace Cosmic.Types

open Cosmic.Base List
open Cosmic.Base.Raise

/-! ## Declaring -/

section

variable {o : Outside} {s s' : Store}

theorem grows_frame (h : Grows o s s') : s'.decls = s.decls ∧ s'.pending = s.pending ∧ s'.declared = s.declared := by
  induction h with
  | refl => exact ⟨rfl, rfl, rfl⟩
  | tail _ h ih =>
    cases h with
    | type _ _ => exact ih

theorem grows_decl (h : Grows o s s') (d : ℕ) : s'.decl d = s.decl d := by
  unfold Store.decl
  rw [(grows_frame h).1]

theorem steady_declaration_name (module : Bytes) (names : List Bytes) :
    Steady (declaration_name module names : M Bytes) := by
  apply steady_bind (steady_refuse _ _)
  intro _
  apply steady_bind (steady_refuse _ _)
  intro _
  have hnames : ∀ _ : Unit, Steady (do
      let _ ← each (fun n => refuse (is_binding_name n = false)
        (lit "types: a declaration's name is a name the lexer reads and does not reserve, not \"" ++
          quoted n ++ lit "\"")) names
      return concat (lit ".") names : M Bytes) := by
    intro _
    apply steady_bind (steady_each (fun _ => steady_refuse _ _) _)
    intro _
    exact steady_pure _
  split
  · exact steady_bind (steady_refuse _ _) hnames
  · exact steady_bind (steady_answer ()) hnames

theorem quiet_check_uses (s : Store) (decl : Decl) (n : ℕ) : Quiet (check_uses decl n) s fun _ => Agree s decl n := by
  apply goes_read_bind
  cases hwrong : (((s.pending decl.key).getD []).map s.use_args).find? (· ≠ n) with
  | some given => exact goes_raise _
  | none =>
    apply goes_answer
    intro use huse
    have hne := find?_eq_none.mp hwrong _ (mem_map_of_mem huse)
    simpa using hne

theorem stepping_set_arity {d : ℕ} {decl : Decl} (hd : s.decl d = some decl) (hdead : decl.dead = false) (n : ℕ) :
    Stepping o (set_arity d decl n) s fun _ s' =>
      ∃ decl', s'.decl d = some decl' ∧ decl'.head = decl.head ∧ decl'.arity = some n := by
  unfold set_arity
  cases harity : decl.arity with
  | some held =>
    apply goes_refuse
    intro h
    exact ⟨decl, hd, rfl, by rw [harity, not_not.mp h]⟩
  | none =>
    apply goes_quiet_bind (quiet_check_uses s decl n)
    intro _ huses
    apply goes_change (.single (.arity hd hdead harity huses))
    refine ⟨{ decl with arity := some n }, ?_, rfl, rfl⟩
    have hnote : ∀ d', (s.note d decl).decl d' = s.decl d' := fun _ => rfl
    rw [set_decl_decl ((hnote d).trans hd), if_pos rfl]

theorem path_key_inj {module name module' name' : Bytes}
    (h : path_key module name = path_key module' name') : module = module' ∧ name = name' := by
  have hdigits : ∀ (n : ℕ) (u : Bytes), (tostring n ++ 58 :: u).takeWhile isDigit = tostring n := by
    intro n u
    rw [takeWhile_append_of_pos fun b hb => isDigit_of_mem_tostring hb]
    simp [show isDigit 58 = false from rfl]
  have hkey : ∀ m n : Bytes, path_key m n = tostring m.length ++ 58 :: (m ++ n) := by
    intro m n
    simp [path_key, lit]
  rw [hkey, hkey] at h
  have hlen := congrArg (List.takeWhile isDigit) h
  rw [hdigits, hdigits] at hlen
  rw [hlen] at h
  exact append_inj (cons_eq_cons.mp (append_cancel_left h)).2 (tostring_inj hlen)

/-- A declaration as `declare` answers it. -/
structure Declared (kind : DeclKind) (module name : Bytes) (arity : Option ℕ) (s : Store) (d : ℕ) :
    Prop where
  here : ∃ decl, s.decl d = some decl ∧ decl.dead = false ∧ decl.kind = kind ∧
    decl.module = module ∧ decl.name = name ∧ ∀ n ∈ arity, decl.arity = some n

theorem stepping_declare (hs : Sound o s) (kind : DeclKind) (module : Bytes) (names : List Bytes) (arity : Option ℤ) :
    Stepping o (declare kind module names arity) s fun d s' =>
      ∃ name, (∀ s, declaration_name module names s = .ok name s) ∧
        Declared kind module name (arity.map Int.toNat) s' d := by
  apply goes_refuse_bind
  intro _
  apply goes_quiet_bind (steady_declaration_name module names).quiet
  intro name hname
  apply goes_read_bind
  cases hfound : s.declared (path_key module name) with
  | some d =>
    apply goes_quiet_bind (quiet_declared s d)
    rintro decl ⟨hd, hdead⟩
    apply goes_refuse_bind
    intro hkind
    obtain ⟨decl', hd', -, hkey⟩ := (hs.decls.declared _ _).mp hfound
    rw [hd] at hd'
    cases hd'
    obtain ⟨hm, hn⟩ := path_key_inj hkey
    cases arity with
    | none =>
      apply goes_pure
      exact ⟨name, hname, decl, hd, hdead, not_not.mp hkind, hm, hn, nofun⟩
    | some n =>
      apply goes_bind (stepping_set_arity hd hdead n.toNat)
      rintro _ s' - ⟨decl', hd', hhead, harity⟩
      apply goes_pure
      refine ⟨name, hname, decl', hd', (Decl.head_dead hhead).trans hdead,
        (Decl.head_kind hhead).trans (not_not.mp hkind), ?_, ?_, ?_⟩
      · exact (congrArg Decl.module hhead).trans hm
      · exact (congrArg Decl.name hhead).trans hn
      · rintro m ⟨⟩
        exact harity
  | none =>
    have hproper : Proper {
        kind, module, names, name
        text := quote module ++ lit " " ++ quote name
        arity := arity.map Int.toNat } := ⟨rfl, hname⟩
    apply goes_change_bind (.single (.decl hfound rfl rfl hproper))
    apply goes_read
    refine ⟨name, hname, _, add_decl_decl.mpr (.inr ⟨?_, rfl⟩), rfl, rfl, rfl, rfl, fun n h => h⟩
    show (s.decls ++ [_]).length = _
    rw [length_append, length_singleton]

/-! ## Defining -/

theorem quiet_check_kind (s : Store) (decl : Decl) (body : Body) :
    Quiet (check_kind decl body) s fun _ => Suits decl body := by
  apply goes_refuse_bind
  intro henum
  apply goes_refuse_bind
  intro halias
  apply goes_refuse_bind
  intro hnoalias
  apply goes_refuse
  intro hnovalues
  simp only [beq_iff_eq, not_and, not_not, ne_eq, not_or] at henum halias hnoalias hnovalues
  exact ⟨henum, halias, hnoalias, hnovalues⟩

end

section

variable {o : Outside} {s : Store} (hs : Sound o s)

include hs

theorem growing_field (field : Field) : Growing o (do
      owned field.type
      if field.omittable then
        let t ← optional o field.type
        return { field with type := t }
      return field) s fun made s' =>
        s'.alive made.type = true ∧ made.name = field.name ∧ made.omittable = field.omittable ∧
          (made.omittable = true → Nilable s' made.type) := by
  apply goes_quiet_bind (quiet_owned s field.type)
  intro _ hf
  by_cases ho : field.omittable = true
  · rw [if_pos ho]
    apply goes_bind (growing_optional hs field.type)
    rintro t s' - ⟨ht, hnil⟩
    exact goes_pure ⟨ht, rfl, rfl, fun _ => hnil⟩
  · rw [if_neg ho]
    exact goes_pure ⟨hf, rfl, rfl, fun h => absurd h ho⟩

omit hs in
theorem quiet_tparam (tp : DeclParam) : Quiet (do
      let _ ← each (bound_ok o) tp.bound.toList
      refuse (is_binding_name tp.name = false)
        (lit "types: a type parameter's name is a name the lexer reads and does not reserve," ++
          lit " not \"" ++ quoted tp.name ++ lit "\"")) s fun _ =>
      (∀ b ∈ tp.bound, s.alive b = true ∧ is_bound s b = true) ∧ is_binding_name tp.name = true := by
  apply goes_quiet_bind (quiet_each tp.bound.toList fun b _ => quiet_bound_ok o s b)
  intro _ hb
  apply goes_refuse
  intro hname
  refine ⟨?_, by simpa using hname⟩
  intro b hmem
  exact forall_of_forall₂ hb b (Option.mem_toList.mpr hmem)

omit hs in
theorem quiet_super (super : ℕ) : Quiet (do
      owned super
      let form ← read (·.form super)
      match form with
      | some (.named _ _ _) => answer ()
      | _ => error (lit "a declaration lists named types after `is`")) s fun _ =>
      s.alive super = true ∧ ∃ d args value, s.form super = some (.named d args value) := by
  apply goes_quiet_bind (quiet_owned s super)
  intro _ hsuper
  apply goes_read_bind
  split
  · next d args value hform => exact goes_answer ⟨hsuper, d, args, value, hform⟩
  · exact goes_raise _

omit hs in
theorem quiet_method (method : Method) : Quiet (do
      owned method.type
      let form ← read (·.form method.type)
      match form with
      | some (.fn _ _ _ _) => answer ()
      | _ => error (lit "a method is a function")
      refuse (is_name method.name = false)
        (lit "types: a method's name is a name the lexer reads, not \"" ++ quoted method.name ++ lit "\"")) s fun _ =>
      s.alive method.type = true ∧ is_name method.name = true ∧
        ∃ tparams params rest rets, s.form method.type = some (.fn tparams params rest rets) := by
  apply goes_quiet_bind (quiet_owned s method.type)
  intro _ hmethod
  apply goes_read_bind
  split
  · next tparams params rest rets hform =>
    apply goes_refuse
    intro hname
    exact ⟨hmethod, by simpa using hname, tparams, params, rest, rets, hform⟩
  · exact goes_raise _

omit hs in
theorem quiet_check_root (decl : Decl) (count root : ℕ) : Quiet (check_root o decl count root) s fun _ =>
      (s.cell root).any (·.open_ > 1) = false ∧ unbound s count (root + 1) 0 root = none := by
  apply goes_read_bind
  apply goes_refuse_bind
  intro hopen
  dsimp only [id]
  cases hwhy : unbound s count (root + 1) 0 root with
  | some why => exact goes_raise _
  | none => exact goes_answer ⟨by simpa using hopen, rfl⟩

theorem growing_normal_body (d : ℕ) (decl : Decl) (body : Body) :
    Growing o (normal_body o d decl body) s fun made s' =>
      Bodied s' decl made ∧ made.tparams = body.tparams := by
  apply goes_quiet_bind (quiet_check_kind s decl body)
  intro _ hsuits
  apply goes_quiet_bind (quiet_each (K := fun (tp : DeclParam) _ =>
    (∀ b ∈ tp.bound, s.alive b = true ∧ is_bound s b = true) ∧ is_binding_name tp.name = true)
    body.tparams fun tp _ => quiet_tparam tp)
  intro _ htp
  have htp := forall_of_forall₂ htp
  apply goes_quiet_bind (quiet_each (K := fun super _ =>
    s.alive super = true ∧ ∃ d args value, s.form super = some (.named d args value))
    body.supers fun super _ => quiet_super super)
  intro _ hsupers
  have hsupers := forall_of_forall₂ hsupers
  apply goes_read_bind
  dsimp only [id]
  split
  · exact goes_raise _
  -- the fields, which may make types
  apply goes_bind (goes_each (K := fun (_ : Field) (made : Field) s =>
    s.alive made.type = true ∧ (made.omittable = true → Nilable s made.type)) ?_ body.fields ?_)
  · intro fields s₁ hs₁ hfields
    have hshows := hs₁.steps.shows
    have hfields' := forall_of_forall₂ hfields.flip
    apply goes_quiet_bind (quiet_owned_each s₁ _)
    intro _ harray
    apply goes_quiet_bind (quiet_each (K := fun (method : Method) _ =>
      s₁.alive method.type = true ∧ is_name method.name = true ∧
        ∃ tparams params rest rets, s₁.form method.type = some (.fn tparams params rest rets))
      body.methods fun method _ => quiet_method method)
    intro _ hmethods
    have hmethods := forall_of_forall₂ hmethods
    apply goes_quiet_bind (quiet_owned_each s₁ _)
    intro _ halias
    cases hvalues : twice [] body.values with
    | some v => exact goes_raise _
    | none =>
      apply goes_quiet_bind (quiet_each (K := fun root _ =>
        (s₁.cell root).any (·.open_ > 1) = false ∧ unbound s₁ body.tparams.length (root + 1) 0 root = none)
        _ fun root _ => quiet_check_root decl _ root)
      intro _ hroots
      have hroots := forall_of_forall₂ hroots
      apply goes_pure
      refine ⟨?_, rfl⟩
      have hempty : fields.isEmpty = body.fields.isEmpty := by
        cases hb : body.fields <;> cases hf : fields <;> simp_all
      have hbare : ({ body with fields := fields } : Body).bare = body.bare := by
        unfold Body.bare
        rw [hempty]
      constructor
      · exact ⟨fun h => hbare.trans (hsuits.enum h),
          fun h => ⟨hbare.trans (hsuits.alias_ h).1, (hsuits.alias_ h).2⟩, hsuits.no_alias,
          hsuits.no_values⟩
      · intro tp hmem b hb
        obtain ⟨ha, hbound⟩ := (htp tp hmem).1 b hb
        exact (is_bound_shows hshows hs.types.closed ha).trans hbound
      · exact fun tp hmem => (htp tp hmem).2
      · intro super hmem
        obtain ⟨ha, d', args, value, hform⟩ := hsupers super hmem
        exact ⟨d', args, value, (hshows.form ha).trans hform⟩
      · exact fun field hmem => (hfields' field hmem).2
      · exact fun method hmem => (hmethods method hmem).2
      · exact hvalues
      · intro root hmem
        simp only [Body.roots, mem_append, or_assoc] at hmem
        rcases hmem with hmem | hmem | hmem | hmem | hmem | hmem
        · obtain ⟨tp, htpm, hb⟩ := mem_filterMap.mp hmem
          exact hshows.alive ((htp tp htpm).1 root hb).1
        · exact hshows.alive (hsupers root hmem).1
        · obtain ⟨field, hf, rfl⟩ := mem_map.mp hmem
          exact (hfields' field hf).1
        · exact harray root hmem
        · obtain ⟨method, hm, rfl⟩ := mem_map.mp hmem
          exact (hmethods method hm).1
        · exact halias root hmem
      · exact fun root hmem => (hroots root hmem).1
      · exact fun root hmem => (hroots root hmem).2
  · intro _ made a b hab h
    exact ⟨hab.steps.shows.alive h.1, fun ho => nilable_shows hab.steps.shows h.1 (h.2 ho)⟩
  · intro field _ s₁ hs₁
    exact (growing_field (hs₁.steps.sound hs) field).mono fun _ _ _ h => ⟨h.1, h.2.2.2⟩

omit hs in
theorem stepping_give_body {d : ℕ} {decl : Decl} {body : Body} (hd : s.decl d = some decl)
    (hdead : decl.dead = false) (hnone : decl.body = none) (hbodied : Bodied s decl body) :
    Stepping o (give_body d decl body) s fun _ _ => True := by
  unfold give_body
  have hrest : (∀ n, decl.arity = some n → n = body.tparams.length) → Stepping o (do
      check_uses decl body.tparams.length
      change fun s => ((s.settle decl.key).note d decl).set_decl d
        fun decl => { decl with arity := some body.tparams.length, body := some body }) s
      fun _ _ => True := by
    intro harity
    apply goes_quiet_bind (quiet_check_uses s decl body.tparams.length)
    intro _ huses
    exact goes_change (.single (.body hd hdead hnone harity huses hbodied)) trivial
  cases harity : decl.arity with
  | some held =>
    apply goes_refuse_bind
    intro h
    apply hrest
    intro n hn
    rw [harity] at hn
    cases hn
    exact not_not.mp h
  | none =>
    apply hrest
    intro n hn
    rw [harity] at hn
    cases hn

theorem stepping_define (d : ℕ) (body : Body) :
    Stepping o (define o d body) s fun d' s' => s'.decl_alive d' = true := by
  apply goes_quiet_bind (quiet_declared s d)
  rintro decl ⟨hd, hdead⟩
  apply goes_refuse_bind
  intro hbody
  apply goes_bind (growing_normal_body hs d decl body).with_grows
  rintro made s₁ hs₁ ⟨hgrows, hbodied, -⟩
  have hd₁ : s₁.decl d = some decl := (grows_decl hgrows d).trans hd
  apply goes_bind (stepping_give_body hd₁ hdead (by simpa using hbody) hbodied)
  intro _ s₂ hs₂ _
  exact goes_pure (hs₂.shows.decl_alive (decl_alive_iff.mpr ⟨decl, hd₁, hdead⟩))

end

end Cosmic.Types
