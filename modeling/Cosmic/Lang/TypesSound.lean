/-
The invariant of a store, and the single changes its operations are made of, each of which keeps
it.

What an operation does to a store, read by read, is a run of `Step`s: a type is made, a use waits
for its declaration, a declaration is made, told its arity or given its body. Forgetting is no
step, and what a refused decode did is taken back.
-/
import Cosmic.Lang.TypesNormal
import Cosmic.Lang.TypesText
import Mathlib.Logic.Relation

set_option autoImplicit false

namespace Cosmic.Types

open Cosmic.Base List Option

/-! ## The invariant -/

def Store.cell_of (o : Outside) (s : Store) (form : Form ℕ) : Cell :=
  { measure s form with digest := o.hash (render s.decl_text s.digest_text form) }

/-- The types of a store: each made of types before it, live types of live ones, in normal form,
and in the table at their keys. -/
structure TypesSound (o : Outside) (s : Store) : Prop where
  count : s.count = s.types.length
  atoms : HasAtoms s
  closed : Closed s
  below : ∀ {t c}, s.cell t = some c → ∀ p ∈ c.form.parts, p < t
  made : ∀ {t c}, s.cell t = some c → ∀ d ∈ c.form.names, (s.decl d).isSome = true
  normal : ∀ {t c}, s.cell t = some c → c.dead = false → (∃ tag, c.form = .atom tag) ∨ NormalForm s c.form
  interned : ∀ k t, s.interned k = some t ↔ ∃ c, s.cell t = some c ∧ c.dead = false ∧ s.key_of c.form = k
  measured : ∀ {t c}, s.cell t = some c → c.dead = false → c = s.cell_of o c.form
  shallow : ∀ {t c}, s.cell t = some c → c.dead = false → c.height ≤ MAX_DEPTH

/-- What a declaration is called, and that it may be called so. -/
structure Proper (decl : Decl) : Prop where
  text : decl.text = path_text decl.module decl.name
  name : ∀ s, declaration_name decl.module decl.names s = .ok decl.name s

theorem Proper.of_head {decl decl' : Decl} (hhead : decl'.head = decl.head) (h : Proper decl) : Proper decl' := by
  have htext : Proper decl.head := ⟨h.text, h.name⟩
  rw [← hhead] at htext
  exact ⟨htext.text, htext.name⟩

/-- The declarations of a store: each live one in its tables, and its uses as many arguments as it
takes, or waiting until it knows how many. -/
structure DeclsSound (s : Store) : Prop where
  proper : ∀ {d decl}, s.decl d = some decl → Proper decl
  declared : ∀ k d, s.declared k = some d ↔ ∃ decl, s.decl d = some decl ∧ decl.dead = false ∧ decl.key = k
  listed : ∀ d, d ∈ s.list ↔ s.decl_alive d = true
  arity : ∀ {d decl body}, s.decl d = some decl → decl.body = some body → decl.arity = some body.tparams.length
  args : ∀ {t c d args value decl n}, s.cell t = some c → c.dead = false →
    c.form = .named d args value → s.decl d = some decl → decl.arity = some n → args.length = n
  uses : ∀ {t c d args value decl}, s.cell t = some c → c.dead = false →
    c.form = .named d args value → s.decl d = some decl → decl.arity = none →
    t ∈ (s.pending decl.key).getD []
  waiting : ∀ k, s.pending k ≠ some []

def Logged (s : Store) : Prop := ∀ {d arity}, Undo.decl d arity ∈ s.journal → 1 ≤ d ∧ d ≤ s.decls.length

/-- The journal: of declarations the store made, and empty while no decode is open. -/
structure JournalSound (s : Store) : Prop where
  made : Logged s
  idle : s.transactions = 0 → s.journal = []

structure Sound (o : Outside) (s : Store) : Prop where
  types : TypesSound o s
  decls : DeclsSound s
  journal : JournalSound s

/-! ## What a body is -/

structure Suits (decl : Decl) (body : Body) : Prop where
  enum : decl.kind = .enum → body.bare = true
  alias_ : decl.kind = .alias_ → body.bare = true ∧ body.values = [] ∧ body.alias_ ≠ none
  no_alias : decl.kind ≠ .alias_ → body.alias_ = none
  no_values : decl.kind ≠ .enum → body.values = []

structure Bodied (s : Store) (decl : Decl) (body : Body) : Prop where
  suits : Suits decl body
  bounds : ∀ tp ∈ body.tparams, ∀ b ∈ tp.bound, is_bound s b = true
  params : ∀ tp ∈ body.tparams, is_binding_name tp.name = true
  supers : ∀ super ∈ body.supers, ∃ d args value, s.form super = some (.named d args value)
  fields : ∀ field ∈ body.fields, field.omittable = true → Nilable s field.type
  methods : ∀ method ∈ body.methods, is_name method.name = true ∧
    ∃ tparams params rest rets, s.form method.type = some (.fn tparams params rest rets)
  values : twice [] body.values = none
  alive : ∀ root ∈ body.roots, s.alive root = true
  open_ : ∀ root ∈ body.roots, (s.cell root).any (·.open_ > 1) = false
  bound : ∀ root ∈ body.roots, unbound s body.tparams.length (root + 1) 0 root = none

theorem Bodied.shows {s s' : Store} (hs : Shows s s') (hc : Closed s) {decl : Decl} {body : Body}
    (h : Bodied s decl body) : Bodied s' decl body := by
  have hparam : ∀ tp ∈ body.tparams, ∀ b ∈ tp.bound, s.alive b = true := by
    intro tp htp b hb
    apply h.alive
    simp only [Body.roots, mem_append]
    exact .inl (.inl (.inl (.inl (.inl (mem_filterMap.mpr ⟨tp, htp, hb⟩)))))
  have hsuper : ∀ super ∈ body.supers, s.alive super = true := by
    intro super hmem
    apply h.alive
    simp only [Body.roots, mem_append]
    exact .inl (.inl (.inl (.inl (.inr hmem))))
  have hfield : ∀ field ∈ body.fields, s.alive field.type = true := by
    intro field hmem
    apply h.alive
    simp only [Body.roots, mem_append]
    exact .inl (.inl (.inl (.inr (mem_map_of_mem hmem))))
  have hmethod : ∀ method ∈ body.methods, s.alive method.type = true := by
    intro method hmem
    apply h.alive
    simp only [Body.roots, mem_append]
    exact .inl (.inr (mem_map_of_mem hmem))
  constructor
  · exact h.suits
  · intro tp htp b hb
    exact (is_bound_shows hs hc (hparam tp htp b hb)).trans (h.bounds tp htp b hb)
  · exact h.params
  · intro super hmem
    obtain ⟨d, args, value, hform⟩ := h.supers super hmem
    exact ⟨d, args, value, (hs.form (hsuper super hmem)).trans hform⟩
  · exact fun field hmem ho => nilable_shows hs (hfield field hmem) (h.fields field hmem ho)
  · intro method hmem
    obtain ⟨hname, tparams, params, rest, rets, hform⟩ := h.methods method hmem
    exact ⟨hname, tparams, params, rest, rets, (hs.form (hmethod method hmem)).trans hform⟩
  · exact h.values
  · exact fun root hmem => hs.alive (h.alive root hmem)
  · intro root hmem
    rw [hs.cell (h.alive root hmem)]
    exact h.open_ root hmem
  · intro root hmem
    exact (unbound_shows hs hc _ _ (h.alive root hmem)).trans (h.bound root hmem)

/-! ## The changes -/

structure Makes (s : Store) (form : Form ℕ) : Prop where
  new : s.interned (s.key_of form) = none
  parts : ∀ p ∈ form.parts, s.alive p = true
  names : ∀ d ∈ form.names, s.decl_alive d = true
  height : (measure s form).height ≤ MAX_DEPTH
  normal : NormalForm s form

/-- What the form names, if it names a declaration, takes as many arguments as the form has. -/
def Known (s : Store) (form : Form ℕ) : Prop :=
  ∀ d args value, form = .named d args value → ∃ decl, s.decl d = some decl ∧ decl.arity = some args.length

/-- The uses that wait for the declaration have so many arguments. -/
def Agree (s : Store) (decl : Decl) (n : ℕ) : Prop := ∀ use ∈ (s.pending decl.key).getD [], s.use_args use = n

/-- A type is made. -/
inductive Grow (o : Outside) : Store → Store → Prop where
  | type {s : Store} {form : Form ℕ} : Makes s form → Known s form → Grow o s (s.add o form)

inductive Step (o : Outside) : Store → Store → Prop where
  | type {s s' : Store} : Grow o s s' → Step o s s'
  /-- A use is made of a declaration that does not know yet how many arguments it takes. -/
  | use {s : Store} {d : ℕ} {decl : Decl} {args : List ℕ} {value : Bool} :
      Makes s (.named d args value) → s.decl d = some decl → decl.arity = none →
      Step o s ((s.add o (.named d args value)).add_use decl.key (s.count + 1))
  | decl {s : Store} {decl : Decl} :
      s.declared decl.key = none → decl.dead = false → decl.body = none → Proper decl →
      Step o s (s.add_decl decl.key decl)
  | arity {s : Store} {d n : ℕ} {decl : Decl} :
      s.decl d = some decl → decl.dead = false → decl.arity = none → Agree s decl n →
      Step o s ((s.note d decl).set_decl d fun decl => { decl with arity := some n })
  | body {s : Store} {d : ℕ} {decl : Decl} {body : Body} :
      s.decl d = some decl → decl.dead = false → decl.body = none →
      (∀ n, decl.arity = some n → n = body.tparams.length) → Agree s decl body.tparams.length →
      Bodied s decl body →
      Step o s (((s.settle decl.key).note d decl).set_decl d fun decl =>
        { decl with arity := some body.tparams.length, body := some body })

abbrev Grows (o : Outside) : Store → Store → Prop := Relation.ReflTransGen (Grow o)

abbrev Steps (o : Outside) : Store → Store → Prop := Relation.ReflTransGen (Step o)

theorem Grows.steps {o : Outside} {s s' : Store} (h : Grows o s s') : Steps o s s' :=
  Relation.ReflTransGen.mono (fun _ _ => .type) s s' h

instance grows_track (o : Outside) : Raise.Track (Grows o) (Grows o) :=
  .of_both (fun _ => .refl) fun h h' => h.trans h'

instance steps_track (o : Outside) : Raise.Track (Steps o) (Steps o) :=
  .of_both (fun _ => .refl) fun h h' => h.trans h'

/-! ## A type more -/

section

variable {o : Outside} {s : Store} {form : Form ℕ}

theorem add_cell {t : ℕ} {c : Cell} : (s.add o form).cell t = some c ↔
    s.cell t = some c ∨ (t = s.types.length + 1 ∧ c = s.cell_of o form) :=
  at_id_append_one

theorem cell_le {t : ℕ} {c : Cell} (h : s.cell t = some c) : t ≤ s.types.length := at_id_le h

theorem add_shows (o : Outside) (s : Store) (form : Form ℕ) : Shows s (s.add o form) := by
  constructor
  · intro t ht
    obtain ⟨c, hc, -⟩ := alive_iff.mp ht
    rw [hc]
    exact add_cell.mpr (.inl hc)
  · intro d decl hd _
    exact ⟨decl, hd, rfl⟩

theorem add_closed (hc : Closed s) (hm : Makes s form) : Closed (s.add o form) := by
  have hs := add_shows o s form
  constructor
  · intro t c ht hdead p hp
    rcases add_cell.mp ht with ht | ⟨-, rfl⟩
    · exact hs.alive (hc.parts ht hdead p hp)
    · exact hs.alive (hm.parts p hp)
  · intro t c ht hdead d hd
    rcases add_cell.mp ht with ht | ⟨-, rfl⟩
    · exact hs.decl_alive (hc.names ht hdead d hd)
    · exact hs.decl_alive (hm.names d hd)

theorem cell_of_shows {s' : Store} (hs : Shows s s') (hp : ∀ p ∈ form.parts, s.alive p = true)
    (hd : ∀ d ∈ form.names, s.decl_alive d = true) : s'.cell_of o form = s.cell_of o form := by
  unfold Store.cell_of
  rw [measure_shows hs hp, render_congr (fun d h => hs.decl_text (hd d h))
    fun p h => hs.digest_text (hp p h)]

theorem TypesSound.add (h : TypesSound o s) (hm : Makes s form) : TypesSound o (s.add o form) := by
  have hs := add_shows o s form
  have hlt : ∀ {p}, s.alive p = true → p < s.types.length + 1 := by
    intro p hp
    obtain ⟨c, hc, -⟩ := alive_iff.mp hp
    exact Nat.lt_succ_of_le (cell_le hc)
  have hkey : ∀ {t c}, s.cell t = some c → c.dead = false →
      (s.add o form).key_of c.form = s.key_of c.form := fun hc hdead =>
    key_of_shows hs (h.closed.names hc hdead)
  have hnew : (s.add o form).cell (s.types.length + 1) = some (s.cell_of o form) := add_cell.mpr (.inr ⟨rfl, rfl⟩)
  constructor
  · show s.count + 1 = (s.types ++ [_]).length
    rw [h.count, length_append, length_singleton]
  · intro tag
    obtain ⟨c, hc, hdead, hform⟩ := h.atoms tag
    exact ⟨c, add_cell.mpr (.inl hc), hdead, hform⟩
  · exact add_closed h.closed hm
  · intro t c ht p hp
    rcases add_cell.mp ht with ht | ⟨rfl, rfl⟩
    · exact h.below ht p hp
    · exact hlt (hm.parts p hp)
  · intro t c ht d hd
    rcases add_cell.mp ht with ht | ⟨rfl, rfl⟩
    · exact h.made ht d hd
    · obtain ⟨decl, hdecl, -⟩ := decl_alive_iff.mp (hm.names d hd)
      exact isSome_iff_exists.mpr ⟨decl, hdecl⟩
  · intro t c ht hdead
    rcases add_cell.mp ht with ht | ⟨rfl, rfl⟩
    · rcases h.normal ht hdead with htag | hn
      · exact .inl htag
      · exact .inr (hn.shows hs h.closed (h.closed.parts ht hdead))
    · exact .inr (hm.normal.shows hs h.closed hm.parts)
  · intro k t
    show s.interned.enter (s.key_of form) (s.count + 1) k = some t ↔ _
    by_cases hk : k = s.key_of form
    · subst hk
      rw [Entries.enter_self, h.count]
      constructor
      · intro ht
        cases ht
        exact ⟨_, hnew, rfl, key_of_shows hs hm.names⟩
      · rintro ⟨c, hc, hdead, hkc⟩
        rcases add_cell.mp hc with hc | ⟨rfl, -⟩
        -- an old type at the key would be in the table
        · have hold := (h.interned _ _).mpr ⟨c, hc, hdead, hkc⟩
          rw [hm.new] at hold
          cases hold
        · rfl
    · rw [Entries.enter_ne hk, h.interned]
      constructor
      · rintro ⟨c, hc, hdead, hkc⟩
        exact ⟨c, add_cell.mpr (.inl hc), hdead, (hkey hc hdead).trans hkc⟩
      · rintro ⟨c, hc, hdead, hkc⟩
        rcases add_cell.mp hc with hc | ⟨-, rfl⟩
        · exact ⟨c, hc, hdead, (hkey hc hdead).symm.trans hkc⟩
        · exact absurd (hkc.symm.trans (key_of_shows hs hm.names)) hk
  · intro t c ht hdead
    rcases add_cell.mp ht with ht | ⟨rfl, rfl⟩
    · rw [cell_of_shows hs (h.closed.parts ht hdead) (h.closed.names ht hdead)]
      exact h.measured ht hdead
    · exact (cell_of_shows hs hm.parts hm.names).symm
  · intro t c ht hdead
    rcases add_cell.mp ht with ht | ⟨rfl, rfl⟩
    · exact h.shallow ht hdead
    · exact hm.height

theorem DeclsSound.add (h : DeclsSound s) (hk : Known s form) : DeclsSound (s.add o form) where
  proper := h.proper
  declared := h.declared
  listed := h.listed
  arity := h.arity
  args := by
    intro t c d args value decl n ht hdead hform hd harity
    rcases add_cell.mp ht with ht | ⟨rfl, rfl⟩
    · exact h.args ht hdead hform hd harity
    · obtain ⟨decl', hd', harity'⟩ := hk d args value hform
      rw [show s.decl d = some decl from hd] at hd'
      cases hd'
      rw [harity] at harity'
      exact (some.inj harity').symm
  uses := by
    intro t c d args value decl ht hdead hform hd harity
    rcases add_cell.mp ht with ht | ⟨rfl, rfl⟩
    · exact h.uses ht hdead hform hd harity
    · obtain ⟨decl', hd', harity'⟩ := hk d args value hform
      rw [show s.decl d = some decl from hd] at hd'
      cases hd'
      rw [harity] at harity'
      cases harity'
  waiting := h.waiting

theorem DeclsSound.add_use (h : DeclsSound s) {d : ℕ} {decl : Decl} {args : List ℕ} {value : Bool}
    (hcount : s.count = s.types.length) (hd : s.decl d = some decl) (harity : decl.arity = none) :
    DeclsSound ((s.add o (.named d args value)).add_use decl.key (s.count + 1)) where
  proper := h.proper
  declared := h.declared
  listed := h.listed
  arity := h.arity
  args := by
    intro t c d' args' value' decl' n ht hdead hform hd' harity'
    rcases add_cell.mp ht with ht | ⟨rfl, rfl⟩
    · exact h.args ht hdead hform hd' harity'
    · cases hform
      rw [show s.decl d = some decl' from hd'] at hd
      cases hd
      rw [harity'] at harity
      cases harity
  uses := by
    intro t c d' args' value' decl' ht hdead hform hd' harity'
    show t ∈ (s.pending.enter decl.key ((s.pending decl.key).getD [] ++ [s.count + 1]) decl'.key).getD []
    rcases add_cell.mp ht with ht | ⟨rfl, rfl⟩
    · have hold := h.uses ht hdead hform hd' harity'
      by_cases hk : decl'.key = decl.key
      · rw [hk, Entries.enter_self]
        rw [hk] at hold
        exact mem_append_left _ hold
      · rwa [Entries.enter_ne hk]
    · cases hform
      rw [show s.decl d = some decl' from hd'] at hd
      cases hd
      rw [Entries.enter_self, hcount]
      exact mem_append_right _ (mem_singleton.mpr rfl)
  waiting k := by
    show s.pending.enter decl.key ((s.pending decl.key).getD [] ++ [s.count + 1]) k ≠ some []
    by_cases hk : k = decl.key
    · rw [hk, Entries.enter_self]
      simp
    · rw [Entries.enter_ne hk]
      exact h.waiting k

end

/-! ## A declaration changed -/

section

variable {o : Outside} {s s' : Store}

theorem TypesSound.of_decls (h : TypesSound o s) (hs : Shows s s') (hcount : s'.count = s.count)
    (htypes : s'.types = s.types) (hinterned : s'.interned = s.interned)
    (hmade : ∀ d, (s.decl d).isSome = true → (s'.decl d).isSome = true) : TypesSound o s' := by
  have hcell : ∀ t, s'.cell t = s.cell t := fun t => by
    unfold Store.cell
    rw [htypes]
  have hclosed : Closed s' := by
    constructor
    · intro t c ht hdead p hp
      rw [hcell] at ht
      exact hs.alive (h.closed.parts ht hdead p hp)
    · intro t c ht hdead d hd
      rw [hcell] at ht
      exact hs.decl_alive (h.closed.names ht hdead d hd)
  constructor
  · rw [hcount, htypes]
    exact h.count
  · intro tag
    rw [hcell]
    exact h.atoms tag
  · exact hclosed
  · intro t c ht
    rw [hcell] at ht
    exact h.below ht
  · intro t c ht d hd
    rw [hcell] at ht
    exact hmade d (h.made ht d hd)
  · intro t c ht hdead
    rw [hcell] at ht
    rcases h.normal ht hdead with htag | hn
    · exact .inl htag
    · exact .inr (hn.shows hs h.closed (h.closed.parts ht hdead))
  · intro k t
    rw [hinterned, h.interned]
    constructor
    · rintro ⟨c, hc, hdead, hk⟩
      exact ⟨c, (hcell t).trans hc, hdead, (key_of_shows hs (h.closed.names hc hdead)).trans hk⟩
    · rintro ⟨c, hc, hdead, hk⟩
      rw [hcell] at hc
      exact ⟨c, hc, hdead, (key_of_shows hs (h.closed.names hc hdead)).symm.trans hk⟩
  · intro t c ht hdead
    rw [hcell] at ht
    rw [cell_of_shows hs (h.closed.parts ht hdead) (h.closed.names ht hdead)]
    exact h.measured ht hdead
  · intro t c ht hdead
    rw [hcell] at ht
    exact h.shallow ht hdead

variable {decl : Decl} {d : ℕ}

theorem add_decl_decl {key : Bytes} {decl' : Decl} : (s.add_decl key decl).decl d = some decl' ↔
      s.decl d = some decl' ∨ (d = s.decls.length + 1 ∧ decl' = decl) :=
  at_id_append_one

theorem add_decl_shows (s : Store) (key : Bytes) (decl : Decl) : Shows s (s.add_decl key decl) :=
  ⟨fun _ => rfl, fun {_ decl'} hd _ => ⟨decl', add_decl_decl.mpr (.inl hd), rfl⟩⟩

theorem decl_le (h : s.decl d = some decl) : d ≤ s.decls.length := at_id_le h

theorem DeclsSound.add_decl (h : DeclsSound s)
    (hmade : ∀ {t c}, s.cell t = some c → ∀ d ∈ c.form.names, (s.decl d).isSome = true)
    (hkey : s.declared decl.key = none) (hdead : decl.dead = false) (hbody : decl.body = none)
    (hproper : Proper decl) :
    DeclsSound (s.add_decl decl.key decl) := by
  have hnew : (s.add_decl decl.key decl).decl (s.decls.length + 1) = some decl := add_decl_decl.mpr (.inr ⟨rfl, rfl⟩)
  -- what a type names was declared before
  have hold : ∀ {t c d args value decl'}, s.cell t = some c → c.form = .named d args value →
      (s.add_decl decl.key decl).decl d = some decl' → s.decl d = some decl' := by
    intro t c d args value decl' ht hform hd
    have hsome := hmade ht d (by rw [hform]; rfl)
    rcases add_decl_decl.mp hd with hd | ⟨rfl, -⟩
    · exact hd
    · obtain ⟨decl'', hd''⟩ := isSome_iff_exists.mp hsome
      exact absurd (decl_le hd'') (by omega)
  constructor
  · intro d decl' hd
    rcases add_decl_decl.mp hd with hd | ⟨-, rfl⟩
    · exact h.proper hd
    · exact hproper
  · intro k d
    show s.declared.enter decl.key (s.decls.length + 1) k = some d ↔ _
    by_cases hk : k = decl.key
    · subst hk
      rw [Entries.enter_self]
      constructor
      · intro hd
        cases hd
        exact ⟨decl, hnew, hdead, rfl⟩
      · rintro ⟨decl', hd, hdead', hk⟩
        rcases add_decl_decl.mp hd with hd | ⟨rfl, -⟩
        · have hold' := (h.declared _ _).mpr ⟨decl', hd, hdead', hk⟩
          rw [hkey] at hold'
          cases hold'
        · rfl
    · rw [Entries.enter_ne hk, h.declared]
      constructor
      · rintro ⟨decl', hd, hdead', hk'⟩
        exact ⟨decl', add_decl_decl.mpr (.inl hd), hdead', hk'⟩
      · rintro ⟨decl', hd, hdead', hk'⟩
        rcases add_decl_decl.mp hd with hd | ⟨-, rfl⟩
        · exact ⟨decl', hd, hdead', hk'⟩
        · exact absurd hk'.symm hk
  · intro d
    show d ∈ s.list ++ [s.decls.length + 1] ↔ _
    rw [mem_append, mem_singleton, h.listed, decl_alive_iff, decl_alive_iff]
    constructor
    · rintro (⟨decl', hd, hdead'⟩ | rfl)
      · exact ⟨decl', add_decl_decl.mpr (.inl hd), hdead'⟩
      · exact ⟨decl, hnew, hdead⟩
    · rintro ⟨decl', hd, hdead'⟩
      rcases add_decl_decl.mp hd with hd | ⟨rfl, -⟩
      · exact .inl ⟨decl', hd, hdead'⟩
      · exact .inr rfl
  · intro d decl' body hd hbody'
    rcases add_decl_decl.mp hd with hd | ⟨-, rfl⟩
    · exact h.arity hd hbody'
    · rw [hbody] at hbody'
      cases hbody'
  · intro t c d args value decl' n ht hdead' hform hd harity
    exact h.args ht hdead' hform (hold ht hform hd) harity
  · intro t c d args value decl' ht hdead' hform hd harity
    exact h.uses ht hdead' hform (hold ht hform hd) harity
  · exact h.waiting

theorem set_decl_decl (hd : s.decl d = some decl) (f : Decl → Decl) (d' : ℕ) :
    (s.set_decl d f).decl d' = if d' = d then some (f decl) else s.decl d' := by
  show at_id (s.decls.modify (d - 1) f) d' = _
  rw [at_id_modify (at_id_pos hd)]
  by_cases h : d' = d
  · subst h
    rw [if_pos rfl, if_pos rfl, show at_id s.decls d' = some decl from hd, map_some]
  · rw [if_neg h, if_neg h]
    rfl

theorem set_decl_shows (hd : s.decl d = some decl) {f : Decl → Decl} (hf : (f decl).head = decl.head) :
    Shows s (s.set_decl d f) := by
  constructor
  · intro t _
    rfl
  intro d' decl' hd' _
  rw [set_decl_decl hd]
  by_cases h : d' = d
  · subst h
    rw [if_pos rfl]
    rw [hd] at hd'
    cases hd'
    exact ⟨f decl, rfl, hf⟩
  · rw [if_neg h]
    exact ⟨decl', hd', rfl⟩

theorem set_decl_made (hd : s.decl d = some decl) (f : Decl → Decl) {d' : ℕ} (h : (s.decl d').isSome = true) :
    ((s.set_decl d f).decl d').isSome = true := by
  rw [set_decl_decl hd]
  by_cases hd' : d' = d
  · rw [if_pos hd']
    rfl
  · rwa [if_neg hd']

/-- A declaration is told its arity `n`, and perhaps given a body, and the uses that waited for
nothing else wait no longer. -/
theorem DeclsSound.set_decl (h : DeclsSound s) (hc : Closed s) {n : ℕ} (hd : s.decl d = some decl) {f : Decl → Decl}
    (hf : (f decl).head = decl.head) (harity : (f decl).arity = some n)
    (hbody : ∀ body, (f decl).body = some body → body.tparams.length = n)
    (hagree : ∀ m, decl.arity = some m → m = n) (huses : Agree s decl n) {pending : Entries Bytes (List ℕ)}
    (hpending : ∀ k, k ≠ decl.key → pending k = s.pending k) (hwait : ∀ k, pending k ≠ some [])
    (hdead : decl.dead = false) {journal : List Undo} :
    DeclsSound { s.set_decl d f with pending := pending, journal := journal } := by
  have hdecl : ∀ d', ({ s.set_decl d f with pending := pending, journal := journal } : Store).decl d' =
      if d' = d then some (f decl) else s.decl d' := set_decl_decl hd f
  constructor
  · intro d' decl' hd'
    rw [hdecl] at hd'
    by_cases hdd : d' = d
    · rw [if_pos hdd] at hd'
      cases hd'
      exact (h.proper hd).of_head hf
    · rw [if_neg hdd] at hd'
      exact h.proper hd'
  · intro k d'
    rw [hdecl]
    show s.declared k = some d' ↔ _
    rw [h.declared]
    by_cases hdd : d' = d
    · subst hdd
      rw [if_pos rfl]
      constructor
      · rintro ⟨decl', hd', hdead', hk⟩
        rw [hd] at hd'
        cases hd'
        exact ⟨f decl, rfl, (Decl.head_dead hf).trans hdead', (Decl.head_key hf).trans hk⟩
      · rintro ⟨decl', hd', hdead', hk⟩
        cases hd'
        exact ⟨decl, hd, (Decl.head_dead hf).symm.trans hdead', (Decl.head_key hf).symm.trans hk⟩
    · rw [if_neg hdd]
  · intro d'
    show d' ∈ s.list ↔ _
    rw [h.listed, decl_alive_iff, decl_alive_iff, hdecl]
    by_cases hdd : d' = d
    · subst hdd
      rw [if_pos rfl, hd]
      constructor
      · rintro ⟨decl', hd', hdead'⟩
        cases hd'
        exact ⟨f decl, rfl, (Decl.head_dead hf).trans hdead'⟩
      · rintro ⟨decl', hd', hdead'⟩
        exact ⟨decl, rfl, hdead⟩
    · rw [if_neg hdd]
  · intro d' decl' body hd' hbody'
    rw [hdecl] at hd'
    by_cases hdd : d' = d
    · rw [if_pos hdd] at hd'
      cases hd'
      rw [hbody body hbody', harity]
    · rw [if_neg hdd] at hd'
      exact h.arity hd' hbody'
  · intro t c d' args value decl' m ht hdead' hform hd' harity'
    rw [hdecl] at hd'
    by_cases hdd : d' = d
    · subst hdd
      rw [if_pos rfl] at hd'
      cases hd'
      rw [harity] at harity'
      cases harity'
      cases ha : decl.arity with
      | some m =>
        have hm := h.args ht hdead' hform hd ha
        rw [hm]
        exact hagree m ha
      | none =>
        -- a use that waited
        have hargs := huses t (h.uses ht hdead' hform hd ha)
        have hf : s.form t = some (.named d' args value) := form_iff.mpr ⟨c, ht, hform⟩
        unfold Store.use_args at hargs
        rwa [hf] at hargs
    · rw [if_neg hdd] at hd'
      exact h.args ht hdead' hform hd' harity'
  · intro t c d' args value decl' ht hdead' hform hd' harity'
    rw [hdecl] at hd'
    by_cases hdd : d' = d
    · rw [if_pos hdd] at hd'
      cases hd'
      rw [harity] at harity'
      cases harity'
    rw [if_neg hdd] at hd'
    show t ∈ (pending decl'.key).getD []
    -- two live declarations have two keys
    have hk : decl'.key ≠ decl.key := by
      intro hk
      have halive := hc.names ht hdead' d' (by rw [hform]; rfl)
      obtain ⟨decl'', hd'', hdead''⟩ := decl_alive_iff.mp halive
      rw [hd'] at hd''
      cases hd''
      have h₁ := (h.declared decl.key d').mpr ⟨decl', hd', hdead'', hk⟩
      have h₂ := (h.declared decl.key d).mpr ⟨decl, hd, hdead, rfl⟩
      rw [h₁] at h₂
      exact hdd (some.inj h₂)
    rw [hpending _ hk]
    exact h.uses ht hdead' hform hd' harity'
  · exact hwait

end

/-! ## Every change keeps the invariant -/

section

variable {o : Outside} {s s' : Store}

theorem set_decl_types (h : TypesSound o s) {d : ℕ} {decl : Decl} (hd : s.decl d = some decl)
    {f : Decl → Decl} (hf : (f decl).head = decl.head) : TypesSound o (s.set_decl d f) :=
  h.of_decls (set_decl_shows hd hf) rfl rfl rfl fun _ => set_decl_made hd f

theorem TypesSound.beside (h : TypesSound o s) {pending : Entries Bytes (List ℕ)} {journal : List Undo} :
    TypesSound o { s with pending := pending, journal := journal } :=
  h.of_decls ⟨fun _ => rfl, fun {_ decl} hd _ => ⟨decl, hd, rfl⟩⟩ rfl rfl rfl fun _ h => h

theorem set_body_eq (s : Store) (d : ℕ) (decl : Decl) (f : Decl → Decl) :
    ((s.settle decl.key).note d decl).set_decl d f = { s.set_decl d f with
        pending := (s.settle decl.key).pending
        journal := ((s.settle decl.key).note d decl).journal } := by
  unfold Store.settle
  cases s.pending decl.key with
  | none => rfl
  | some list => rfl

theorem JournalSound.log (h : JournalSound s) {undo : Undo}
    (hu : ∀ d arity, undo = .decl d arity → 1 ≤ d ∧ d ≤ s.decls.length)
    {pending : Entries Bytes (List ℕ)} :
    JournalSound { s with
      pending := pending
      journal := if s.transactions > 0 then s.journal ++ [undo] else s.journal } := by
  constructor
  · intro d arity hmem
    split at hmem
    · rcases mem_append.mp hmem with hmem | hmem
      · exact h.made hmem
      · exact hu d arity (mem_singleton.mp hmem).symm
    · exact h.made hmem
  · intro hidle
    have hidle' : s.transactions = 0 := hidle
    rw [if_neg (by omega)]
    exact h.idle hidle'

theorem JournalSound.note (h : JournalSound s) {d : ℕ} {decl : Decl} (hd : s.decl d = some decl) :
    JournalSound (s.note d decl) := by
  apply h.log
  rintro d' arity ⟨⟩
  exact ⟨at_id_pos hd, at_id_le hd⟩

theorem JournalSound.settle (h : JournalSound s) (key : Bytes) : JournalSound (s.settle key) := by
  unfold Store.settle
  cases s.pending key with
  | none => exact h
  | some list => exact h.log fun _ _ heq => absurd heq (by simp)

theorem JournalSound.add_use (h : JournalSound s) (key : Bytes) (use : ℕ) : JournalSound (s.add_use key use) :=
  h.log fun _ _ heq => absurd heq (by simp)

theorem JournalSound.set_decl (h : JournalSound s) (d : ℕ) (f : Decl → Decl) : JournalSound (s.set_decl d f) := by
  refine ⟨fun hmem => ?_, h.idle⟩
  have hlen : (s.decls.modify (d - 1) f).length = s.decls.length := length_modify ..
  show _ ∧ _ ≤ (s.decls.modify (d - 1) f).length
  rw [hlen]
  exact h.made hmem

theorem settle_decl (s : Store) (key : Bytes) (d : ℕ) : (s.settle key).decl d = s.decl d := by
  unfold Store.settle
  cases s.pending key with
  | none => rfl
  | some list => rfl

theorem Step.journal_sound (h : Step o s s') (hj : JournalSound s) : JournalSound s' := by
  cases h with
  | type h =>
    cases h with
    | type _ _ => exact ⟨hj.made, hj.idle⟩
  | @use d decl args value _ _ _ =>
    have hadd : JournalSound (s.add o (.named d args value)) := ⟨hj.made, hj.idle⟩
    exact hadd.add_use _ _
  | decl _ _ _ _ =>
    refine ⟨fun hmem => ?_, hj.idle⟩
    show _ ∧ _ ≤ (s.decls ++ [_]).length
    rw [length_append]
    exact ⟨(hj.made hmem).1, Nat.le_add_right_of_le (hj.made hmem).2⟩
  | arity hd _ _ _ => exact (hj.note hd).set_decl _ _
  | @body d decl body hd _ _ _ _ _ =>
    exact ((hj.settle decl.key).note ((settle_decl s decl.key d).trans hd)).set_decl _ _

theorem Step.sound (h : Step o s s') (hs : Sound o s) : Sound o s' := by
  have hj := h.journal_sound hs.journal
  cases h with
  | type h =>
    cases h with
    | type hm hk => exact ⟨hs.types.add hm, hs.decls.add hk, hj⟩
  | use hm hd harity =>
    exact ⟨(hs.types.add hm).beside, hs.decls.add_use hs.types.count hd harity, hj⟩
  | decl hkey hdead hbody hproper =>
    refine ⟨?_, hs.decls.add_decl hs.types.made hkey hdead hbody hproper, hj⟩
    apply hs.types.of_decls (add_decl_shows s _ _) rfl rfl rfl
    intro d hd
    obtain ⟨decl, hd⟩ := isSome_iff_exists.mp hd
    exact isSome_iff_exists.mpr ⟨decl, add_decl_decl.mpr (.inl hd)⟩
  | @arity d n decl hd hdead harity huses =>
    refine ⟨(set_decl_types hs.types hd rfl).beside, ?_, hj⟩
    refine hs.decls.set_decl hs.types.closed hd rfl rfl ?_ ?_ huses (fun _ _ => rfl) hs.decls.waiting hdead
    · intro body hbody
      have hlen := hs.decls.arity hd hbody
      rw [harity] at hlen
      cases hlen
    · intro m hm
      rw [harity] at hm
      cases hm
  | @body d decl body hd hdead hnone harity huses hbodied =>
    rw [set_body_eq] at hj ⊢
    refine ⟨(set_decl_types hs.types hd rfl).beside, ?_, hj⟩
    refine hs.decls.set_decl hs.types.closed hd rfl rfl ?_ harity huses ?_ ?_ hdead
    · intro body' hbody
      cases hbody
      rfl
    · intro k hk
      unfold Store.settle
      cases s.pending decl.key with
      | none => rfl
      | some list => exact Entries.clear_ne hk
    · intro k
      have hwait := hs.decls.waiting k
      unfold Store.settle
      cases hp : s.pending decl.key with
      | none => exact hwait
      | some list =>
        show s.pending.clear decl.key k ≠ some []
        by_cases hk : k = decl.key
        · rw [hk, Entries.clear_self]
          simp
        · rwa [Entries.clear_ne hk]

theorem Steps.sound (h : Steps o s s') (hs : Sound o s) : Sound o s' := by
  induction h with
  | refl => exact hs
  | tail _ h ih => exact h.sound ih

theorem Step.shows (h : Step o s s') : Shows s s' := by
  cases h with
  | type h =>
    cases h with
    | type hm hk => exact add_shows o s _
  | @use d decl args value hm hd harity =>
    have h := add_shows o s (.named d args value)
    exact ⟨h.cell, h.decl⟩
  | decl hkey hdead hbody hproper => exact add_decl_shows s _ _
  | @arity d n decl hd hdead harity huses =>
    have h := set_decl_shows (f := fun decl => { decl with arity := some n }) hd rfl
    exact ⟨h.cell, h.decl⟩
  | @body d decl body hd hdead hnone harity huses hbodied =>
    rw [set_body_eq]
    have h := set_decl_shows (f := fun decl =>
      { decl with arity := some body.tparams.length, body := some body }) hd rfl
    exact ⟨h.cell, h.decl⟩

theorem Steps.shows (h : Steps o s s') : Shows s s' := by
  induction h with
  | refl => exact Shows.refl s
  | tail _ h ih => exact ih.trans h.shows

end

/-! ## One key, one form -/

section

variable {o : Outside} {s : Store}

def Store.path (s : Store) (d : ℕ) : Bytes × Bytes :=
  ((s.decl d).map fun decl => (decl.module, decl.name)).getD ([], [])

theorem DeclsSound.decl_text (h : DeclsSound s) {d : ℕ} (hd : (s.decl d).isSome = true) :
    s.decl_text d = path_text (s.path d).1 (s.path d).2 := by
  obtain ⟨decl, hdecl⟩ := isSome_iff_exists.mp hd
  unfold Store.decl_text Store.path
  rw [hdecl]
  exact (h.proper hdecl).text

theorem DeclsSound.path_inj (h : DeclsSound s) {d d' : ℕ} (hd : s.decl_alive d = true)
    (hd' : s.decl_alive d' = true) (hpath : s.path d = s.path d') : d = d' := by
  obtain ⟨decl, hdecl, hdead⟩ := decl_alive_iff.mp hd
  obtain ⟨decl', hdecl', hdead'⟩ := decl_alive_iff.mp hd'
  unfold Store.path at hpath
  rw [hdecl, hdecl'] at hpath
  obtain ⟨hm, hn⟩ := Prod.mk.inj (show (decl.module, decl.name) = (decl'.module, decl'.name) from hpath)
  have hkey : decl'.key = decl.key := by
    unfold Decl.key
    rw [hm, hn]
  have h₁ := (h.declared decl.key d).mpr ⟨decl, hdecl, hdead, rfl⟩
  have h₂ := (h.declared decl.key d').mpr ⟨decl', hdecl', hdead', hkey⟩
  rw [h₁] at h₂
  exact some.inj h₂

/-- The alternatives of a form are as the store keeps them. -/
def AltsNormal : Form ℕ → Prop
  | .fn _ _ _ rets => ∀ alt ∈ rets, alt.Normal
  | _ => True

variable {form : Form ℕ}

theorem NormalForm.alts (h : NormalForm s form) : AltsNormal form := by
  cases form with
  | fn tparams params rest rets => exact NormalFn.alts h
  | _ => trivial

theorem option_rel_eq {α : Type} {R : α → α → Prop} (hR : ∀ a b, R a b → a = b) {t t' : Option α}
    (h : Rel R t t') : t = t' := by
  cases h with
  | none => rfl
  | some h => rw [hR _ _ h]

theorem forall₂_eq {α : Type} {R : α → α → Prop} (hR : ∀ a b, R a b → a = b) {l l' : List α}
    (h : Forall₂ R l l') : l = l' := by
  rw [← forall₂_eq_eq_eq]
  exact h.imp hR

theorem Alt.eq_of_rel {R : ℕ → ℕ → Prop} (hR : ∀ a b, R a b → a = b) {alt alt' : Alt ℕ}
    (hn : alt.Normal) (hn' : alt'.Normal) (h : Alt.Rel R alt alt') : alt = alt' := by
  obtain ⟨items, tail, narrows⟩ := alt
  obtain ⟨items', tail', narrows'⟩ := alt'
  cases narrows with
  | none =>
    cases narrows' with
    | none =>
      have hitems : items = items' := forall₂_eq hR h.1
      have htail : tail = tail' := option_rel_eq hR h.2
      rw [hitems, htail]
    | some n' => exact h.elim
  | some n =>
    cases narrows' with
    | none => exact h.elim
    | some n' =>
      obtain ⟨hparam, hto, hasserts⟩ := h
      obtain ⟨param', to', asserts'⟩ := n'
      have hto' := hR _ _ hto
      subst hparam hto' hasserts
      obtain ⟨hitems, htail, -⟩ := hn
      obtain ⟨hitems', htail', -⟩ := hn'
      dsimp only at hitems htail hitems' htail'
      subst hitems htail htail'
      rw [hitems']

theorem Form.eq_of_rel {D R : ℕ → ℕ → Prop} (hR : ∀ a b, R a b → a = b) {form' : Form ℕ}
    (hD : ∀ d ∈ form.names, ∀ d' ∈ form'.names, D d d' → d = d') (hn : AltsNormal form) (hn' : AltsNormal form')
    (h : form.Rel D R form') : form = form' := by
  cases form with
  | atom tag =>
    cases form' with
    | atom tag' => exact congrArg Form.atom h
    | _ => exact h.elim
  | named d args value =>
    cases form' with
    | named d' args' value' =>
      obtain ⟨hd, hargs, hvalue⟩ := h
      rw [hD d rfl d' rfl hd, forall₂_eq hR hargs, hvalue]
    | _ => exact h.elim
  | array element mutable =>
    cases form' with
    | array element' mutable' => rw [hR _ _ h.1, h.2]
    | _ => exact h.elim
  | map key value mutable =>
    cases form' with
    | map key' value' mutable' => rw [hR _ _ h.1, hR _ _ h.2.1, h.2.2]
    | _ => exact h.elim
  | union members nilable =>
    cases form' with
    | union members' nilable' => rw [forall₂_eq hR h.1, h.2]
    | _ => exact h.elim
  | var depth index =>
    cases form' with
    | var depth' index' => rw [h.1, h.2]
    | _ => exact h.elim
  | fn tparams params rest rets =>
    cases form' with
    | fn tparams' params' rest' rets' =>
      obtain ⟨htp, hps, hrest, hrets⟩ := h
      have hps' : params = params' := by
        apply forall₂_eq ?_ hps
        rintro ⟨type, omittable⟩ ⟨type', omittable'⟩ ⟨ht, ho⟩
        rw [Param.mk.injEq]
        exact ⟨hR _ _ ht, ho⟩
      have hrets' : rets = rets' := by
        have hall : (∀ a ∈ rets, a.Normal) ∧ ∀ a ∈ rets', a.Normal := ⟨hn, hn'⟩
        clear htp hps hrest hps' hn hn' hD
        induction hrets with
        | nil => rfl
        | @cons alt alt' rets rets' halt _ ih =>
          rw [Alt.eq_of_rel hR (hall.1 alt mem_cons_self) (hall.2 alt' mem_cons_self) halt,
            ih ⟨fun a ha => hall.1 a (mem_cons_of_mem _ ha),
              fun a ha => hall.2 a (mem_cons_of_mem _ ha)⟩]
      rw [forall₂_eq (fun _ _ => option_rel_eq hR) htp, hps', option_rel_eq hR hrest, hrets']
    | _ => exact h.elim

theorem DeclsSound.key_inj (h : DeclsSound s) {form' : Form ℕ} (hd : ∀ d ∈ form.names, s.decl_alive d = true)
    (hd' : ∀ d ∈ form'.names, s.decl_alive d = true) (hn : AltsNormal form) (hn' : AltsNormal form')
    (hkey : s.key_of form = s.key_of form') : form = form' := by
  have hsome : ∀ {d}, s.decl_alive d = true → (s.decl d).isSome = true := by
    intro d hd
    obtain ⟨decl, hdecl, -⟩ := decl_alive_iff.mp hd
    exact isSome_iff_exists.mpr ⟨decl, hdecl⟩
  -- an id is a number, not `nil`
  have hnil : ∀ m, tostring m ≠ lit "nil" := by
    intro m hm
    have hb := isDigit_of_mem_tostring (n := m) (b := 110) (by rw [hm]; decide)
    cases hb
  have hrel := render_rel (fun d hmem => h.decl_text (hsome (hd d hmem)))
    (fun d hmem => h.decl_text (hsome (hd' d hmem)))
    (fun p _ => plain_tostring p) (fun p _ => plain_tostring p)
    (fun _ _ _ m _ => hnil m) (fun _ _ _ m _ => hnil m) hkey
  exact Form.eq_of_rel (fun a b hab => tostring_inj hab)
    (fun d hmem d' hmem' hp => h.path_inj (hd d hmem) (hd' d' hmem') hp) hn hn' hrel

/-- What the table holds at the key of a form is a type of the form. -/
theorem Sound.interned_form (h : Sound o s) {t : ℕ} (hd : ∀ d ∈ form.names, s.decl_alive d = true)
    (hn : AltsNormal form) (ht : s.interned (s.key_of form) = some t) :
    s.alive t = true ∧ s.form t = some form := by
  obtain ⟨c, hc, hdead, hkey⟩ := (h.types.interned _ _).mp ht
  have halts : AltsNormal c.form := by
    rcases h.types.normal hc hdead with ⟨tag, htag⟩ | hnf
    · rw [htag]
      trivial
    · exact hnf.alts
  refine ⟨alive_iff.mpr ⟨c, hc, hdead⟩, form_iff.mpr ⟨c, hc, ?_⟩⟩
  exact h.decls.key_inj (h.types.closed.names hc hdead) hd halts hn hkey

/-- The table holds every live type at its key. -/
theorem Sound.interned_of_form (h : Sound o s) {t : ℕ} (ha : s.alive t = true) (hf : s.form t = some form) :
    s.interned (s.key_of form) = some t := by
  obtain ⟨c, hc, hdead⟩ := alive_iff.mp ha
  obtain ⟨c', hc', rfl⟩ := form_iff.mp hf
  rw [hc] at hc'
  cases hc'
  exact (h.types.interned _ _).mpr ⟨c, hc, hdead, rfl⟩

end

end Cosmic.Types
