/-
Unions of unions: however the types of a list are put in groups, the union of the groups' unions
is the union of the list.

What a group's union is of admits what the group does, so the types that are foremost in the end
are those of the list. A group whose own union would nest too deep is refused.
-/
import Cosmic.Lang.TypesCanonical

set_option autoImplicit false

namespace Cosmic.Types

open Cosmic.Base List
open Cosmic.Base.Raise

/-! ## Foremost types in a later store -/

section

variable {o : Outside} {s s' : Store} (hs : Sound o s) (hs' : Sound o s') (h : Shows s s')

include hs h

theorem isEnum_shows {t : ℕ} (ht : s.alive t = true) : IsEnum s t ↔ IsEnum s' t := by
  unfold IsEnum
  rw [h.form ht]
  obtain ⟨c, hc, hdead⟩ := alive_iff.mp ht
  have hform : s.form t = some c.form := form_iff.mpr ⟨c, hc, rfl⟩
  have hkind : ∀ d args value, s.form t = some (.named d args value) →
      (s'.decl d).any (·.kind == .enum) = (s.decl d).any (·.kind == .enum) := by
    intro d args value hnamed
    apply h.kind
    rw [hform] at hnamed
    exact hs.types.closed.names hc hdead d (by rw [Option.some.inj hnamed]; rfl)
  constructor
  · rintro ⟨d, args, value, hnamed, hk⟩
    exact ⟨d, args, value, hnamed, (hkind d args value hnamed).trans hk⟩
  · rintro ⟨d, args, value, hnamed, hk⟩
    exact ⟨d, args, value, hnamed, (hkind d args value hnamed).symm.trans hk⟩

omit hs h in
theorem Covers.atom {y x : ℕ} (hc : Covers s y x) : ∃ tag, tag ≠ .never ∧ y = atom_of tag := by
  cases hc with
  | invalid h _ => exact ⟨_, by decide, h⟩
  | any h _ _ => exact ⟨_, by decide, h⟩
  | integer h _ => exact ⟨_, by decide, h⟩
  | boolean h _ => exact ⟨_, by decide, h⟩
  | enum h _ => exact ⟨_, by decide, h⟩

omit hs h in
theorem Covers.congr {y x : ℕ} (hx : IsEnum s x → IsEnum s' x) (hc : Covers s y x) : Covers s' y x := by
  cases hc with
  | invalid h hi => exact .invalid h hi
  | any h hany hi => exact .any h hany hi
  | integer h hi => exact .integer h hi
  | boolean h hb => exact .boolean h hb
  | enum h he => exact .enum h (hx he)

omit hs h in
theorem Foremost.congr (ha : HasAtoms s) (ha' : HasAtoms s') {X : Set ℕ}
    (hX : ∀ x ∈ X, IsEnum s x ↔ IsEnum s' x) {x : ℕ} (hx : Foremost s X x) : Foremost s' X x := by
  have hatom : ∀ {tag : Atom}, tag ≠ .never →
      (Admitted s X (atom_of tag) ↔ Admitted s' X (atom_of tag)) := fun htag =>
    (admitted_atom ha htag).trans (admitted_atom ha' htag).symm
  have henum : IsEnum s x ↔ IsEnum s' x := by
    rcases hx.mem with hmem | ⟨rfl, -⟩
    · exact hX x hmem
    · exact iff_of_false (not_isEnum_atom ha _) (not_isEnum_atom ha' _)
  refine ⟨?_, hx.not_never, fun y hy hc => ?_⟩
  · rcases hx.mem with hmem | ⟨hb, ht, hf⟩
    · exact .member hmem
    · exact .both ht hf hb
  · obtain ⟨tag, htag, rfl⟩ := hc.atom
    exact hx.first _ ((hatom htag).mpr hy) (hc.congr henum.mpr)

include hs'

theorem foremost_shows {X : Set ℕ} (hX : ∀ x ∈ X, s.alive x = true) (x : ℕ) : Foremost s X x ↔ Foremost s' X x :=
  ⟨fun hx => hx.congr hs.types.atoms hs'.types.atoms fun x hx => isEnum_shows hs h (hX x hx),
    fun hx => hx.congr hs'.types.atoms hs.types.atoms fun x hx => (isEnum_shows hs h (hX x hx)).symm⟩

omit hs hs' in
theorem flat_shows {t : ℕ} (ht : s.alive t = true) : s'.flat t = s.flat t := by
  unfold Store.flat
  rw [h.form ht]

omit hs hs' in
theorem flatMap_flat_shows {l : List ℕ} (hl : ∀ m ∈ l, s.alive m = true) : l.flatMap s'.flat = l.flatMap s.flat :=
  flatMap_congr fun m hm => flat_shows h (hl m hm)

end

/-! ## What a union of a list is -/

/-- The digests of the types of `X` tell them apart. -/
def ToldIn (s : Store) (X : Set ℕ) : Prop := ∀ t ∈ X, ∀ t' ∈ X, s.digest_text t = s.digest_text t' → t = t'

/-- The digests of the live types tell them apart. -/
abbrev Told (s : Store) : Prop := ToldIn s {t | s.alive t = true}

theorem ToldIn.shows {s s' : Store} (h : Shows s s') (hd : Told s) : ToldIn s' {t | s.alive t = true} := by
  intro t ht t' ht' heq
  rw [h.digest_text ht, h.digest_text ht'] at heq
  exact hd t ht t' ht' heq

def made (o : Outside) : Normal → M ℕ
  | .type t => return t
  | .union members nilable => intern o (.union members nilable)

def gathered (s : Store) (l : List ℕ) : Gathered := l.foldl (fun g m => gather s (m + 1) g m) {}

theorem owned_run {s : Store} {t : ℕ} (ht : s.alive t = true) : owned t s = .ok () s := by
  show (refuse (s.alive t = false) foreign) s = _
  rw [refuse, if_neg (by simp [ht])]
  rfl

theorem each_owned_run {s : Store} {l : List ℕ} (hl : ∀ m ∈ l, s.alive m = true) :
    each owned l s = .ok (l.map fun _ => ()) s := by
  induction l with
  | nil => rfl
  | cons m l ih =>
    have hm := owned_run (hl m mem_cons_self)
    have hrest := ih fun p hp => hl p (mem_cons_of_mem m hp)
    show andThen (owned m) (fun b => andThen (each owned l) fun bs => answer (b :: bs)) s = _
    unfold andThen
    rw [hm]
    dsimp only
    rw [hrest]
    rfl

theorem union_of_run {o : Outside} {s : Store} {l : List ℕ} (hl : ∀ m ∈ l, s.alive m = true) :
    union_of o l s = made o (normal_union s (gathered s l)) s := by
  show andThen (each owned l) (fun _ => _) s = _
  unfold andThen
  rw [each_owned_run hl]
  show (match normal_union s (gathered s l) with
    | .type t => answer t
    | .union members nilable => intern o (.union members nilable)) s = _
  cases normal_union s (gathered s l) with
  | type t => rfl
  | union members nilable => rfl

section

variable {o : Outside} {s : Store} (hs : Sound o s)

include hs

theorem made_of {t : ℕ} (ht : s.alive t = true) : made o (Normal.of s t) s = .ok t s := by
  unfold Normal.of
  split
  · next members nilable hform =>
    dsimp only [made, intern, bind, Raise.andThen, Raise.read]
    rw [hs.interned_of_form ht hform]
    rfl
  · rfl

theorem leaves_leaf {l : List ℕ} (hl : ∀ m ∈ l, s.alive m = true) : ∀ x ∈ l.flatMap s.flat, Leaf s x := by
  intro x hx
  obtain ⟨m, hm, hxm⟩ := mem_flatMap.mp hx
  exact hs.leaf_flat (hl m hm) hxm

theorem gathered_spec {l : List ℕ} (hl : ∀ m ∈ l, s.alive m = true) : (normal_union s (gathered s l)).Kept s ∧
      ∀ x, (x ∈ (normal_union s (gathered s l)).flat s ∧ x ≠ atom_of .never) ↔
        Foremost s {y | y ∈ l.flatMap s.flat} x := by
  have hof : GatheredOf s (l.flatMap s.flat) (gathered s l) := foldl_flat hs hl (gatheredOf_none s)
  exact ⟨normal_union_kept hs (gathers_foldl hs.types.closed hl (gathers_none s)),
    normal_union_foremost hs (leaves_leaf hs hl) hof⟩

omit hs in
theorem told_flat {X : Set ℕ} (hX : ∀ tag, atom_of tag ∈ X) (hd : ToldIn s X) {L : List ℕ}
    (hL : ∀ x ∈ L, x ∈ X) {n : Normal}
    (h : ∀ x, (x ∈ n.flat s ∧ x ≠ atom_of .never) ↔ Foremost s {y | y ∈ L} x) :
    ∀ m ∈ n.flat s, ∀ m' ∈ n.flat s, s.digest_text m = s.digest_text m' → m = m' := by
  have hin : ∀ m ∈ n.flat s, m ∈ X := by
    intro m hm
    by_cases hnever : m = atom_of .never
    · exact hnever ▸ hX .never
    · rcases ((h m).mp ⟨hm, hnever⟩).mem with hmem | ⟨rfl, -⟩
      · exact hL m hmem
      · exact hX .boolean
  exact fun m hm m' hm' heq => hd m (hin m hm) m' (hin m' hm') heq

/-- A live type of the foremost types of a list is the list's union. -/
theorem union_of_known {X : Set ℕ} (hX : ∀ tag, atom_of tag ∈ X) (hd : ToldIn s X) {l : List ℕ}
    (hl : ∀ m ∈ l, s.alive m = true) (hlX : ∀ x ∈ l.flatMap s.flat, x ∈ X) {t : ℕ}
    (ht : s.alive t = true)
    (h : ∀ x, (x ∈ s.flat t ∧ x ≠ atom_of .never) ↔ Foremost s {y | y ∈ l.flatMap s.flat} x) :
    union_of o l s = .ok t s := by
  obtain ⟨hkept, hflat⟩ := gathered_spec hs hl
  have hn : normal_union s (gathered s l) = Normal.of s t := by
    apply Normal.eq_of_flat hs hkept (normal_of_kept hs ht) (told_flat hX hd hlX hflat)
    intro x
    rw [Normal.of_flat, hflat, h]
  rw [union_of_run hl, hn, made_of hs ht]

/-- Lists of the same foremost types have one union. -/
theorem union_of_same (hd : Told s) {l l' : List ℕ} (hl : ∀ m ∈ l, s.alive m = true)
    (hl' : ∀ m ∈ l', s.alive m = true)
    (h : ∀ x, Foremost s {y | y ∈ l.flatMap s.flat} x ↔ Foremost s {y | y ∈ l'.flatMap s.flat} x) :
    union_of o l s = union_of o l' s := by
  obtain ⟨hkept, hflat⟩ := gathered_spec hs hl
  obtain ⟨hkept', hflat'⟩ := gathered_spec hs hl'
  have hn : normal_union s (gathered s l) = normal_union s (gathered s l') := by
    apply Normal.eq_of_flat hs hkept hkept'
      (told_flat hs.types.atoms.alive hd (fun x hx => (leaves_leaf hs hl x hx).alive) hflat)
    intro x
    rw [hflat, hflat', h]
  rw [union_of_run hl, union_of_run hl', hn]

/-! ## How a union ends -/

/-- How deeply a type nests. -/
def Store.height (s : Store) (t : ℕ) : ℕ := ((s.cell t).map Cell.height).getD 0

def TOO_DEEP : Bytes := lit "types: a type nested deeper than " ++ tostring MAX_DEPTH

/-- What a union of the types of `L` may be refused with: one of them nests as deep as a type
may. -/
def Deep (s : Store) (L : List ℕ) (why : Bytes) : Prop := why = TOO_DEEP ∧ ∃ x ∈ L, MAX_DEPTH ≤ s.height x

omit hs in
theorem foldl_height {cs : List Cell} {n k : ℕ}
    (h : k ≤ cs.foldl (fun n c => max n c.height) n) : k ≤ n ∨ ∃ c ∈ cs, k ≤ c.height := by
  induction cs generalizing n with
  | nil => exact .inl h
  | cons c cs ih =>
    rcases ih h with h | ⟨c', hc', h⟩
    · rcases le_max_iff.mp h with h | h
      · exact .inl h
      · exact .inr ⟨c, mem_cons_self, h⟩
    · exact .inr ⟨c', mem_cons_of_mem c hc', h⟩

omit hs in
theorem deep_part {form : Form ℕ} (h : (measure s form).height > MAX_DEPTH) :
    ∃ p ∈ form.parts, MAX_DEPTH ≤ s.height p := by
  have hfold : MAX_DEPTH ≤ (form.parts.filterMap s.cell).foldl (fun n c => max n c.height) 0 := Nat.le_of_lt_succ h
  rcases foldl_height hfold with h | ⟨c, hc, h⟩
  · cases h
  · obtain ⟨p, hp, hcell⟩ := mem_filterMap.mp hc
    refine ⟨p, hp, ?_⟩
    rwa [Store.height, hcell]

omit hs in
theorem ends_intern_deep (form : Form ℕ) : Ends (intern o form) s (fun _ _ => True)
    fun why _ => why = TOO_DEEP ∧ (measure s form).height > MAX_DEPTH := by
  unfold intern
  rw [ends_bind, ends_read]
  cases s.interned (s.key_of form) with
  | some t => trivial
  | none =>
    simp only [ends_bind, ends_read, ends_refuse, ends_change]
    exact ⟨fun h => ⟨rfl, h⟩, fun _ => trivial⟩

theorem height_atom (tag : Atom) : s.height (atom_of tag) = 1 := by
  obtain ⟨c, hc, hdead, hform⟩ := hs.types.atoms tag
  have hm := hs.types.measured hc hdead
  rw [hform] at hm
  rw [Store.height, hc, hm]
  rfl

theorem ends_union_of {l : List ℕ} (hl : ∀ m ∈ l, s.alive m = true) : Ends (union_of o l) s
      (fun t s' => Grows o s s' ∧ s'.alive t = true ∧
        ∀ x, (x ∈ s'.flat t ∧ x ≠ atom_of .never) ↔ Foremost s {y | y ∈ l.flatMap s.flat} x)
      fun why _ => why = TOO_DEEP ∧ ∃ x, Foremost s {y | y ∈ l.flatMap s.flat} x ∧ MAX_DEPTH ≤ s.height x := by
  obtain ⟨hkept, hflat⟩ := gathered_spec hs hl
  have hfits := normal_union_fits hs.types.atoms (gathers_foldl hs.types.closed hl (gathers_none s))
  have hfits : (normal_union s (gathered s l)).Fits s := hfits
  unfold Ends
  rw [union_of_run hl]
  cases hn : normal_union s (gathered s l) with
  | type t =>
    rw [hn] at hflat hfits
    exact ⟨.refl, hfits, hflat⟩
  | union members nilable =>
    rw [hn] at hflat hfits
    have hmade := growing_intern hs (.union members nilable) hfits.2
      (fun d hd => absurd hd (by simp [Form.names])) hfits.1 (known_of_names rfl)
    apply (hmade.and (ends_intern_deep (.union members nilable))).mono
    · rintro t s' ⟨⟨hgrows, ht, hform⟩, -⟩
      refine ⟨hgrows, ht, fun x => ?_⟩
      rw [flat_union hform]
      exact hflat x
    · rintro why s' ⟨-, rfl, hheight⟩
      refine ⟨rfl, ?_⟩
      obtain ⟨p, hp, hdeep⟩ := deep_part hheight
      have hmem : p ∈ members := hp
      have hne := (single_ne hs (hfits.1.single p hmem)).2.1
      exact ⟨p, (hflat p).mp ⟨mem_with_nil.mpr (.inl hmem), hne⟩, hdeep⟩

theorem deep_of_foremost {L : List ℕ} {why : Bytes} (h : why = TOO_DEEP ∧
    ∃ x, Foremost s {y | y ∈ L} x ∧ MAX_DEPTH ≤ s.height x) : Deep s L why := by
  obtain ⟨hwhy, x, hx, hdeep⟩ := h
  refine ⟨hwhy, ?_⟩
  rcases hx.mem with h | ⟨rfl, -⟩
  · exact ⟨x, h, hdeep⟩
  · rw [height_atom hs] at hdeep
    exact absurd hdeep (by decide)

end

/-! ## Groups -/

/-- The types of a union, some of them in groups whose unions are made first. -/
inductive Grouping where
  | type (t : ℕ)
  | group (items : List Grouping)

mutual

def Grouping.leaves : Grouping → List ℕ
  | .type t => [t]
  | .group items => Grouping.all_leaves items

def Grouping.all_leaves : List Grouping → List ℕ
  | [] => []
  | g :: gs => g.leaves ++ Grouping.all_leaves gs

end

section

variable (o : Outside)

mutual

def Grouping.union : Grouping → M ℕ
  | .type t => return t
  | .group items => do
      let ts ← Grouping.all_union items
      union_of o ts

def Grouping.all_union : List Grouping → M (List ℕ)
  | [] => return []
  | g :: gs => do
      let t ← g.union
      let ts ← Grouping.all_union gs
      return t :: ts

end

end

def SameUnion (s : Store) (X Y : List ℕ) : Prop := ∀ x, Foremost s {y | y ∈ X} x ↔ Foremost s {y | y ∈ Y} x

section

variable {o : Outside} {s s' : Store}

theorem SameUnion.admits (ha : HasAtoms s) {X Y : List ℕ} (h : SameUnion s X Y) :
    Types.admits ha {y | y ∈ X} = Types.admits ha {y | y ∈ Y} := by
  rw [← admits_foremost ha, Set.ext h, admits_foremost ha]

theorem SameUnion.append (ha : HasAtoms s) {X X' Y Y' : List ℕ} (hX : SameUnion s X X')
    (hY : SameUnion s Y Y') : SameUnion s (X ++ Y) (X' ++ Y') := by
  have hunion : ∀ X Y : List ℕ, {y | y ∈ X ++ Y} = {y | y ∈ X} ⊔ {y | y ∈ Y} := fun X Y =>
    Set.ext fun y => mem_append
  have hadmits : Types.admits ha {y | y ∈ X ++ Y} = Types.admits ha {y | y ∈ X' ++ Y'} := by
    rw [hunion, hunion, ← ClosureOperator.closure_sup_closure, hX.admits ha, hY.admits ha,
      ClosureOperator.closure_sup_closure]
  exact fun x => ⟨foremost_congr ha hadmits, foremost_congr ha hadmits.symm⟩

theorem SameUnion.shows (hs : Sound o s) (hs' : Sound o s') (h : Shows s s') {X Y : List ℕ}
    (hX : ∀ x ∈ X, s.alive x = true) (hY : ∀ x ∈ Y, s.alive x = true) (hsame : SameUnion s X Y) :
    SameUnion s' X Y := fun x =>
  (foremost_shows hs hs' h hX x).symm.trans ((hsame x).trans (foremost_shows hs hs' h hY x))

theorem height_shows (h : Shows s s') {t : ℕ} (ht : s.alive t = true) : s'.height t = s.height t := by
  rw [Store.height, h.cell ht, Store.height]

theorem Deep.shows (hs : Sound o s) (h : Shows s s') {l : List ℕ} (hl : ∀ m ∈ l, s.alive m = true)
    {why : Bytes} (hd : Deep s' (l.flatMap s'.flat) why) : Deep s (l.flatMap s.flat) why := by
  obtain ⟨hwhy, x, hx, hdeep⟩ := hd
  rw [flatMap_flat_shows h hl] at hx
  rw [height_shows h (leaves_leaf hs hl x hx).alive] at hdeep
  exact ⟨hwhy, x, hx, hdeep⟩

theorem Deep.mono {X Y : List ℕ} (hXY : X ⊆ Y) {why : Bytes} (h : Deep s X why) : Deep s Y why :=
  ⟨h.1, h.2.imp fun _ hx => ⟨hXY hx.1, hx.2⟩⟩

/-- How the union of a grouping ends. -/
def Groups (o : Outside) (s : Store) (leaves : List ℕ) (m : M (List ℕ)) : Prop :=
  Ends m s (fun ts s' => Grows o s s' ∧ (∀ t ∈ ts, s'.alive t = true) ∧
      SameUnion s' (ts.flatMap s'.flat) (leaves.flatMap s'.flat))
    fun why _ => Deep s (leaves.flatMap s.flat) why

mutual

theorem ends_group {s : Store} (g : Grouping) (hs : Sound o s) (hl : ∀ m ∈ g.leaves, s.alive m = true) :
    Ends (g.union o) s (fun t s' => Grows o s s' ∧ s'.alive t = true ∧
        SameUnion s' (s'.flat t) (g.leaves.flatMap s'.flat))
      fun why _ => Deep s (g.leaves.flatMap s.flat) why := by
  cases g with
  | type t =>
    rw [Grouping.union, ends_pure]
    refine ⟨.refl, hl t (mem_singleton.mpr rfl), ?_⟩
    rw [Grouping.leaves, flatMap_singleton]
    exact fun _ => Iff.rfl
  | group items =>
    rw [Grouping.union, ends_bind]
    rw [Grouping.leaves] at hl ⊢
    apply (ends_groups items hs hl).mono
    · rintro ts s₁ ⟨hgrows, hts, hsame⟩
      have hs₁ := hgrows.steps.sound hs
      have hl₁ : ∀ m ∈ Grouping.all_leaves items, s₁.alive m = true := fun m hm =>
        hgrows.steps.shows.alive (hl m hm)
      apply (ends_union_of hs₁ hts).mono
      · rintro t s₂ ⟨hgrows₂, ht, hflat⟩
        have hs₂ := hgrows₂.steps.sound hs₁
        refine ⟨hgrows.trans hgrows₂, ht, fun x => ?_⟩
        rw [← flat_foremost hs₂ ht, hflat, hsame, flatMap_flat_shows hgrows₂.steps.shows hl₁]
        exact foremost_shows hs₁ hs₂ hgrows₂.steps.shows (fun x hx => (leaves_leaf hs₁ hl₁ x hx).alive) x
      · rintro why _ ⟨hwhy, x, hx, hdeep⟩
        have hd := deep_of_foremost hs₁ ⟨hwhy, x, (hsame x).mp hx, hdeep⟩
        exact hd.shows hs hgrows.steps.shows hl
    · exact fun _ _ h => h

theorem ends_groups {s : Store} (gs : List Grouping) (hs : Sound o s)
    (hl : ∀ m ∈ Grouping.all_leaves gs, s.alive m = true) :
    Groups o s (Grouping.all_leaves gs) (Grouping.all_union o gs) := by
  cases gs with
  | nil =>
    rw [Grouping.all_union, Groups, ends_pure]
    exact ⟨.refl, nofun, fun _ => Iff.rfl⟩
  | cons g gs =>
    rw [Grouping.all_union, Groups, ends_bind]
    rw [Grouping.all_leaves] at hl ⊢
    have hg : ∀ m ∈ g.leaves, s.alive m = true := fun m hm => hl m (mem_append_left _ hm)
    have hgs : ∀ m ∈ Grouping.all_leaves gs, s.alive m = true := fun m hm =>
      hl m (mem_append_right _ hm)
    apply (ends_group g hs hg).mono
    · rintro t s₁ ⟨hgrows, ht, hsame⟩
      have hs₁ := hgrows.steps.sound hs
      have hshows := hgrows.steps.shows
      have hg₁ : ∀ m ∈ g.leaves, s₁.alive m = true := fun m hm => hshows.alive (hg m hm)
      rw [ends_bind]
      apply (ends_groups gs hs₁ fun m hm => hshows.alive (hgs m hm)).mono
      · rintro ts s₂ ⟨hgrows₂, hts, hsame₂⟩
        have hs₂ := hgrows₂.steps.sound hs₁
        have hshows₂ := hgrows₂.steps.shows
        rw [ends_pure]
        refine ⟨hgrows.trans hgrows₂, ?_, ?_⟩
        · intro p hp
          rcases mem_cons.mp hp with rfl | hp
          · exact hshows₂.alive ht
          · exact hts p hp
        · rw [flatMap_cons, flatMap_append]
          apply SameUnion.append hs₂.types.atoms _ hsame₂
          rw [flat_shows hshows₂ ht, flatMap_flat_shows hshows₂ hg₁]
          exact hsame.shows hs₁ hs₂ hshows₂ (fun x hx => (hs₁.leaf_flat ht hx).alive)
            fun x hx => (leaves_leaf hs₁ hg₁ x hx).alive
      · intro why _ hd
        have hd := hd.shows hs hshows hgs
        apply hd.mono
        rw [flatMap_append]
        exact subset_append_right _ _
    · intro why _ hd
      apply hd.mono
      rw [flatMap_append]
      exact subset_append_left _ _

end

end

end Cosmic.Types
