/-
The laws of unions: a union is the same type for any order, repetition and grouping of its list,
and to make a type optional undoes taking its `nil` away.
-/
import Cosmic.Lang.TypesGroups

set_option autoImplicit false

namespace Cosmic.Types

open Cosmic.Base List
open Cosmic.Base.Raise

section

variable {o : Outside} {s s' : Store}

/-! ## Lists of the same types -/

theorem foremost_of_mem {X Y : List ℕ} (h : ∀ x, x ∈ X ↔ x ∈ Y) : SameUnion s X Y := by
  intro x
  have hset : {y | y ∈ X} = {y | y ∈ Y} := Set.ext h
  rw [hset]

theorem mem_flatMap_of_mem {l l' : List ℕ} (h : ∀ m, m ∈ l ↔ m ∈ l') (f : ℕ → List ℕ) (x : ℕ) :
    x ∈ l.flatMap f ↔ x ∈ l'.flatMap f := by
  rw [mem_flatMap, mem_flatMap]
  exact ⟨fun ⟨m, hm, hx⟩ => ⟨m, (h m).mp hm, hx⟩, fun ⟨m, hm, hx⟩ => ⟨m, (h m).mpr hm, hx⟩⟩

theorem union_of_mem (hs : Sound o s) (hd : Told s) {l l' : List ℕ}
    (hl : ∀ m ∈ l, s.alive m = true) (h : ∀ m, m ∈ l ↔ m ∈ l') :
    union_of o l s = union_of o l' s :=
  union_of_same hs hd hl (fun m hm => hl m ((h m).mpr hm)) (foremost_of_mem (mem_flatMap_of_mem h s.flat))

theorem union_of_later (hs : Sound o s) (hd : Told s) (h : Shows s s') (hs' : Sound o s')
    {l : List ℕ} (hl : ∀ m ∈ l, s.alive m = true) {t : ℕ} (ht : s'.alive t = true)
    (hsame : SameUnion s' (s'.flat t) (l.flatMap s'.flat)) : union_of o l s' = .ok t s' := by
  have hleaf : ∀ x ∈ l.flatMap s'.flat, s.alive x = true := by
    intro x hx
    rw [flatMap_flat_shows h hl] at hx
    exact (leaves_leaf hs hl x hx).alive
  refine union_of_known hs' (fun tag => hs.types.atoms.alive tag) (hd.shows h)
    (fun m hm => h.alive (hl m hm)) hleaf ht fun x => ?_
  rw [flat_foremost hs' ht]
  exact hsame x

theorem ends_regroup (hs : Sound o s) (hd : Told s) {g g' : Grouping}
    (hl : ∀ m ∈ g.leaves, s.alive m = true) (hg : ∀ m, m ∈ g.leaves ↔ m ∈ g'.leaves) :
    Ends (g.union o) s (fun t s₁ => union_of o g.leaves s₁ = .ok t s₁ ∧
        Ends (g'.union o) s₁ (fun t' _ => t' = t) fun why _ => Deep s (g'.leaves.flatMap s.flat) why)
      fun why _ => Deep s (g.leaves.flatMap s.flat) why := by
  have hl' : ∀ m ∈ g'.leaves, s.alive m = true := fun m hm => hl m ((hg m).mpr hm)
  apply (ends_group g hs hl).mono
  · rintro t s₁ ⟨hgrows, ht, hsame⟩
    have hs₁ := hgrows.steps.sound hs
    have hshows := hgrows.steps.shows
    refine ⟨union_of_later hs hd hshows hs₁ hl ht hsame, ?_⟩
    apply (ends_group g' hs₁ fun m hm => hshows.alive (hl' m hm)).mono
    · rintro t' s₂ ⟨hgrows₂, ht', hsame'⟩
      have hs₂ := hgrows₂.steps.sound hs₁
      have hshows₂ := hgrows₂.steps.shows
      have hall := hshows.trans hshows₂
      -- both are the union of the leaves in the last store
      have hunion := union_of_later hs hd hall hs₂ hl' ht' hsame'
      have hfirst : SameUnion s₂ (s₂.flat t) (g'.leaves.flatMap s₂.flat) := by
        intro x
        have hx : Foremost s₂ {y | y ∈ s₁.flat t} x ↔ Foremost s₂ {y | y ∈ g.leaves.flatMap s₁.flat} x :=
          hsame.shows hs₁ hs₂ hshows₂ (fun x hx => (hs₁.leaf_flat ht hx).alive)
            (fun x hx => (leaves_leaf hs₁ (fun m hm => hshows.alive (hl m hm)) x hx).alive) x
        rw [flat_shows hshows₂ ht, hx, ← flatMap_flat_shows hshows₂ fun m hm => hshows.alive (hl m hm)]
        exact foremost_of_mem (mem_flatMap_of_mem hg s₂.flat) x
      rw [union_of_later hs hd hall hs₂ hl' (hshows₂.alive ht) hfirst] at hunion
      cases hunion
      rfl
    · exact fun why _ hdeep => hdeep.shows hs hshows hl'
  · exact fun _ _ h => h

/-! ## The normal form -/

theorem union_normal (hs : Sound o s) (hd : Told s) {l : List ℕ} (hl : ∀ m ∈ l, s.alive m = true)
    {t : ℕ} (hrun : union_of o l s = .ok t s') :
    s'.alive t = true ∧ ∀ members nilable, s'.form t = some (.union members nilable) →
      NormalUnion s' members nilable ∧ (members.map s'.digest_text).Pairwise (· < ·) := by
  have hends := ends_union_of hs hl
  unfold Ends at hends
  rw [hrun] at hends
  obtain ⟨hgrows, ht, hflat⟩ := hends
  have hs' := hgrows.steps.sound hs
  refine ⟨ht, fun members nilable hform => ?_⟩
  obtain ⟨hn, -⟩ := hs'.normal_union ht hform
  refine ⟨hn, ?_⟩
  -- a member is of the list, so its digest tells it apart
  have halive : ∀ {m}, m ∈ members → s.alive m = true := by
    intro m hm
    have hx := (hflat m).mp ⟨by rw [flat_union hform]; exact mem_with_nil.mpr (.inl hm),
      (single_ne hs' (hn.single m hm)).2.1⟩
    rcases hx.mem with hmem | ⟨rfl, -⟩
    · exact (leaves_leaf hs hl m hmem).alive
    · exact hs.types.atoms.alive .boolean
  rw [pairwise_map]
  apply (hn.sorted.and hn.nodup).imp_of_mem
  rintro a b ha hb ⟨hle, hne⟩
  refine Std.lt_of_le_of_ne hle fun heq => hne ?_
  exact (hd.shows hgrows.steps.shows) a (halive ha) b (halive hb) heq

/-! ## `optional` and `non_nil` -/

theorem optional_eq {t : ℕ} (ht : s.alive t = true) : optional o t s = (match s.form t with
      | some (.union _ true) => answer t
      | _ => union_of o [t, atom_of .nil]) s := by
  show andThen (owned t) (fun _ => _) s = _
  unfold andThen
  rw [owned_run ht]
  rfl

theorem optional_nilable {t : ℕ} (ht : s.alive t = true) {members : List ℕ}
    (hform : s.form t = some (.union members true)) : optional o t s = .ok t s := by
  rw [optional_eq ht, hform]
  rfl

theorem optional_other {t : ℕ} (ht : s.alive t = true) (hform : ∀ members, s.form t ≠ some (.union members true)) :
    optional o t s = union_of o [t, atom_of .nil] s := by
  have h : (match s.form t with
      | some (.union _ true) => answer t
      | _ => union_of o [t, atom_of .nil]) = union_of o [t, atom_of .nil] := by
    split
    · next members h => exact absurd h (hform members)
    · rfl
  exact (optional_eq ht).trans (congrFun h s)

theorem non_nil_eq {t : ℕ} (ht : s.alive t = true) : non_nil o t s = (match s.form t with
      | some (.atom .nil) => answer (atom_of .never)
      | some (.union members true) => union_of o members
      | _ => answer t) s := by
  show andThen (owned t) (fun _ => _) s = _
  unfold andThen
  rw [owned_run ht]
  rfl

theorem member_shallow (hs : Sound o s) {t m : ℕ} {members : List ℕ} {nilable : Bool}
    (ht : s.alive t = true) (hform : s.form t = some (.union members nilable)) (hm : m ∈ members) :
    s.height m < MAX_DEPTH := by
  obtain ⟨c, hc, hdead⟩ := alive_iff.mp ht
  obtain ⟨c', hc', hf⟩ := form_iff.mp hform
  rw [hc] at hc'
  cases hc'
  have hshallow := hs.types.shallow hc hdead
  obtain ⟨cm, hcm, -⟩ := alive_iff.mp ((hs.normal_union ht hform).2 m hm)
  have hmeasured := hs.types.measured hc hdead
  rw [hf] at hmeasured
  rw [hmeasured] at hshallow
  have hle : cm.height ≤ (members.filterMap s.cell).foldl (fun n c => max n c.height) 0 := by
    have hmem : cm ∈ members.filterMap s.cell := mem_filterMap.mpr ⟨m, hm, hcm⟩
    generalize members.filterMap s.cell = cs at hmem
    have hfold : ∀ (cs : List Cell) (n : ℕ), n ≤ cs.foldl (fun n c => max n c.height) n ∧
        ∀ c ∈ cs, c.height ≤ cs.foldl (fun n c => max n c.height) n := by
      intro cs
      induction cs with
      | nil => exact fun n => ⟨le_refl n, nofun⟩
      | cons c cs ih =>
        intro n
        obtain ⟨hn, hcs⟩ := ih (max n c.height)
        refine ⟨(le_max_left _ _).trans hn, fun c' hc' => ?_⟩
        rcases mem_cons.mp hc' with rfl | hc'
        · exact (le_max_right _ _).trans hn
        · exact hcs c' hc'
    exact (hfold cs 0).2 cm hmem
  have hheight : s.height m = cm.height := by
    rw [Store.height, hcm]
    rfl
  rw [hheight]
  exact Nat.lt_of_lt_of_le (Nat.lt_succ_of_le hle) hshallow

theorem same_never (ha : HasAtoms s) (X : List ℕ) : SameUnion s (atom_of .never :: X) X := by
  have hadmits : admits ha {y | y ∈ atom_of .never :: X} = admits ha {y | y ∈ X} := by
    ext x
    rw [mem_admits, mem_admits]
    constructor
    · intro h
      refine Admitted.trans ha (h.mono fun y hy => ?_)
      rcases mem_cons.mp hy with rfl | hy
      · exact .never rfl
      · exact .member hy
    · exact fun h => h.mono fun y hy => mem_cons_of_mem _ hy
  exact fun x => ⟨foremost_congr ha hadmits, foremost_congr ha hadmits.symm⟩

theorem optional_members (hs : Sound o s) (hd : Told s) {t : ℕ} (ht : s.alive t = true)
    {members : List ℕ} (hform : s.form t = some (.union members true)) :
    Ends (union_of o members >>= optional o) s (fun r _ => r = t) fun _ _ => False := by
  obtain ⟨hn, hmembers⟩ := hs.normal_union ht hform
  have hleaf : ∀ m ∈ members, Leaf s m := fun m hm => hs.leaf_member ht hform hm
  have hflats : members.flatMap s.flat = members := by
    rw [flatMap_congr fun m hm => (hleaf m hm).flat, flatMap_singleton']
  rw [ends_bind]
  have hends := ends_union_of hs hmembers
  rw [hflats] at hends
  apply hends.mono
  · rintro u s₁ ⟨hgrows, hu, hflat⟩
    have hs₁ := hgrows.steps.sound hs
    have hshows := hgrows.steps.shows
    have hsome : ∀ {x}, x ∈ s₁.flat u → x ≠ atom_of .never → x ∈ members ∨ x = atom_of .boolean := by
      intro x hx hne
      rcases ((hflat x).mp ⟨hx, hne⟩).mem with h | ⟨h, -⟩
      · exact .inl h
      · exact .inr h
    -- what is made has no `nil` of its own
    have hother : ∀ ms, s₁.form u ≠ some (.union ms true) := by
      intro ms hms
      have hnil : atom_of .nil ∈ s₁.flat u := by
        rw [flat_union hms]
        exact mem_with_nil.mpr (.inr ⟨rfl, rfl⟩)
      rcases hsome hnil (atom_of_ne (by decide)) with h | h
      · exact (single_ne hs (hn.single _ h)).1 rfl
      · exact atom_of_ne (by decide) h
    have hsame : SameUnion s₁ (s₁.flat u) members := fun x =>
      (flat_foremost hs₁ hu x).symm.trans ((hflat x).trans (foremost_shows hs hs₁ hshows hmembers x))
    have hnil := hs₁.leaf_atom .nil
    have hunion : union_of o [u, atom_of .nil] s₁ = .ok t s₁ := by
      have hflats₁ : [u, atom_of .nil].flatMap s₁.flat = s₁.flat u ++ [atom_of .nil] := by
        rw [flatMap_cons, flatMap_singleton, hnil.flat]
      refine union_of_known hs₁ (fun tag => hs.types.atoms.alive tag) (hd.shows hshows) ?_ ?_
        (hshows.alive ht) fun x => ?_
      · intro m hm
        rcases mem_pair.mp hm with rfl | rfl
        · exact hu
        · exact hnil.alive
      · intro x hx
        rw [hflats₁, mem_append, mem_singleton] at hx
        rcases hx with hx | rfl
        · by_cases hne : x = atom_of .never
          · exact hne ▸ hs.types.atoms.alive .never
          · rcases hsome hx hne with h | rfl
            · exact hmembers x h
            · exact hs.types.atoms.alive .boolean
        · exact hs.types.atoms.alive .nil
      · rw [flat_foremost hs₁ (hshows.alive ht), flat_shows hshows ht, flat_union hform, hflats₁]
        exact (SameUnion.append hs₁.types.atoms hsame fun _ => Iff.rfl) x |>.symm
    unfold Ends
    rw [optional_other hu hother, hunion]
  · intro why _ hwhy
    obtain ⟨-, x, hx, hdeep⟩ := deep_of_foremost hs hwhy
    exact absurd (member_shallow hs ht hform hx) (Nat.not_lt.mpr hdeep)

theorem optional_non_nil (hs : Sound o s) (hd : Told s) {t : ℕ} (ht : s.alive t = true) :
    Ends (non_nil o t >>= optional o) s (fun r _ => ∃ s₁, optional o t s = .ok r s₁)
      fun why s₁ => optional o t s = .raised why s₁ := by
  have hself : Ends (optional o t) s (fun r _ => ∃ s₁, optional o t s = .ok r s₁)
      fun why s₁ => optional o t s = .raised why s₁ := by
    unfold Ends
    cases optional o t s with
    | ok r s₁ => exact ⟨s₁, rfl⟩
    | raised why s₁ => rfl
  by_cases hnil : s.form t = some (.atom .nil)
  · have htnil := hs.eq_of_form ht (hs.types.atoms.alive .nil) (hnil.trans (hs.types.atoms.form .nil).symm)
    subst htnil
    -- each is the union of `nil` alone
    have hunion : ∀ tag, tag = Atom.nil ∨ tag = Atom.never → optional o (atom_of tag) s = .ok (atom_of .nil) s := by
      intro tag htag
      have hleaf := hs.leaf_atom tag
      rw [optional_other hleaf.alive fun members => hleaf.no_union members true]
      refine union_of_later hs hd (Shows.refl s) hs ?_ ht ?_
      · intro p hp
        rcases mem_pair.mp hp with rfl | rfl
        · exact hleaf.alive
        · exact ht
      · rw [flatMap_cons, flatMap_singleton, hleaf.flat, (hs.leaf_atom .nil).flat, singleton_append]
        rcases htag with rfl | rfl
        · exact foremost_of_mem fun x => by simp
        · exact fun x => (same_never hs.types.atoms [atom_of .nil] x).symm
    rw [ends_bind]
    unfold Ends
    have hnever : non_nil o (atom_of .nil) s = .ok (atom_of .never) s := by
      rw [non_nil_eq ht, hnil]
      rfl
    rw [hnever]
    dsimp only
    rw [hunion .never (.inr rfl)]
    exact ⟨s, hunion .nil (.inl rfl)⟩
  by_cases hu : ∃ members, s.form t = some (.union members true)
  · obtain ⟨members, hform⟩ := hu
    have hrun : (non_nil o t >>= optional o) s = (union_of o members >>= optional o) s := by
      show andThen (non_nil o t) (optional o) s = andThen (union_of o members) (optional o) s
      unfold andThen
      rw [non_nil_eq ht, hform]
    unfold Ends
    rw [hrun]
    apply (optional_members hs hd ht hform).mono
    · rintro r _ rfl
      exact ⟨s, optional_nilable ht hform⟩
    · exact fun _ _ h => h.elim
  · rw [ends_bind]
    unfold Ends
    have h : (match s.form t with
        | some (.atom .nil) => answer (atom_of .never)
        | some (.union members true) => union_of o members
        | _ => (answer t : M ℕ)) = answer t := by
      split
      · next h => exact absurd h hnil
      · next members h => exact absurd ⟨members, h⟩ hu
      · rfl
    rwa [(non_nil_eq ht).trans (congrFun h s)]

end

/-! ## Unions are canonical -/

/-- In a store of a program whose digests tell its types apart, a union is the same type for any
order and repetition of its list, and for any grouping of it, where no group is refused for nesting
too deep; it is in normal form, and `optional` undoes `non_nil`. -/
theorem union_canonical {o : Outside} {loader : Option Loader} {s : Store} (h : Reached o loader s) (hd : Told s) :
    (∀ l l' : List ℕ, (∀ m ∈ l, s.alive m = true) → (∀ m, m ∈ l ↔ m ∈ l') → union_of o l s = union_of o l' s) ∧
      (∀ g g' : Grouping, (∀ m ∈ g.leaves, s.alive m = true) → (∀ m, m ∈ g.leaves ↔ m ∈ g'.leaves) →
        Ends (g.union o) s (fun t s₁ => union_of o g.leaves s₁ = .ok t s₁ ∧ Ends (g'.union o) s₁ (fun t' _ => t' = t)
              fun why _ => Deep s (g'.leaves.flatMap s.flat) why)
          fun why _ => Deep s (g.leaves.flatMap s.flat) why) ∧
      (∀ (l : List ℕ) (t : ℕ) (s' : Store), (∀ m ∈ l, s.alive m = true) → union_of o l s = .ok t s' →
          s'.alive t = true ∧ ∀ members nilable, s'.form t = some (.union members nilable) →
            NormalUnion s' members nilable ∧ (members.map s'.digest_text).Pairwise (· < ·)) ∧
      ∀ t, s.alive t = true → Ends (non_nil o t >>= optional o) s (fun r _ => ∃ s₁, optional o t s = .ok r s₁)
          fun why s₁ => optional o t s = .raised why s₁ :=
  ⟨fun _ _ hl hmem => union_of_mem h.sound hd hl hmem,
    fun _ _ hl hmem => ends_regroup h.sound hd hl hmem,
    fun _ _ _ hl hrun => union_normal h.sound hd hl hrun,
    fun _ ht => optional_non_nil h.sound hd ht⟩

/-- The digests are what they are of. -/
def plain : Outside := ⟨id, fun _ _ => []⟩

theorem plain_new_digest (tag : Atom) : (new plain).digest_text (atom_of tag) = tag.text := by
  have hcell := (new_cell (o := plain)).mpr ⟨tag, rfl, rfl⟩
  rw [Store.digest_text, hcell]
  rfl

theorem alive_new {t : ℕ} : (new plain).alive t = true ↔ ∃ tag, t = atom_of tag := by
  rw [alive_iff]
  constructor
  · rintro ⟨c, hc, -⟩
    obtain ⟨tag, rfl, -⟩ := new_cell.mp hc
    exact ⟨tag, rfl⟩
  · rintro ⟨tag, rfl⟩
    exact ⟨_, new_cell.mpr ⟨tag, rfl, rfl⟩, rfl⟩

theorem told_new : Told (new plain) := by
  intro t ht t' ht' heq
  obtain ⟨tag, rfl⟩ := alive_new.mp ht
  obtain ⟨tag', rfl⟩ := alive_new.mp ht'
  cases tag <;> cases tag' <;> first | rfl | exact absurd heq (by decide)

/-- In a new store `true` twice, about `number`, is `number` and `true`. -/
theorem union_canonical_new : Told (new plain) ∧
    union_of plain [atom_of .true, atom_of .number, atom_of .true] (new plain) =
      union_of plain [atom_of .number, atom_of .true] (new plain) :=
  ⟨told_new, (union_canonical (.new : Reached plain none (new plain)) told_new).1 _ _ (fun m hm => by
      simp only [mem_cons, not_mem_nil, or_false] at hm
      rcases hm with rfl | rfl | rfl
      · exact alive_new.mpr ⟨_, rfl⟩
      · exact alive_new.mpr ⟨_, rfl⟩
      · exact alive_new.mpr ⟨_, rfl⟩)
    fun m => by simp only [mem_cons, not_mem_nil, or_false]; tauto⟩

/-! ## A group that nests too deep -/

/-- A store of a program with the type `t`, which nests `n` deep and has the longest digest. -/
structure Nests (s : Store) (t n : ℕ) : Prop where
  reached : Reached plain none s
  told : Told s
  alive : s.alive t = true
  single : Single s t
  height : s.height t = n
  longest : ∀ u, s.alive u = true → (s.digest_text u).length ≤ (s.digest_text t).length

theorem nests_new : Nests (new plain) (atom_of .integer) 1 where
  reached := .new
  told := told_new
  alive := alive_new.mpr ⟨_, rfl⟩
  single := ⟨_, (sound_new plain).types.atoms.form .integer, rfl⟩
  height := by
    have hcell := (new_cell (o := plain)).mpr ⟨.integer, rfl, rfl⟩
    rw [Store.height, hcell]
    rfl
  longest u hu := by
    obtain ⟨tag, rfl⟩ := alive_new.mp hu
    rw [plain_new_digest, plain_new_digest]
    cases tag <;> decide

theorem array_digest (s : Store) (t : ℕ) :
    (render s.decl_text s.digest_text (.array t false)).length = (s.digest_text t).length + 8 := by
  show (lit "(" ++ lit "array " ++ s.digest_text t ++ lit ")").length = _
  rw [length_append, length_append, length_append]
  have h₁ : (lit "(").length = 1 := rfl
  have h₂ : (lit "array ").length = 6 := rfl
  have h₃ : (lit ")").length = 1 := rfl
  omega

theorem Nests.array {s : Store} {t n : ℕ} (h : Nests s t n) (hn : n < MAX_DEPTH) : ∃ s' t', Nests s' t' (n + 1) := by
  have hs := h.reached.sound
  obtain ⟨c, hc, hdead⟩ := alive_iff.mp h.alive
  have hheight : (measure s (.array t false)).height = n + 1 := by
    have hct : c.height = n := by
      have heq := h.height
      rwa [Store.height, hc] at heq
    show ([t].filterMap s.cell).foldl (fun n c => max n c.height) 0 + 1 = n + 1
    rw [filterMap_cons_some hc, filterMap_nil]
    show max 0 c.height + 1 = n + 1
    rw [hct, Nat.zero_max]
  -- a type of the form would have a longer digest than any
  have hnew : s.interned (s.key_of (.array t false)) = none := by
    cases hfound : s.interned (s.key_of (.array t false)) with
    | none => rfl
    | some u =>
      have hnames : ∀ d ∈ (Form.array t false).names, s.decl_alive d = true := fun d hd =>
        absurd hd (by simp [Form.names])
      obtain ⟨hu, hform⟩ := hs.interned_form hnames (show AltsNormal (.array t false) from trivial) hfound
      obtain ⟨cu, hcu, hf⟩ := form_iff.mp hform
      obtain ⟨cu', hcu', hdead'⟩ := alive_iff.mp hu
      rw [hcu] at hcu'
      cases hcu'
      have hdigest : s.digest_text u = render s.decl_text s.digest_text (.array t false) := by
        have hm := hs.types.measured hcu hdead'
        rw [hf] at hm
        rw [Store.digest_text, hcu, hm]
        rfl
      have hle := h.longest u hu
      rw [hdigest, array_digest] at hle
      omega
  have hrun : step plain none (.array t false) s = .ok (.type (s.count + 1)) (s.add plain (.array t false)) := by
    show andThen (andThen (owned t) fun _ => intern plain (.array t false)) (fun t => answer (Answer.type t)) s = _
    unfold andThen
    rw [owned_run h.alive]
    have hintern : intern plain (.array t false) s = .ok (s.count + 1) (s.add plain (.array t false)) := by
      dsimp only [intern, bind, andThen, Raise.read]
      rw [hnew]
      show andThen (refuse ((measure s (.array t false)).height > MAX_DEPTH) _) (fun _ => _) s = _
      unfold andThen refuse
      rw [if_neg (by rw [hheight]; omega)]
      rfl
    dsimp only
    rw [hintern]
    rfl
  have hshows := add_shows plain s (.array t false)
  have hcell : (s.add plain (.array t false)).cell (s.types.length + 1) =
      some (s.cell_of plain (.array t false)) := add_cell.mpr (.inr ⟨rfl, rfl⟩)
  have hdigest : ((s.add plain (.array t false)).digest_text (s.types.length + 1)).length =
      (s.digest_text t).length + 8 := by
    rw [Store.digest_text, hcell]
    exact array_digest s t
  have hcases : ∀ u, (s.add plain (.array t false)).alive u = true → s.alive u = true ∨ u = s.types.length + 1 := by
    intro u hu
    obtain ⟨cu, hcu, hdead'⟩ := alive_iff.mp hu
    rcases add_cell.mp hcu with hcu | ⟨rfl, -⟩
    · exact .inl (alive_iff.mpr ⟨cu, hcu, hdead'⟩)
    · exact .inr rfl
  have hshort : ∀ u, s.alive u = true →
      ((s.add plain (.array t false)).digest_text u).length < (s.digest_text t).length + 8 := by
    intro u hu
    rw [hshows.digest_text hu]
    have hle := h.longest u hu
    omega
  refine ⟨_, s.types.length + 1, .answered h.reached hrun, ?_, ?_, ?_, ?_, ?_⟩
  · intro u hu u' hu' heq
    have hlen := congrArg List.length heq
    rcases hcases u hu with hold | rfl
    · rcases hcases u' hu' with hold' | rfl
      · exact h.told.shows hshows u hold u' hold' heq
      · rw [hdigest] at hlen
        exact absurd hlen (Nat.ne_of_lt (hshort u hold))
    · rcases hcases u' hu' with hold' | rfl
      · rw [hdigest] at hlen
        exact absurd hlen.symm (Nat.ne_of_lt (hshort u' hold'))
      · rfl
  · exact alive_iff.mpr ⟨_, hcell, rfl⟩
  · exact ⟨_, form_iff.mpr ⟨_, hcell, rfl⟩, rfl⟩
  · rwa [Store.height, hcell]
  · intro u hu
    rw [hdigest]
    rcases hcases u hu with hold | rfl
    · exact Nat.le_of_lt (hshort u hold)
    · exact hdigest.le

theorem exists_nests (n : ℕ) (hn : n < MAX_DEPTH) : ∃ s t, Nests s t (n + 1) := by
  induction n with
  | zero => exact ⟨_, _, nests_new⟩
  | succ n ih =>
    obtain ⟨s, t, h⟩ := ih (Nat.lt_of_succ_lt hn)
    exact h.array hn

/-- With a type that nests as deep as may be, the union of it, `integer` and `any` is `any`, and is
refused where the first two are a group. -/
theorem union_group_refused : ∃ s t s', Reached plain none s ∧ Told s ∧ s.alive t = true ∧
    union_of plain [t, atom_of .integer, atom_of .any] s = .ok (atom_of .any) s ∧
    (Grouping.group [.group [.type t, .type (atom_of .integer)], .type (atom_of .any)]).union plain s =
      .raised TOO_DEEP s' := by
  obtain ⟨s, t, h⟩ := exists_nests (MAX_DEPTH - 1) (by decide)
  have hs := h.reached.sound
  have ha := hs.types.atoms
  have hleaf : Leaf s t := ⟨h.alive, h.single.no_union⟩
  have hatom : ∀ tag, t ≠ atom_of tag := by
    rintro tag rfl
    have hheight := h.height
    rw [height_atom hs] at hheight
    exact absurd hheight (by decide)
  have hflats : ∀ l : List Atom, (t :: l.map atom_of).flatMap s.flat = t :: l.map atom_of := by
    intro l
    rw [flatMap_congr, flatMap_singleton']
    intro m hm
    rcases mem_cons.mp hm with rfl | hm
    · exact hleaf.flat
    · obtain ⟨tag, -, rfl⟩ := mem_map.mp hm
      exact (hs.leaf_atom tag).flat
  have hl : ∀ l : List Atom, ∀ m ∈ t :: l.map atom_of, s.alive m = true := by
    intro l m hm
    rcases mem_cons.mp hm with rfl | hm
    · exact h.alive
    · obtain ⟨tag, -, rfl⟩ := mem_map.mp hm
      exact ha.alive tag
  have hany : union_of plain (t :: [Atom.integer, .any].map atom_of) s = .ok (atom_of .any) s := by
    refine union_of_later hs h.told (Shows.refl s) hs (hl _) (ha.alive .any) fun x => ?_
    rw [hflats, (hs.leaf_atom .any).flat]
    have hi : atom_of .invalid ∉ t :: [Atom.integer, .any].map atom_of := by
      intro hmem
      rcases mem_cons.mp hmem with heq | hmem
      · exact hatom .invalid heq.symm
      · exact absurd hmem (by decide)
    have hmem : atom_of .any ∈ t :: [Atom.integer, .any].map atom_of := mem_cons_of_mem _ (by decide)
    constructor
    · intro hx
      rcases hx.mem with hx | ⟨-, ht, -⟩
      · rw [mem_singleton.mp hx]
        exact foremost_any ha hi hmem
      · exact absurd ht (by decide)
    · intro hx
      have heq : x = atom_of .any := by
        by_contra hne
        apply hx.first _ (.member hmem) (.any rfl hne _)
        rintro rfl
        exact hi ((admitted_invalid ha).mp hx.admitted)
      rw [heq]
      exact foremost_any ha (by decide) (mem_singleton.mpr rfl)
  -- a union of the first two would be deeper than a type may nest
  obtain ⟨s', hrefused⟩ : ∃ s', union_of plain (t :: [Atom.integer].map atom_of) s = .raised TOO_DEEP s' := by
    have hends := ends_union_of hs (hl [.integer])
    rw [hflats] at hends
    unfold Ends at hends
    cases hrun : union_of plain (t :: [Atom.integer].map atom_of) s with
    | raised why s' =>
      rw [hrun] at hends
      exact ⟨s', by rw [hends.1]⟩
    | ok u s' =>
      rw [hrun] at hends
      obtain ⟨hgrows, hu, hflat⟩ := hends
      have hs' := hgrows.steps.sound hs
      have hboth : ∀ x ∈ t :: [Atom.integer].map atom_of, x ∈ s'.flat u := by
        intro x hx
        refine ((hflat x).mpr ((foremost_self hs ?_ ?_ x).mp ⟨hx, ?_⟩)).1
        · intro x _ y hy hc
          obtain ⟨tag, -, rfl⟩ := hc.atom
          rcases mem_cons.mp hy with heq | hy
          · exact hatom tag heq.symm
          rw [mem_singleton.mp hy] at hc
          cases hc with
          | invalid heq _ => exact absurd heq (by decide)
          | any heq _ _ => exact absurd heq (by decide)
          | integer heq _ => exact absurd heq (by decide)
          | boolean heq _ => exact absurd heq (by decide)
          | enum heq _ => exact absurd heq (by decide)
        · rintro ⟨htrue, -⟩
          rcases mem_cons.mp htrue with heq | hmem
          · exact hatom .true heq.symm
          · exact absurd hmem (by decide)
        · rcases mem_cons.mp hx with rfl | hx
          · exact hatom .never
          · rw [mem_singleton.mp hx]
            exact atom_of_ne (by decide)
      have ht := hboth t mem_cons_self
      have hint := hboth (atom_of .integer) (mem_cons_of_mem _ mem_cons_self)
      exfalso
      by_cases hunion : ∃ members nilable, s'.form u = some (.union members nilable)
      · obtain ⟨members, nilable, hform⟩ := hunion
        rw [flat_union hform, mem_with_nil] at ht
        have hmem := ht.resolve_right fun hnil => hatom .nil hnil.1
        have hshallow := member_shallow hs' hu hform hmem
        rw [height_shows hgrows.steps.shows h.alive, h.height] at hshallow
        exact absurd hshallow (by decide)
      · have hleaf' : Leaf s' u := ⟨hu, fun members nilable hf => hunion ⟨members, nilable, hf⟩⟩
        rw [hleaf'.flat, mem_singleton] at ht hint
        exact hatom .integer (ht.trans hint.symm)
  refine ⟨s, t, s', h.reached, h.told, h.alive, hany, ?_⟩
  simp only [Grouping.union, Grouping.all_union, pure_bind, bind_assoc]
  show andThen (union_of plain (t :: [Atom.integer].map atom_of)) (fun _ => _) s = _
  unfold andThen
  rw [hrefused]

end Cosmic.Types
