/-
The normal forms: what the store keeps of a union and of a function type, and that gathering a
union and ordering the alternatives of a function make them.
-/
import Cosmic.Lang.TypesForm
import Mathlib.Data.List.Destutter

set_option autoImplicit false

namespace Cosmic.Types

open Cosmic.Base List

/-! ## What is normal -/

/-- A form a member of a union has: no union, and no atom that a union takes in. -/
def Form.single {α : Type} : Form α → Bool
  | .union _ _ => false
  | .atom tag => !(tag == .nil || tag == .never || tag == .any || tag == .invalid)
  | _ => true

/-- A member of a union. -/
def Single (s : Store) (m : ℕ) : Prop := ∃ f, s.form m = some f ∧ f.single = true

structure NormalUnion (s : Store) (members : List ℕ) (nilable : Bool) : Prop where
  nodup : members.Nodup
  some_member : members ≠ []
  two : nilable = false → 2 ≤ members.length
  single : ∀ m ∈ members, Single s m
  not_both : ¬(atom_of .true ∈ members ∧ atom_of .false ∈ members)
  uncovered : ∀ m ∈ members, covered s members m = false
  sorted : members.Pairwise (by_digest s)

/-- A type that `optional` answers. -/
def Nilable (s : Store) (t : ℕ) : Prop :=
  (∃ members, s.form t = some (.union members true)) ∨ t = atom_of .nil ∨ t = atom_of .any ∨ t = atom_of .invalid

/-- An alternative as the store keeps it. -/
def Alt.Normal (alt : Alt ℕ) : Prop :=
  match alt.narrows with
  | some narrows =>
    alt.items = (if narrows.asserts then [] else [atom_of .boolean]) ∧ alt.tail = none ∧ 1 ≤ narrows.param
  | none => atom_of .never ∉ alt.items ∧ alt.tail ≠ some (atom_of .never)

structure NormalFn (s : Store) (tparams : List (Option ℕ)) (params : List (Param ℕ))
    (rest : Option ℕ) (rets : List (Alt ℕ)) : Prop where
  bounds : ∀ b ∈ tparams.reduceOption, is_bound s b = true
  omittable : ∀ p ∈ params, p.omittable = true → Nilable s p.type
  alts : ∀ alt ∈ rets, alt.Normal
  alone : ∀ alt ∈ rets, ∀ narrows ∈ alt.narrows, rets.length = 1 ∧ narrows.param ≤ params.length
  ordered : (rets.map (render_alt s.digest_text)).Pairwise (· < ·)
  bound : tparams ≠ [] → ∀ t ∈ (Form.fn tparams params rest rets).parts, unbound s tparams.length (t + 1) 0 t = none

def NormalForm (s : Store) : Form ℕ → Prop
  | .atom _ => False
  | .union members nilable => NormalUnion s members nilable
  | .fn tparams params rest rets => NormalFn s tparams params rest rets
  | _ => True

section

variable {s s' : Store} (hs : Shows s s') (hc : Closed s)

include hs

theorem nilable_shows {t : ℕ} (ht : s.alive t = true) (h : Nilable s t) : Nilable s' t := by
  unfold Nilable
  rwa [hs.form ht]

theorem Single.shows {m : ℕ} (hm : s.alive m = true) (h : Single s m) : Single s' m := by
  unfold Single
  rwa [hs.form hm]

include hc

theorem NormalUnion.shows {members : List ℕ} {nilable : Bool}
    (hm : ∀ m ∈ members, s.alive m = true) (h : NormalUnion s members nilable) :
    NormalUnion s' members nilable where
  nodup := h.nodup
  some_member := h.some_member
  two := h.two
  single m hmem := (h.single m hmem).shows hs (hm m hmem)
  not_both := h.not_both
  uncovered m hmem := (covered_shows hs hc (hm m hmem)).trans (h.uncovered m hmem)
  sorted := by
    apply h.sorted.imp_of_mem
    intro a b ha hb hab
    unfold by_digest
    rwa [hs.digest_text (hm a ha), hs.digest_text (hm b hb)]

theorem NormalFn.shows {tparams : List (Option ℕ)} {params : List (Param ℕ)} {rest : Option ℕ}
    {rets : List (Alt ℕ)} (hp : ∀ t ∈ (Form.fn tparams params rest rets).parts, s.alive t = true)
    (h : NormalFn s tparams params rest rets) : NormalFn s' tparams params rest rets where
  bounds b hb := by
    have hpart : b ∈ (Form.fn tparams params rest rets).parts := by
      simp only [Form.parts, mem_append]
      exact .inl (.inl (.inl hb))
    rw [is_bound_shows hs hc (hp b hpart)]
    exact h.bounds b hb
  omittable p hmem ho := by
    apply nilable_shows hs _ (h.omittable p hmem ho)
    apply hp
    simp only [Form.parts, mem_append]
    exact .inl (.inl (.inr (mem_map_of_mem hmem)))
  alts := h.alts
  alone := h.alone
  ordered := by
    have hkeys : rets.map (render_alt s'.digest_text) = rets.map (render_alt s.digest_text) := by
      apply map_congr_left
      intro alt halt
      apply render_alt_congr
      intro p hpart
      apply hs.digest_text
      apply hp
      simp only [Form.parts, mem_append]
      exact .inr (mem_flatMap.mpr ⟨alt, halt, hpart⟩)
    rw [hkeys]
    exact h.ordered
  bound hne t ht := (unbound_shows hs hc _ _ (hp t ht)).trans (h.bound hne t ht)

theorem NormalForm.shows {form : Form ℕ} (hp : ∀ t ∈ form.parts, s.alive t = true)
    (h : NormalForm s form) : NormalForm s' form := by
  cases form with
  | atom tag => exact h
  | union members nilable => exact NormalUnion.shows hs hc hp h
  | fn tparams params rest rets => exact NormalFn.shows hs hc hp h
  | _ => trivial

end

/-! ## Unions -/

/-- What a union gathers: live members, each once. -/
structure Gathers (s : Store) (g : Gathered) : Prop where
  nodup : g.members.Nodup
  alive : ∀ m ∈ g.members, s.alive m = true
  single : ∀ m ∈ g.members, Single s m

section

variable {s : Store} (hc : Closed s)

include hc

theorem Gathers.gather (levels : ℕ) : ∀ {g : Gathered} {m : ℕ}, Gathers s g → s.alive m = true →
    Gathers s (gather s levels g m) := by
  induction levels with
  | zero => intro g m hg _; exact hg
  | succ levels ih =>
    intro g m hg hm
    obtain ⟨c, hcell, hdead⟩ := alive_iff.mp hm
    have hform : s.form m = some c.form := form_iff.mpr ⟨c, hcell, rfl⟩
    -- a member of its own, where it is not there yet
    have hadd : c.form.single = true →
        Gathers s (if m ∈ g.members then g else { g with members := g.members ++ [m] }) := by
      intro hsingle
      by_cases hmem : m ∈ g.members
      · rwa [if_pos hmem]
      rw [if_neg hmem]
      constructor
      · exact nodup_append.mpr ⟨hg.nodup, nodup_singleton m, by
          rintro a ha b hb rfl
          exact hmem (mem_singleton.mp hb ▸ ha)⟩
      · intro a ha
        rcases mem_append.mp ha with ha | ha
        · exact hg.alive a ha
        · rwa [mem_singleton.mp ha]
      · intro a ha
        rcases mem_append.mp ha with ha | ha
        · exact hg.single a ha
        · rw [mem_singleton.mp ha]
          exact ⟨c.form, hform, hsingle⟩
    unfold Types.gather
    rw [hform]
    cases hf : c.form with
    | union members nilable =>
      have hall : ∀ (ms : List ℕ) (g : Gathered), (∀ p ∈ ms, s.alive p = true) →
          Gathers s g → Gathers s (ms.foldl (Types.gather s levels) g) := by
        intro ms
        induction ms with
        | nil => intro g _ hg; exact hg
        | cons p ms ihms =>
          intro g hp hg
          exact ihms _ (fun q hq => hp q (mem_cons_of_mem p hq)) (ih hg (hp p mem_cons_self))
      have hparts := hc.parts hcell hdead
      rw [hf] at hparts
      have hg' := hall members g hparts hg
      dsimp only
      split
      · exact ⟨hg'.nodup, hg'.alive, hg'.single⟩
      · exact hg'
    | atom tag =>
      rw [hf] at hadd
      cases tag with
      | nil => exact ⟨hg.nodup, hg.alive, hg.single⟩
      | any => exact ⟨hg.nodup, hg.alive, hg.single⟩
      | invalid => exact ⟨hg.nodup, hg.alive, hg.single⟩
      | never => exact hg
      | _ => exact hadd rfl
    | _ =>
      rw [hf] at hadd
      exact hadd rfl

/-- What a union of live types gathers. -/
theorem gathers_foldl {ms : List ℕ} (hm : ∀ m ∈ ms, s.alive m = true) {g : Gathered}
    (hg : Gathers s g) : Gathers s (ms.foldl (fun g m => gather s (m + 1) g m) g) := by
  induction ms generalizing g with
  | nil => exact hg
  | cons m ms ih =>
    exact ih (fun p hp => hm p (mem_cons_of_mem m hp)) (Gathers.gather hc (m + 1) hg (hm m mem_cons_self))

end

theorem gathers_none (s : Store) : Gathers s {} := ⟨nodup_nil, nofun, nofun⟩

section

variable {s : Store}

theorem covered_mono {seen seen' : List ℕ} (h : ∀ m ∈ seen, m ∈ seen') {m : ℕ}
    (hm : covered s seen m = true) : covered s seen' m = true := by
  unfold covered at hm ⊢
  by_cases hn : atom_of .number ∈ seen' ∧ m = atom_of .integer
  · rw [if_pos hn]
  rw [if_neg hn]
  rw [if_neg fun h' => hn ⟨h _ h'.1, h'.2⟩] at hm
  by_cases hb : atom_of .boolean ∈ seen' ∧ (m = atom_of .true ∨ m = atom_of .false)
  · rw [if_pos hb]
  rw [if_neg hb]
  rw [if_neg fun h' => hb ⟨h _ h'.1, h'.2⟩] at hm
  by_cases hstr : atom_of .string ∈ seen
  · rw [if_pos (h _ hstr)]
    rwa [if_pos hstr] at hm
  · rw [if_neg hstr] at hm
    cases hm

instance by_digest_trans : IsTrans ℕ (by_digest s) := ⟨fun _ _ _ => Std.le_trans⟩

instance by_digest_total : Std.Total (by_digest s) := ⟨fun _ _ => Std.le_total⟩

def HasAtoms (s : Store) : Prop := ∀ tag, ∃ c, s.cell (atom_of tag) = some c ∧ c.dead = false ∧ c.form = .atom tag

theorem HasAtoms.alive (h : HasAtoms s) (tag : Atom) : s.alive (atom_of tag) = true := by
  obtain ⟨c, hc, hdead, -⟩ := h tag
  exact alive_iff.mpr ⟨c, hc, hdead⟩

theorem HasAtoms.form (h : HasAtoms s) (tag : Atom) : s.form (atom_of tag) = some (.atom tag) := by
  obtain ⟨c, hc, -, hform⟩ := h tag
  exact form_iff.mpr ⟨c, hc, hform⟩

/-- The members with `boolean` for `true` and `false`. -/
def with_boolean (members : List ℕ) : List ℕ :=
  if atom_of .true ∈ members ∧ atom_of .false ∈ members ∧ atom_of .boolean ∉ members then
    members ++ [atom_of .boolean]
  else members

theorem Gathers.with_boolean {g : Gathered} (hg : Gathers s g) (ha : HasAtoms s) :
    Gathers s { g with members := with_boolean g.members } := by
  unfold Types.with_boolean
  by_cases hb : atom_of .true ∈ g.members ∧ atom_of .false ∈ g.members ∧ atom_of .boolean ∉ g.members
  · rw [if_pos hb]
    constructor
    · exact nodup_append.mpr ⟨hg.nodup, nodup_singleton _, by
        rintro a ha b hb' rfl
        exact hb.2.2 (mem_singleton.mp hb' ▸ ha)⟩
    · intro m hm
      rcases mem_append.mp hm with hm | hm
      · exact hg.alive m hm
      · rw [mem_singleton.mp hm]
        exact ha.alive .boolean
    · intro m hm
      rcases mem_append.mp hm with hm | hm
      · exact hg.single m hm
      · rw [mem_singleton.mp hm]
        exact ⟨_, ha.form .boolean, rfl⟩
  · rwa [if_neg hb]

theorem kept_not_both {members : List ℕ} : ¬(atom_of .true ∈ (with_boolean members).filter
        (fun m => !covered s (with_boolean members) m) ∧
      atom_of .false ∈ (with_boolean members).filter (fun m => !covered s (with_boolean members) m)) := by
  rintro ⟨ht, hf⟩
  rw [List.mem_filter] at ht hf
  have hboolean : atom_of .boolean ∈ with_boolean members := by
    by_contra hb
    have htf : ∀ tag, tag ≠ Atom.boolean → atom_of tag ∈ with_boolean members → atom_of tag ∈ members := by
      intro tag htag h
      unfold with_boolean at h
      split at h
      · rcases mem_append.mp h with h | h
        · exact h
        · exact absurd (atom_of_inj (mem_singleton.mp h)) htag
      · exact h
    have ht' := htf .true (by decide) ht.1
    have hf' := htf .false (by decide) hf.1
    apply hb
    unfold with_boolean
    by_cases hm : atom_of .boolean ∈ members
    · rwa [if_neg fun h => h.2.2 hm]
    · rw [if_pos ⟨ht', hf', hm⟩]
      exact mem_append_right _ (mem_singleton.mpr rfl)
  have hcovered : covered s (with_boolean members) (atom_of .true) = true := by
    unfold covered
    rw [if_neg (fun h => absurd h.2 (by decide)), if_pos ⟨hboolean, .inl rfl⟩]
  rw [hcovered] at ht
  exact absurd ht.2 (by decide)

/-- What a normal union is: a live type, or a union in normal form of live members. -/
def Normal.Fits (s : Store) : Normal → Prop
  | .type t => s.alive t = true
  | .union members nilable => NormalUnion s members nilable ∧ ∀ m ∈ members, s.alive m = true

theorem normal_union_fits (ha : HasAtoms s) {g : Gathered} (hg : Gathers s g) : (normal_union s g).Fits s := by
  have hb := hg.with_boolean ha
  have hnot := @kept_not_both s g.members
  unfold normal_union
  by_cases hi : g.invalid = true
  · rw [if_pos hi]
    exact ha.alive .invalid
  rw [if_neg hi]
  by_cases hany : g.any = true
  · rw [if_pos hany]
    exact ha.alive .any
  rw [if_neg hany]
  have hmembers : (if atom_of .true ∈ g.members ∧ atom_of .false ∈ g.members ∧
      atom_of .boolean ∉ g.members then g.members ++ [atom_of .boolean] else g.members) =
        with_boolean g.members := rfl
  dsimp only
  rw [hmembers]
  generalize hkept : (with_boolean g.members).filter (fun m => !covered s (with_boolean g.members) m) = kept at hnot
  have hmem : ∀ m ∈ kept, m ∈ with_boolean g.members ∧ covered s (with_boolean g.members) m = false := by
    intro m hm
    rw [← hkept, List.mem_filter] at hm
    exact ⟨hm.1, by simpa using hm.2⟩
  have hnodup : kept.Nodup := by
    rw [← hkept]
    exact hb.nodup.filter _
  -- the members in order, when they make a union
  have hunion : kept ≠ [] → (g.nilable = false → 2 ≤ kept.length) →
      NormalUnion s (kept.insertionSort (by_digest s)) g.nilable ∧
        ∀ m ∈ kept.insertionSort (by_digest s), s.alive m = true := by
    intro hne htwo
    have hperm := perm_insertionSort (by_digest s) kept
    have hin : ∀ m ∈ kept.insertionSort (by_digest s), m ∈ kept := fun m hm =>
      hperm.mem_iff.mp hm
    refine ⟨?_, fun m hm => hb.alive m (hmem m (hin m hm)).1⟩
    constructor
    · exact hperm.nodup_iff.mpr hnodup
    · intro h
      rw [h] at hperm
      exact hne hperm.nil_eq.symm
    · intro hn
      rw [hperm.length_eq]
      exact htwo hn
    · exact fun m hm => hb.single m (hmem m (hin m hm)).1
    · exact fun h => hnot ⟨hin _ h.1, hin _ h.2⟩
    · intro m hm
      by_contra hcov
      have hcov' := covered_mono (fun a ha => (hmem a (hin a ha)).1) (by simpa using hcov)
      rw [(hmem m (hin m hm)).2] at hcov'
      cases hcov'
    · exact pairwise_insertionSort _ kept
  rcases kept with _ | ⟨m, _ | ⟨m', kept⟩⟩
  · exact ha.alive _
  · cases hn : g.nilable with
    | false => exact hb.alive m (hmem m mem_cons_self).1
    | true =>
      rw [hn] at hunion
      exact hunion (cons_ne_nil _ _) nofun
  · cases hn : g.nilable with
    | false =>
      rw [hn] at hunion
      exact hunion (cons_ne_nil _ _) fun _ => by simp
    | true =>
      rw [hn] at hunion
      exact hunion (cons_ne_nil _ _) nofun

end

/-! ## Alternatives -/

theorem isChain_lt {l : List (Bytes × Alt ℕ)} (hle : l.IsChain fun a b => a.1 ≤ b.1)
    (hne : l.IsChain fun a b => a.1 ≠ b.1) : l.IsChain fun a b => a.1 < b.1 := by
  induction l with
  | nil => exact .nil
  | cons a l ih =>
    cases l with
    | nil => exact .singleton a
    | cons b l =>
      rw [isChain_cons_cons] at hle hne ⊢
      exact ⟨Std.lt_of_le_of_ne hle.1 hne.1, ih hle.2 hne.2⟩

/-- The alternatives that are kept are among those given, in the strict order of their texts. -/
theorem order_alts_ordered (keyed : List (Bytes × Alt ℕ)) :
    ∃ kept : List (Bytes × Alt ℕ), order_alts keyed = kept.map Prod.snd ∧
      (∀ p ∈ kept, p ∈ keyed) ∧ kept.length ≤ keyed.length ∧
      (kept.map Prod.fst).Pairwise (· < ·) := by
  have hsorted : (keyed.insertionSort (fun a b => a.1 ≤ b.1)).Pairwise fun a b => a.1 ≤ b.1 := by
    exact pairwise_insertionSort _ keyed
  refine ⟨_, rfl, ?_, ?_, ?_⟩
  · intro p hp
    have hp' := (destutter_sublist _ _).mem hp
    exact (perm_insertionSort _ keyed).mem_iff.mp hp'
  · rw [← (perm_insertionSort (fun a b : Bytes × Alt ℕ => a.1 ≤ b.1) keyed).length_eq]
    exact (destutter_sublist _ _).length_le
  · have hle := hsorted.sublist (destutter_sublist (fun a b => a.1 ≠ b.1) _)
    have hne := isChain_destutter (fun a b : Bytes × Alt ℕ => a.1 ≠ b.1) (keyed.insertionSort (fun a b => a.1 ≤ b.1))
    rw [pairwise_map]
    let lt : Bytes × Alt ℕ → Bytes × Alt ℕ → Prop := fun a b => a.1 < b.1
    exact (isChain_lt hle.isChain hne).pairwise

end Cosmic.Types
