/-
The stores a program has: the new one, and what any order of operations makes of it.

Whatever an operation answers or raises, and whatever a loader does while one reads, the store it
leaves is sound.
-/
import Cosmic.Lang.TypesForget
import Cosmic.Lang.TypesLoad
import Cosmic.Lang.TypesUnion

set_option autoImplicit false

namespace Cosmic.Types

open Cosmic.Base List
open Cosmic.Base.Raise

/-- A store of a program: the new one, or one an operation leaves, answering or raising. -/
inductive Reached (o : Outside) (loader : Option Loader) : Store → Prop where
  | new : Reached o loader (new o)
  | answered {s s' : Store} {op : Op} {a : Answer} :
      Reached o loader s → step o loader op s = .ok a s' → Reached o loader s'
  | raised {s s' : Store} {op : Op} {why : Bytes} :
      Reached o loader s → step o loader op s = .raised why s' → Reached o loader s'

section

variable {o : Outside}

theorem new_cell {t : ℕ} {c : Cell} : (new o).cell t = some c ↔
    ∃ tag, t = atom_of tag ∧ c = { form := .atom tag, digest := o.hash tag.text } := by
  constructor
  · intro h
    have hlt : t < 11 := by
      have hle := at_id_le h
      simp only [new, length_map, ATOMS, length_cons, length_nil] at hle
      omega
    have hpos := at_id_pos h
    have htag : ∃ tag ∈ ATOMS, atom_of tag = t := by
      have hall : ∀ t < 11, 1 ≤ t → ∃ tag ∈ ATOMS, atom_of tag = t := by decide
      exact hall t hlt hpos
    obtain ⟨tag, -, rfl⟩ := htag
    refine ⟨tag, rfl, ?_⟩
    cases tag <;> exact (Option.some.inj h).symm
  · rintro ⟨tag, rfl, rfl⟩
    cases tag <;> rfl

theorem new_interned {k : Bytes} {t : ℕ} : (new o).interned k = some t ↔
    ∃ tag : Atom, t = atom_of tag ∧ tag.text = k := by
  show (ATOMS.find? (fun tag => tag.text = k)).map atom_of = some t ↔ _
  rw [Option.map_eq_some_iff]
  constructor
  · rintro ⟨tag, hfind, rfl⟩
    exact ⟨tag, rfl, by simpa using find?_some hfind⟩
  · rintro ⟨tag, rfl, rfl⟩
    refine ⟨tag, ?_, rfl⟩
    cases tag <;> decide

theorem sound_new (o : Outside) : Sound o (new o) := by
  have hdecl : ∀ {d decl}, (new o).decl d ≠ some decl := by
    intro d decl h
    have hle := at_id_le h
    have hpos := at_id_pos h
    exact absurd (show d ≤ 0 from hle) (by omega)
  refine ⟨⟨rfl, ?_, ⟨?_, ?_⟩, ?_, ?_, ?_, ?_, ?_, ?_⟩, ?_, ⟨?_, fun _ => rfl⟩⟩
  · exact fun tag => ⟨_, new_cell.mpr ⟨tag, rfl, rfl⟩, rfl, rfl⟩
  · intro t c hc _ p hp
    obtain ⟨tag, -, rfl⟩ := new_cell.mp hc
    cases hp
  · intro t c hc _ d hd
    obtain ⟨tag, -, rfl⟩ := new_cell.mp hc
    cases hd
  · intro t c hc p hp
    obtain ⟨tag, -, rfl⟩ := new_cell.mp hc
    cases hp
  · intro t c hc d hd
    obtain ⟨tag, -, rfl⟩ := new_cell.mp hc
    cases hd
  · intro t c hc _
    obtain ⟨tag, -, rfl⟩ := new_cell.mp hc
    exact .inl ⟨tag, rfl⟩
  · intro k t
    rw [new_interned]
    constructor
    · rintro ⟨tag, rfl, rfl⟩
      exact ⟨_, new_cell.mpr ⟨tag, rfl, rfl⟩, rfl, rfl⟩
    · rintro ⟨c, hc, -, rfl⟩
      obtain ⟨tag, rfl, rfl⟩ := new_cell.mp hc
      exact ⟨tag, rfl, rfl⟩
  · intro t c hc _
    obtain ⟨tag, -, rfl⟩ := new_cell.mp hc
    rfl
  · intro t c hc _
    obtain ⟨tag, -, rfl⟩ := new_cell.mp hc
    show 1 ≤ MAX_DEPTH
    decide
  · constructor
    · exact fun h => absurd h hdecl
    · intro k d
      constructor
      · exact fun h => absurd (show none = some d from h) (by simp)
      · rintro ⟨decl, hd, -⟩
        exact absurd hd hdecl
    · intro d
      constructor
      · exact nofun
      · intro h
        obtain ⟨decl, hd, -⟩ := decl_alive_iff.mp h
        exact absurd hd hdecl
    · exact fun h => absurd h hdecl
    · exact fun _ _ _ h => absurd h hdecl
    · exact fun _ _ _ h => absurd h hdecl
    · exact fun k h => absurd (show none = some [] from h) (by simp)
  · intro d arity h
    cases h

theorem ends_step (loader : Option Loader) (op : Op) {s : Store} (hs : Sound o s) :
    Ends (step o loader op) s (fun _ s' => Sound o s') fun _ s' => Sound o s' := by
  by_cases hop : op.keeps = true
  · apply Ends.mono (stepping_exec (readers_spec o loader MAX_DEPTH) hs (.inl hop))
    · exact fun _ _ h => Steps.sound h.1 hs
    · exact fun _ _ h => Steps.sound h hs
  cases op with
  | forget decls =>
    unfold step exec
    rw [ends_bind]
    apply Ends.mono (ends_forget hs decls)
    · exact fun _ _ h => h
    · rintro _ s' rfl
      exact hs
  | _ => exact absurd rfl hop

theorem Reached.sound {loader : Option Loader} {s : Store} (h : Reached o loader s) : Sound o s := by
  induction h with
  | new => exact sound_new o
  | @answered s s' op a _ hrun ih =>
    have hends := ends_step loader op ih
    unfold Ends at hends
    rwa [hrun] at hends
  | @raised s s' op why _ hrun ih =>
    have hends := ends_step loader op ih
    unfold Ends at hends
    rwa [hrun] at hends

end

/-!
The union of a list of types is settled by what the list admits.

Two live types that have the same foremost types are one type, so a union is the same type
whatever the order, the repetitions and the groups of the list it is asked for.
-/

/-! ## What a normal union keeps -/

/-- The types that what was gathered is the union of. -/
def Normal.flat (s : Store) : Normal → List ℕ
  | .type t => s.flat t
  | .union members nilable => with_nil members nilable

theorem mem_with_boolean {members : List ℕ} {m : ℕ} : m ∈ with_boolean members ↔
    m ∈ members ∨ (m = atom_of .boolean ∧ atom_of .true ∈ members ∧ atom_of .false ∈ members) := by
  unfold with_boolean
  split
  · next h =>
    rw [mem_append, mem_singleton]
    exact or_congr_right ⟨fun hm => ⟨hm, h.1, h.2.1⟩, fun hm => hm.1⟩
  · next h =>
    refine ⟨.inl, fun hm => hm.elim id ?_⟩
    rintro ⟨rfl, ht, hf⟩
    by_contra hb
    exact h ⟨ht, hf, hb⟩

section

variable {o : Outside} {s : Store} (hs : Sound o s) {L : List ℕ} {g : Gathered}
  (hL : ∀ x ∈ L, Leaf s x) (hg : GatheredOf s L g)

include hs hL hg

theorem kept_foremost (hi : atom_of .invalid ∉ L) (hany : atom_of .any ∉ L) (x : ℕ) :
    (x ∈ (with_boolean g.members).filter (fun m => !covered s (with_boolean g.members) m) ∨
      (x = atom_of .nil ∧ g.nilable = true)) ↔ Foremost s {y | y ∈ L} x := by
  have ha := hs.types.atoms
  have hatom : ∀ {tag : Atom}, (Form.atom tag : Form ℕ).single = true →
      (atom_of tag ∈ g.members ↔ atom_of tag ∈ L) := by
    intro tag htag
    rw [hg.members]
    exact ⟨fun h => h.1, fun h => ⟨h, _, ha.form tag, htag⟩⟩
  have hadmitted : ∀ {m}, m ∈ with_boolean g.members → Admitted s {y | y ∈ L} m := by
    intro m hm
    rcases mem_with_boolean.mp hm with hm | ⟨hm, ht, hf⟩
    · exact .member ((hg.members m).mp hm).1
    · exact .both ((hatom rfl).mp ht) ((hatom rfl).mp hf) hm
  constructor
  · rintro (hx | ⟨rfl, hn⟩)
    · obtain ⟨hmem, hcov⟩ := List.mem_filter.mp hx
      have hcov : covered s (with_boolean g.members) x ≠ true := by simpa using hcov
      rw [ne_eq, covered_iff] at hcov
      have hne : x ≠ atom_of .never := by
        rcases mem_with_boolean.mp hmem with hm | ⟨rfl, -⟩
        · exact (single_ne hs ((hg.members x).mp hm).2).2.1
        · exact atom_of_ne (by decide)
      refine ⟨hadmitted hmem, hne, fun y hy hc => hcov ?_⟩
      -- what covers `x` is a member, since it is within the list
      cases hc with
      | invalid h _ => exact absurd ((admitted_invalid ha).mp (h ▸ hy)) hi
      | any h _ _ => exact absurd ((admitted_any ha).mp (h ▸ hy)) (not_or.mpr ⟨hany, hi⟩)
      | integer h hx =>
        subst h
        rcases (admitted_atom ha (by decide)).mp hy with h | h | ⟨h, -⟩ | ⟨-, h⟩ | ⟨-, h⟩ | ⟨-, -, h⟩
        · exact .inl ⟨mem_with_boolean.mpr (.inl ((hatom rfl).mpr h)), hx⟩
        · exact absurd h hi
        · exact absurd h hany
        all_goals exact absurd h (by decide)
      | boolean h hx =>
        subst h
        refine .inr (.inl ⟨mem_with_boolean.mpr ?_, hx⟩)
        rcases (admitted_atom ha (by decide)).mp hy with h | h | ⟨h, -⟩ | ⟨-, h⟩ | ⟨-, h⟩ | ⟨h, h', -⟩
        · exact .inl ((hatom rfl).mpr h)
        · exact absurd h hi
        · exact absurd h hany
        · exact absurd h (by decide)
        · exact absurd h (by decide)
        · exact .inr ⟨rfl, (hatom rfl).mpr h, (hatom rfl).mpr h'⟩
      | enum h hx =>
        subst h
        rcases (admitted_atom ha (by decide)).mp hy with h | h | ⟨h, -⟩ | ⟨-, h⟩ | ⟨-, h⟩ | ⟨-, -, h⟩
        · exact .inr (.inr ⟨mem_with_boolean.mpr (.inl ((hatom rfl).mpr h)), hx⟩)
        · exact absurd h hi
        · exact absurd h hany
        all_goals exact absurd h (by decide)
    · have hmem := hg.nilable.mp hn
      exact foremost_atom ha hi hany (by decide) (by decide) (.member hmem)
  · intro hx
    have hmem : x ∈ with_boolean g.members ∨ (x = atom_of .nil ∧ g.nilable = true) := by
      rcases hx.mem with hx' | ⟨rfl, ht, hf⟩
      · rcases (hL x hx').cases hs with hsingle | rfl | rfl | rfl | rfl
        · exact .inl (mem_with_boolean.mpr (.inl ((hg.members x).mpr ⟨hx', hsingle⟩)))
        · exact .inr ⟨rfl, hg.nilable.mpr hx'⟩
        · exact absurd rfl hx.not_never
        · exact absurd hx' hany
        · exact absurd hx' hi
      · exact .inl (mem_with_boolean.mpr (.inr ⟨rfl, (hatom rfl).mpr ht, (hatom rfl).mpr hf⟩))
    refine hmem.imp (fun hm => List.mem_filter.mpr ⟨hm, ?_⟩) id
    have hnot : ¬covered s (with_boolean g.members) x = true := by
      rw [covered_iff]
      rintro (⟨h, hx'⟩ | ⟨h, hx'⟩ | ⟨h, hx'⟩)
      · exact hx.first _ (hadmitted h) (.integer rfl hx')
      · exact hx.first _ (hadmitted h) (.boolean rfl hx')
      · exact hx.first _ (hadmitted h) (.enum rfl hx')
    simpa using hnot

/-- The union of what was gathered is of the foremost types of the list. -/
theorem normal_union_foremost (x : ℕ) :
    (x ∈ (normal_union s g).flat s ∧ x ≠ atom_of .never) ↔ Foremost s {y | y ∈ L} x := by
  have ha := hs.types.atoms
  have hone : ∀ {tag : Atom}, x ∈ (Normal.type (atom_of tag)).flat s ↔ x = atom_of tag := by
    intro tag
    rw [Normal.flat, (hs.leaf_atom tag).flat, mem_singleton]
  unfold normal_union
  by_cases hi : g.invalid = true
  · rw [if_pos hi, hone]
    have hmem := hg.invalid.mp hi
    constructor
    · rintro ⟨rfl, -⟩
      exact foremost_invalid ha hmem
    · intro hx
      refine ⟨?_, hx.not_never⟩
      by_contra hne
      exact hx.first _ (.member hmem) (.invalid rfl hne)
  rw [if_neg hi]
  have hi' : atom_of .invalid ∉ L := fun h => hi (hg.invalid.mpr h)
  by_cases hany : g.any = true
  · rw [if_pos hany, hone]
    have hmem := hg.any.mp hany
    constructor
    · rintro ⟨rfl, -⟩
      exact foremost_any ha hi' hmem
    intro hx
    refine ⟨?_, hx.not_never⟩
    by_contra hne
    apply hx.first _ (.member hmem) (.any rfl hne _)
    rintro rfl
    exact hi' ((admitted_invalid ha).mp hx.admitted)
  rw [if_neg hany]
  have hany' : atom_of .any ∉ L := fun h => hany (hg.any.mpr h)
  have hkept := kept_foremost hs hL hg hi' hany'
  have hmembers : (if atom_of .true ∈ g.members ∧ atom_of .false ∈ g.members ∧
      atom_of .boolean ∉ g.members then g.members ++ [atom_of .boolean] else g.members) =
        with_boolean g.members := rfl
  have hnever : ∀ {x}, Foremost s {y | y ∈ L} x → x ≠ atom_of .never := fun h => h.not_never
  dsimp only
  rw [hmembers]
  generalize (with_boolean g.members).filter (fun m => !covered s (with_boolean g.members) m) = kept at hkept
  -- a union of what is kept, in whatever order
  have hunion : (x ∈ with_nil (kept.insertionSort (by_digest s)) g.nilable ∧ x ≠ atom_of .never) ↔
      Foremost s {y | y ∈ L} x := by
    rw [mem_with_nil, (perm_insertionSort (by_digest s) kept).mem_iff, hkept]
    exact ⟨fun h => h.1, fun h => ⟨h, hnever h⟩⟩
  rcases kept with _ | ⟨m, _ | ⟨m', kept⟩⟩
  · rw [hone, ← hkept]
    cases hn : g.nilable with
    | false => simp
    | true =>
      simp only [if_true, not_mem_nil, false_or, and_true, and_iff_left_iff_imp]
      rintro rfl
      exact atom_of_ne (by decide)
  · cases hn : g.nilable with
    | false =>
      have hm : Leaf s m := by
        have hf := (hkept m).mp (.inl mem_cons_self)
        rcases hf.mem with hmem | ⟨rfl, -⟩
        · exact hL m hmem
        · exact hs.leaf_atom .boolean
      show (x ∈ s.flat m ∧ _) ↔ _
      rw [hm.flat, ← hkept, hn]
      have hne := (hnever ((hkept m).mp (.inl mem_cons_self)))
      simp only [mem_singleton, Bool.false_eq_true, and_false, or_false, and_iff_left_iff_imp]
      rintro rfl
      exact hne
    | true =>
      rwa [hn] at hunion
  · exact hunion

end

/-! ## One normal form -/

/-- The normal form that the type `t` is of. -/
def Normal.of (s : Store) (t : ℕ) : Normal :=
  match s.form t with
  | some (.union members nilable) => .union members nilable
  | _ => .type t

def Normal.Kept (s : Store) : Normal → Prop
  | .type t => Leaf s t
  | .union members nilable => NormalUnion s members nilable

theorem Normal.of_flat (s : Store) (t : ℕ) : (Normal.of s t).flat s = s.flat t := by
  unfold Normal.of
  split
  · next members nilable hform => exact (flat_union hform).symm
  · rfl

section

variable {o : Outside} {s : Store} (hs : Sound o s)

include hs

theorem normal_of_kept {t : ℕ} (ht : s.alive t = true) : (Normal.of s t).Kept s := by
  unfold Normal.of
  split
  · next members nilable hform => exact (hs.normal_union ht hform).1
  · next hne => exact ⟨ht, hne⟩

/-- What is gathered makes a normal form that the store keeps. -/
theorem normal_union_kept {g : Gathered} (hg : Gathers s g) : (normal_union s g).Kept s := by
  have hfits := normal_union_fits hs.types.atoms hg
  cases hn : normal_union s g with
  | union members nilable =>
    rw [hn] at hfits
    exact hfits.1
  | type t =>
    -- an atom, or the one member that is kept
    have hb := hg.with_boolean hs.types.atoms
    have hmember : ∀ {m : ℕ}, m ∈ with_boolean g.members → Leaf s m := fun hm =>
      ⟨hb.alive _ hm, (hb.single _ hm).no_union⟩
    unfold normal_union at hn
    split at hn
    · cases hn
      exact hs.leaf_atom .invalid
    split at hn
    · cases hn
      exact hs.leaf_atom .any
    dsimp only at hn
    split at hn
    · cases hn
      exact hs.leaf_atom _
    · next m hkept _ =>
      cases hn
      have hm : t ∈ [t] := mem_singleton.mpr rfl
      rw [← hkept] at hm
      exact hmember (List.mem_filter.mp hm).1
    · cases hn

theorem NormalUnion.pair {members : List ℕ} {nilable : Bool} (h : NormalUnion s members nilable) :
    ∃ a b, a ≠ b ∧ (a ∈ with_nil members nilable ∧ a ≠ atom_of .never) ∧
      (b ∈ with_nil members nilable ∧ b ≠ atom_of .never) := by
  have hmem : ∀ {m}, m ∈ members → m ∈ with_nil members nilable ∧ m ≠ atom_of .never := fun hm =>
    ⟨mem_with_nil.mpr (.inl hm), (single_ne hs (h.single _ hm)).2.1⟩
  cases members with
  | nil => exact absurd rfl h.some_member
  | cons a rest =>
    cases nilable with
    | true =>
      refine ⟨a, atom_of .nil, (single_ne hs (h.single a mem_cons_self)).1,
        hmem mem_cons_self, mem_with_nil.mpr (.inr ⟨rfl, rfl⟩), atom_of_ne (by decide)⟩
    | false =>
      cases rest with
      | nil => exact absurd (h.two rfl) (by simp)
      | cons b rest =>
        refine ⟨a, b, ?_, hmem mem_cons_self, hmem (mem_cons_of_mem a mem_cons_self)⟩
        rintro rfl
        exact (nodup_cons.mp h.nodup).1 mem_cons_self

/-- Normal forms of the same types are one, where the digests of the types tell them apart. -/
theorem Normal.eq_of_flat {n n' : Normal} (hn : n.Kept s) (hn' : n'.Kept s)
    (hd : ∀ m ∈ n.flat s, ∀ m' ∈ n.flat s, s.digest_text m = s.digest_text m' → m = m')
    (h : ∀ x, (x ∈ n.flat s ∧ x ≠ atom_of .never) ↔ (x ∈ n'.flat s ∧ x ≠ atom_of .never)) :
    n = n' := by
  -- no union is of the types that a type of its own is
  have hdiffer : ∀ {t : ℕ} {members : List ℕ} {nilable : Bool}, Leaf s t → NormalUnion s members nilable →
      ¬∀ x, (x ∈ with_nil members nilable ∧ x ≠ atom_of .never) → x ∈ s.flat t := by
    intro t members nilable ht hu hall
    obtain ⟨a, b, hab, ha, hb⟩ := NormalUnion.pair hs hu
    have ha' := hall a ha
    have hb' := hall b hb
    rw [ht.flat, mem_singleton] at ha' hb'
    exact hab (ha'.trans hb'.symm)
  cases n with
  | type t =>
    cases n' with
    | type t' =>
      have hx : ∀ x, (x = t ∧ x ≠ atom_of .never) ↔ (x = t' ∧ x ≠ atom_of .never) := by
        intro x
        have hx := h x
        simp only [Normal.flat] at hx
        rwa [Leaf.flat hn, Leaf.flat hn', mem_singleton, mem_singleton] at hx
      by_cases ht : t = atom_of .never
      · by_cases ht' : t' = atom_of .never
        · rw [ht, ht']
        · exact congrArg Normal.type ((hx t').mpr ⟨rfl, ht'⟩).1.symm
      · exact congrArg Normal.type ((hx t).mp ⟨rfl, ht⟩).1
    | union members nilable => exact absurd (fun x hx => ((h x).mpr hx).1) (hdiffer hn hn')
  | union members nilable =>
    cases n' with
    | type t' => exact absurd (fun x hx => ((h x).mp hx).1) (hdiffer hn' hn)
    | union members' nilable' =>
      have hu : NormalUnion s members nilable := hn
      have hu' : NormalUnion s members' nilable' := hn'
      have hnever : ∀ {x : ℕ}, ¬x ≠ atom_of .never → x ∉ members ∧ x ∉ members' ∧ x ≠ atom_of .nil := by
        intro x hx
        rw [not_not] at hx
        exact ⟨fun hm => (single_ne hs (hu.single x hm)).2.1 hx,
          fun hm => (single_ne hs (hu'.single x hm)).2.1 hx, hx ▸ atom_of_ne (by decide)⟩
      have hx : ∀ x, (x ∈ members ∨ (x = atom_of .nil ∧ nilable = true)) ↔
          (x ∈ members' ∨ (x = atom_of .nil ∧ nilable' = true)) := by
        intro x
        by_cases hne : x ≠ atom_of .never
        · have hx := h x
          simp only [Normal.flat] at hx
          rwa [mem_with_nil, mem_with_nil, and_iff_left hne, and_iff_left hne] at hx
        · obtain ⟨h₁, h₂, h₃⟩ := hnever hne
          simp [h₁, h₂, h₃]
      have hnil : atom_of .nil ∉ members ∧ atom_of .nil ∉ members' :=
        ⟨fun hm => (single_ne hs (hu.single _ hm)).1 rfl,
          fun hm => (single_ne hs (hu'.single _ hm)).1 rfl⟩
      have hnilable : nilable = nilable' := by
        have hx := hx (atom_of .nil)
        simp only [hnil.1, hnil.2, false_or, true_and] at hx
        exact Bool.eq_iff_iff.mpr hx
      have hmem : ∀ x, x ∈ members ↔ x ∈ members' := by
        intro x
        by_cases hxn : x = atom_of .nil
        · rw [hxn]
          exact iff_of_false hnil.1 hnil.2
        · have hx := hx x
          simp only [hxn, false_and, or_false] at hx
          exact hx
      have hperm : members.Perm members' := (perm_ext_iff_of_nodup hu.nodup hu'.nodup).mpr hmem
      have hall : ∀ {m}, m ∈ members → m ∈ (Normal.union members nilable).flat s := fun hm =>
        mem_with_nil.mpr (.inl hm)
      have hsorted : members = members' := by
        apply hperm.eq_of_pairwise _ hu.sorted hu'.sorted
        intro a b ha hb hab hba
        exact hd a (hall ha) b (hall ((hmem b).mpr hb)) (Std.le_antisymm hab hba)
      rw [hsorted, hnilable]

theorem foremost_self {L : List ℕ} (hnot : ∀ x ∈ L, ∀ y ∈ L, ¬Covers s y x)
    (hboth : ¬(atom_of .true ∈ L ∧ atom_of .false ∈ L)) (x : ℕ) :
    (x ∈ L ∧ x ≠ atom_of .never) ↔ Foremost s {y | y ∈ L} x := by
  have ha := hs.types.atoms
  constructor
  · rintro ⟨hx, hnever⟩
    refine ⟨.member hx, hnever, fun y hy hc => ?_⟩
    have hnone : ∀ {y}, y ∈ L → ¬Covers s y x := fun hy => hnot x hx _ hy
    -- `invalid` and `any` cover all but what is never covered
    have htop : x ≠ atom_of .invalid → x ≠ atom_of .any → ¬(atom_of .invalid ∈ L ∨ atom_of .any ∈ L) := by
      rintro hi hany (h | h)
      · exact hnone h (.invalid rfl hi)
      · exact hnone h (.any rfl hany hi)
    cases hc with
    | invalid h hi => exact hnone ((admitted_invalid ha).mp (h ▸ hy)) (.invalid rfl hi)
    | any h hany hi =>
      exact htop hi hany ((admitted_any ha).mp (h ▸ hy)).symm
    | integer h hi =>
      have hy := (admitted_atom ha (by decide)).mp (h ▸ hy)
      simp only [reduceCtorEq, and_false, or_false, ne_eq, not_false_eq_true, and_true] at hy
      rcases hy with hy | hy
      · exact hnone hy (.integer rfl hi)
      · exact htop (hi ▸ atom_of_ne (by decide)) (hi ▸ atom_of_ne (by decide)) hy
    | boolean h hb =>
      have hy := (admitted_atom ha (by decide)).mp (h ▸ hy)
      simp only [reduceCtorEq, and_false, false_or, ne_eq, not_false_eq_true, and_true, or_self] at hy
      rcases hy with hy | hy | hy | ⟨ht, hf⟩
      · exact hnone hy (.boolean rfl hb)
      · exact hnone hy (.invalid rfl (hb.elim (· ▸ atom_of_ne (by decide)) (· ▸ atom_of_ne (by decide))))
      · exact hnone hy (.any rfl (hb.elim (· ▸ atom_of_ne (by decide)) (· ▸ atom_of_ne (by decide)))
          (hb.elim (· ▸ atom_of_ne (by decide)) (· ▸ atom_of_ne (by decide))))
      · exact hboth ⟨ht, hf⟩
    | enum h he =>
      have hy := (admitted_atom ha (by decide)).mp (h ▸ hy)
      simp only [reduceCtorEq, and_false, or_false, ne_eq, not_false_eq_true, and_true] at hy
      have hne : ∀ tag, x ≠ atom_of tag := fun tag heq => not_isEnum_atom ha tag (heq ▸ he)
      rcases hy with hy | hy
      · exact hnone hy (.enum rfl he)
      · exact htop (hne _) (hne _) hy
  · intro hx
    refine ⟨?_, hx.not_never⟩
    rcases hx.mem with h | ⟨-, ht, hf⟩
    · exact h
    · exact absurd ⟨ht, hf⟩ hboth

/-- The foremost of the types that a live type is the union of are those types. -/
theorem flat_foremost {t : ℕ} (ht : s.alive t = true) (x : ℕ) :
    (x ∈ s.flat t ∧ x ≠ atom_of .never) ↔ Foremost s {y | y ∈ s.flat t} x := by
  have ha := hs.types.atoms
  by_cases hu : ∃ members nilable, s.form t = some (.union members nilable)
  · obtain ⟨members, nilable, hform⟩ := hu
    obtain ⟨hn, -⟩ := hs.normal_union ht hform
    rw [flat_union hform]
    have hmember : ∀ {tag : Atom}, tag ≠ .nil → atom_of tag ∈ with_nil members nilable → atom_of tag ∈ members := by
      intro tag htag h
      rcases mem_with_nil.mp h with h | ⟨h, -⟩
      · exact h
      · exact absurd (atom_of_inj h) htag
    have hcovered : ∀ {x}, x ∈ members → ¬covered s members x = true := fun hx => by
      simp [hn.uncovered _ hx]
    apply foremost_self hs
    · intro x hx y hy hc
      cases hc with
      | invalid h _ =>
        have hm := hmember (by decide) (h ▸ hy)
        exact (single_ne hs (hn.single _ hm)).2.2.2 rfl
      | any h _ _ =>
        have hm := hmember (by decide) (h ▸ hy)
        exact (single_ne hs (hn.single _ hm)).2.2.1 rfl
      | integer h hi =>
        subst h hi
        exact hcovered (hmember (by decide) hx) (covered_iff.mpr (.inl ⟨hmember (by decide) hy, rfl⟩))
      | boolean h hb =>
        subst h
        have hx' : x ∈ members := by
          rcases hb with rfl | rfl
          · exact hmember (by decide) hx
          · exact hmember (by decide) hx
        exact hcovered hx' (covered_iff.mpr (.inr (.inl ⟨hmember (by decide) hy, hb⟩)))
      | enum h he =>
        subst h
        have hx' : x ∈ members := by
          rcases mem_with_nil.mp hx with hx | ⟨rfl, -⟩
          · exact hx
          · exact absurd he (not_isEnum_atom ha .nil)
        exact hcovered hx' (covered_iff.mpr (.inr (.inr ⟨hmember (by decide) hy, he⟩)))
    · exact fun h => hn.not_both ⟨hmember (by decide) h.1, hmember (by decide) h.2⟩
  · have hleaf : Leaf s t := ⟨ht, fun members nilable h => hu ⟨members, nilable, h⟩⟩
    rw [hleaf.flat]
    apply foremost_self hs
    · intro x hx y hy hc
      rw [mem_singleton.mp hx, mem_singleton.mp hy] at hc
      cases hc with
      | invalid h hi => exact hi h
      | any h hany _ => exact hany h
      | integer h hi => exact atom_of_ne (by decide) (h.symm.trans hi)
      | boolean h hb =>
        rcases hb with hb | hb
        · exact atom_of_ne (by decide) (h.symm.trans hb)
        · exact atom_of_ne (by decide) (h.symm.trans hb)
      | enum h he => exact not_isEnum_atom ha .string (h ▸ he)
    · rintro ⟨h, h'⟩
      rw [mem_singleton] at h h'
      exact atom_of_ne (by decide) (h.trans h'.symm)

end

end Cosmic.Types
