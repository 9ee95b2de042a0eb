/-
What a union admits, and the one normal form of it.

A list of types, none of them a union, admits the types within it: a closed set of types. What a
union keeps are the foremost of them, those within no other, so what it keeps is settled by what
the list admits, whatever else of the set is in the list.
-/
import Cosmic.Lang.TypesMake
import Mathlib.Order.Closure
import Mathlib.Order.CompletePartialOrder

set_option autoImplicit false

namespace Cosmic.Types

open Cosmic.Base List

/-! ## What is within a union -/

def IsEnum (s : Store) (t : ℕ) : Prop :=
  ∃ d args value, s.form t = some (.named d args value) ∧ (s.decl d).any (·.kind == .enum) = true

/-- The type `x` is within the union of the types `X`, none of which is a union. -/
inductive Admitted (s : Store) (X : Set ℕ) (x : ℕ) : Prop where
  | never (hx : x = atom_of .never)
  | member (h : x ∈ X)
  | invalid (h : atom_of .invalid ∈ X)
  | any (h : atom_of .any ∈ X) (hx : x ≠ atom_of .invalid)
  | integer (h : atom_of .number ∈ X) (hx : x = atom_of .integer)
  | boolean (h : atom_of .boolean ∈ X) (hx : x = atom_of .true ∨ x = atom_of .false)
  | both (h : atom_of .true ∈ X) (h' : atom_of .false ∈ X) (hx : x = atom_of .boolean)
  | enum (h : atom_of .string ∈ X) (hx : IsEnum s x)

/-- The type `x` is dropped from a union that has `y`. -/
inductive Covers (s : Store) (y x : ℕ) : Prop where
  | invalid (h : y = atom_of .invalid) (hx : x ≠ atom_of .invalid)
  | any (h : y = atom_of .any) (hx : x ≠ atom_of .any) (hx' : x ≠ atom_of .invalid)
  | integer (h : y = atom_of .number) (hx : x = atom_of .integer)
  | boolean (h : y = atom_of .boolean) (hx : x = atom_of .true ∨ x = atom_of .false)
  | enum (h : y = atom_of .string) (hx : IsEnum s x)

/-- The type `x` is within the union of `X`, and nothing else there covers it. -/
structure Foremost (s : Store) (X : Set ℕ) (x : ℕ) : Prop where
  admitted : Admitted s X x
  not_never : x ≠ atom_of .never
  first : ∀ y, Admitted s X y → ¬Covers s y x

section

variable {s : Store} {X Y : Set ℕ} {x y : ℕ}

theorem Admitted.mono (hXY : X ⊆ Y) (h : Admitted s X x) : Admitted s Y x := by
  cases h with
  | never hx => exact .never hx
  | member h => exact .member (hXY h)
  | invalid h => exact .invalid (hXY h)
  | any h hx => exact .any (hXY h) hx
  | integer h hx => exact .integer (hXY h) hx
  | boolean h hx => exact .boolean (hXY h) hx
  | both h h' hx => exact .both (hXY h) (hXY h') hx
  | enum h hx => exact .enum (hXY h) hx

variable {tag : Atom}

theorem atom_of_ne {tag' : Atom} (h : tag ≠ tag') : atom_of tag ≠ atom_of tag' :=
  fun heq => h (atom_of_inj heq)

variable (ha : HasAtoms s)

include ha

theorem not_isEnum_atom (tag : Atom) : ¬IsEnum s (atom_of tag) := by
  rintro ⟨d, args, value, hform, -⟩
  rw [ha.form tag] at hform
  cases hform

theorem admitted_atom (hnever : tag ≠ .never) : Admitted s X (atom_of tag) ↔ atom_of tag ∈ X ∨ atom_of .invalid ∈ X ∨
      (atom_of .any ∈ X ∧ tag ≠ .invalid) ∨ (atom_of .number ∈ X ∧ tag = .integer) ∨
      (atom_of .boolean ∈ X ∧ (tag = .true ∨ tag = .false)) ∨
      (atom_of .true ∈ X ∧ atom_of .false ∈ X ∧ tag = .boolean) := by
  constructor
  · intro h
    cases h with
    | never hx => exact absurd (atom_of_inj hx) hnever
    | member h => exact .inl h
    | invalid h => exact .inr (.inl h)
    | any h hx => exact .inr (.inr (.inl ⟨h, fun heq => hx (congrArg atom_of heq)⟩))
    | integer h hx => exact .inr (.inr (.inr (.inl ⟨h, atom_of_inj hx⟩)))
    | boolean h hx =>
      exact .inr (.inr (.inr (.inr (.inl ⟨h, hx.imp (fun h => atom_of_inj h) fun h => atom_of_inj h⟩))))
    | both h h' hx => exact .inr (.inr (.inr (.inr (.inr ⟨h, h', atom_of_inj hx⟩))))
    | enum h hx => exact absurd hx (not_isEnum_atom ha tag)
  · rintro (h | h | ⟨h, hx⟩ | ⟨h, rfl⟩ | ⟨h, hx⟩ | ⟨h, h', rfl⟩)
    · exact .member h
    · exact .invalid h
    · exact .any h (atom_of_ne hx)
    · exact .integer h rfl
    · exact .boolean h (hx.imp (congrArg atom_of) (congrArg atom_of))
    · exact .both h h' rfl

theorem admitted_invalid : Admitted s X (atom_of .invalid) ↔ atom_of .invalid ∈ X := by
  rw [admitted_atom ha (by decide)]
  simp

theorem admitted_any : Admitted s X (atom_of .any) ↔ atom_of .any ∈ X ∨ atom_of .invalid ∈ X := by
  rw [admitted_atom ha (by decide)]
  simp only [ne_eq, reduceCtorEq, not_false_eq_true, and_true, or_false, and_false, or_self]
  tauto

theorem Admitted.trans (h : Admitted s {y | Admitted s X y} x) : Admitted s X x := by
  -- a rule's premise on atoms is itself within `X` by few rules
  have hup : ∀ {tag : Atom}, tag = .number ∨ tag = .string →
      Admitted s X (atom_of tag) → atom_of tag ∈ X ∨ atom_of .invalid ∈ X ∨ atom_of .any ∈ X := by
    rintro tag (rfl | rfl) h
    all_goals
      rw [admitted_atom ha (by decide)] at h
      simp only [reduceCtorEq, and_false, or_false, ne_eq, not_false_eq_true, and_true] at h
      exact h
  -- `any` or `invalid` has all but `invalid` within it
  have htop : x ≠ atom_of .invalid → atom_of .invalid ∈ X ∨ atom_of .any ∈ X → Admitted s X x :=
    fun hx h => h.elim .invalid fun h => .any h hx
  cases h with
  | never hx => exact .never hx
  | member h => exact h
  | invalid h => exact .invalid ((admitted_invalid ha).mp h)
  | any h hx => exact htop hx (((admitted_any ha).mp h).symm)
  | integer h hx =>
    rcases hup (.inl rfl) h with h | h
    · exact .integer h hx
    · exact htop (hx ▸ atom_of_ne (by decide)) h
  | boolean h hx =>
    have hne : x ≠ atom_of .invalid := by
      rcases hx with rfl | rfl
      · exact atom_of_ne (by decide)
      · exact atom_of_ne (by decide)
    rcases (admitted_atom ha (by decide)).mp h with h | h | ⟨h, -⟩ | ⟨-, h⟩ | ⟨-, h⟩ | ⟨h, h', -⟩
    · exact .boolean h hx
    · exact .invalid h
    · exact .any h hne
    · exact absurd h (by decide)
    · exact absurd h (by decide)
    · rcases hx with rfl | rfl
      · exact .member h
      · exact .member h'
  | both h h' hx =>
    have hne : x ≠ atom_of .invalid := hx ▸ atom_of_ne (by decide)
    have hone : ∀ {tag : Atom}, tag = .true ∨ tag = .false → Admitted s X (atom_of tag) →
        atom_of tag ∈ X ∨ Admitted s X x := by
      rintro tag htag h
      have hnever : tag ≠ .never := by
        rintro rfl
        exact absurd htag (by decide)
      rcases (admitted_atom ha hnever).mp h with h | h | ⟨h, -⟩ | ⟨-, h⟩ | ⟨h, -⟩ | ⟨-, -, h⟩
      · exact .inl h
      · exact .inr (.invalid h)
      · exact .inr (.any h hne)
      · rw [h] at htag
        exact absurd htag (by decide)
      · exact .inr (hx ▸ .member h)
      · rw [h] at htag
        exact absurd htag (by decide)
    rcases hone (.inl rfl) h with h | h
    · rcases hone (.inr rfl) h' with h' | h'
      · exact .both h h' hx
      · exact h'
    · exact h
  | enum h hx =>
    rcases hup (.inr rfl) h with h | h
    · exact .enum h hx
    · exact htop (fun heq => not_isEnum_atom ha .invalid (heq ▸ hx)) h

omit ha in
/-- What a list of types admits: the types within their union. -/
def admits (ha : HasAtoms s) : ClosureOperator (Set ℕ) :=
  .mk' (fun X => {x | Admitted s X x}) (fun _ _ hXY _ h => h.mono hXY) (fun _ _ h => .member h)
    fun _ _ h => h.trans ha

omit ha in
@[simp] theorem mem_admits (ha : HasAtoms s) : x ∈ admits ha X ↔ Admitted s X x := Iff.rfl

/-! ## What is foremost -/

theorem covers_atom (h : Covers s y (atom_of tag)) : (y = atom_of .invalid ∧ tag ≠ .invalid) ∨
      (y = atom_of .any ∧ tag ≠ .any ∧ tag ≠ .invalid) ∨ (y = atom_of .number ∧ tag = .integer) ∨
      (y = atom_of .boolean ∧ (tag = .true ∨ tag = .false)) := by
  cases h with
  | invalid h hx => exact .inl ⟨h, fun heq => hx (congrArg atom_of heq)⟩
  | any h hx hx' =>
    exact .inr (.inl ⟨h, fun heq => hx (congrArg atom_of heq), fun heq => hx' (congrArg atom_of heq)⟩)
  | integer h hx => exact .inr (.inr (.inl ⟨h, atom_of_inj hx⟩))
  | boolean h hx =>
    exact .inr (.inr (.inr ⟨h, hx.imp (fun h => atom_of_inj h) fun h => atom_of_inj h⟩))
  | enum h hx => exact absurd hx (not_isEnum_atom ha tag)

theorem foremost_invalid (h : atom_of .invalid ∈ X) : Foremost s X (atom_of .invalid) where
  admitted := .member h
  not_never := atom_of_ne (by decide)
  first y _ hc := by
    have hc := covers_atom ha hc
    simp at hc

theorem foremost_any (hi : atom_of .invalid ∉ X) (h : atom_of .any ∈ X) : Foremost s X (atom_of .any) where
  admitted := .member h
  not_never := atom_of_ne (by decide)
  first y hy hc := by
    rcases covers_atom ha hc with ⟨rfl, -⟩ | ⟨-, h, -⟩ | ⟨-, h⟩ | ⟨-, h⟩
    · exact hi ((admitted_invalid ha).mp hy)
    · exact h rfl
    · cases h
    · exact absurd h (by decide)

theorem foremost_atom (hi : atom_of .invalid ∉ X) (hany : atom_of .any ∉ X) (hnever : tag ≠ .never)
    (htag : tag ≠ .integer ∧ tag ≠ .true ∧ tag ≠ .false) (h : Admitted s X (atom_of tag)) :
    Foremost s X (atom_of tag) where
  admitted := h
  not_never := atom_of_ne hnever
  first y hy hc := by
    rcases covers_atom ha hc with ⟨rfl, -⟩ | ⟨rfl, -⟩ | ⟨-, h⟩ | ⟨-, h⟩
    · exact hi ((admitted_invalid ha).mp hy)
    · exact ((admitted_any ha).mp hy).elim hany hi
    · exact htag.1 h
    · exact h.elim htag.2.1 htag.2.2

/-- The foremost types admit what the list does. -/
theorem admits_foremost : admits ha {x | Foremost s X x} = admits ha X := by
  ext x
  rw [mem_admits, mem_admits]
  constructor
  · intro h
    exact (h.mono fun y hy => hy.admitted).trans ha
  intro h
  by_cases hi : atom_of .invalid ∈ X
  · exact .invalid (foremost_invalid ha hi)
  by_cases hany : atom_of .any ∈ X
  · apply Admitted.any (foremost_any ha hi hany)
    rintro rfl
    exact hi ((admitted_invalid ha).mp h)
  by_cases hnever : x = atom_of .never
  · exact .never hnever
  by_cases hf : Foremost s X x
  · exact .member hf
  -- something covers `x`, and it is foremost itself
  have hover : ∃ y, Admitted s X y ∧ Covers s y x := by
    by_contra hnot
    exact hf ⟨h, hnever, fun y hy hc => hnot ⟨y, hy, hc⟩⟩
  obtain ⟨y, hy, hc⟩ := hover
  cases hc with
  | invalid h _ => exact absurd ((admitted_invalid ha).mp (h ▸ hy)) hi
  | any h _ _ => exact absurd ((admitted_any ha).mp (h ▸ hy)) (not_or.mpr ⟨hany, hi⟩)
  | integer h hx => exact .integer (foremost_atom ha hi hany (by decide) (by decide) (h ▸ hy)) hx
  | boolean h hx => exact .boolean (foremost_atom ha hi hany (by decide) (by decide) (h ▸ hy)) hx
  | enum h hx => exact .enum (foremost_atom ha hi hany (by decide) (by decide) (h ▸ hy)) hx

/-- What is foremost is settled by what is admitted. -/
theorem foremost_congr (h : admits ha X = admits ha Y) (hx : Foremost s X x) : Foremost s Y x := by
  have hadmitted : ∀ {y}, Admitted s X y ↔ Admitted s Y y := by
    intro y
    rw [← mem_admits ha, h, mem_admits]
  exact ⟨hadmitted.mp hx.admitted, hx.not_never, fun y hy => hx.first y (hadmitted.mpr hy)⟩

omit ha in
/-- The foremost types are of the list, but for the `boolean` that `true` and `false` make. -/
theorem Foremost.mem (h : Foremost s X x) :
    x ∈ X ∨ (x = atom_of .boolean ∧ atom_of .true ∈ X ∧ atom_of .false ∈ X) := by
  have hcovers : ∀ {y}, y ∈ X → ¬Covers s y x := fun hy => h.first _ (.member hy)
  cases h.admitted with
  | never hx => exact absurd hx h.not_never
  | member h => exact .inl h
  | invalid hi =>
    by_cases hx : x = atom_of .invalid
    · exact .inl (hx ▸ hi)
    · exact absurd (.invalid rfl hx) (hcovers hi)
  | any hany hx =>
    by_cases hx' : x = atom_of .any
    · exact .inl (hx' ▸ hany)
    · exact absurd (.any rfl hx' hx) (hcovers hany)
  | integer hn hx => exact absurd (.integer rfl hx) (hcovers hn)
  | boolean hb hx => exact absurd (.boolean rfl hx) (hcovers hb)
  | both ht hf hx => exact .inr ⟨hx, ht, hf⟩
  | enum hs hx => exact absurd (.enum rfl hx) (hcovers hs)

end

/-! ## What a type is the union of -/

/-- The members of a union and its `nil`. -/
def with_nil (members : List ℕ) (nilable : Bool) : List ℕ :=
  if nilable then members ++ [atom_of .nil] else members

/-- The types that the type `t` is the union of: itself, where it is no union. -/
def Store.flat (s : Store) (t : ℕ) : List ℕ :=
  match s.form t with
  | some (.union members nilable) => with_nil members nilable
  | _ => [t]

/-- A live type that is no union. -/
structure Leaf (s : Store) (t : ℕ) : Prop where
  alive : s.alive t = true
  no_union : ∀ members nilable, s.form t ≠ some (.union members nilable)

theorem mem_with_nil {members : List ℕ} {nilable : Bool} {x : ℕ} :
    x ∈ with_nil members nilable ↔ x ∈ members ∨ (x = atom_of .nil ∧ nilable = true) := by
  unfold with_nil
  cases nilable with
  | false => simp
  | true => simp

variable {s : Store} {t : ℕ}

theorem Leaf.flat (h : Leaf s t) : s.flat t = [t] := by
  unfold Store.flat
  split
  · next members nilable hform => exact absurd hform (h.no_union members nilable)
  · rfl

theorem flat_union {members : List ℕ} {nilable : Bool} (h : s.form t = some (.union members nilable)) :
    s.flat t = with_nil members nilable := by
  unfold Store.flat
  rw [h]

theorem Single.no_union (h : Single s t) (members : List ℕ) (nilable : Bool) :
    s.form t ≠ some (.union members nilable) := by
  obtain ⟨f, hform, hsingle⟩ := h
  intro hunion
  rw [hform] at hunion
  cases hunion
  cases hsingle

section

variable {o : Outside} {s : Store} (hs : Sound o s)

include hs

variable {t : ℕ}

theorem Sound.eq_of_form {t' : ℕ} (ht : s.alive t = true) (ht' : s.alive t' = true) (h : s.form t = s.form t') :
    t = t' := by
  obtain ⟨c, hc, -⟩ := alive_iff.mp ht
  have hform : s.form t = some c.form := form_iff.mpr ⟨c, hc, rfl⟩
  have h₁ := hs.interned_of_form ht hform
  rw [hs.interned_of_form ht' (h.symm.trans hform)] at h₁
  exact (Option.some.inj h₁).symm

theorem Sound.leaf_atom (tag : Atom) : Leaf s (atom_of tag) :=
  ⟨hs.types.atoms.alive tag, fun _ _ h => by rw [hs.types.atoms.form tag] at h; cases h⟩

theorem Leaf.cases (h : Leaf s t) : Single s t ∨ t = atom_of .nil ∨ t = atom_of .never ∨
    t = atom_of .any ∨ t = atom_of .invalid := by
  obtain ⟨c, hc, -⟩ := alive_iff.mp h.alive
  have hform : s.form t = some c.form := form_iff.mpr ⟨c, hc, rfl⟩
  have hatom : ∀ tag, c.form = .atom tag → t = atom_of tag := by
    intro tag htag
    apply hs.eq_of_form h.alive (hs.types.atoms.alive tag)
    rw [hform, htag, hs.types.atoms.form]
  cases hf : c.form with
  | union members nilable => exact absurd (hform.trans (congrArg some hf)) (h.no_union members nilable)
  | atom tag =>
    cases tag with
    | nil => exact .inr (.inl (hatom _ hf))
    | never => exact .inr (.inr (.inl (hatom _ hf)))
    | any => exact .inr (.inr (.inr (.inl (hatom _ hf))))
    | invalid => exact .inr (.inr (.inr (.inr (hatom _ hf))))
    | _ => exact .inl ⟨_, hform, by rw [hf]; rfl⟩
  | _ => exact .inl ⟨_, hform, by rw [hf]; rfl⟩

theorem single_ne (h : Single s t) : t ≠ atom_of .nil ∧ t ≠ atom_of .never ∧
    t ≠ atom_of .any ∧ t ≠ atom_of .invalid := by
  have hne : ∀ tag, (Form.atom tag : Form ℕ).single = false → t ≠ atom_of tag := by
    rintro tag htag rfl
    obtain ⟨f, hform, hsingle⟩ := h
    rw [hs.types.atoms.form tag] at hform
    cases hform
    rw [htag] at hsingle
    cases hsingle
  exact ⟨hne _ rfl, hne _ rfl, hne _ rfl, hne _ rfl⟩

theorem Sound.normal_union {members : List ℕ} {nilable : Bool} (ht : s.alive t = true)
    (hform : s.form t = some (.union members nilable)) :
    NormalUnion s members nilable ∧ ∀ m ∈ members, s.alive m = true := by
  obtain ⟨c, hc, hdead⟩ := alive_iff.mp ht
  obtain ⟨c', hc', hf⟩ := form_iff.mp hform
  rw [hc] at hc'
  cases hc'
  have hparts := hs.types.closed.parts hc hdead
  rcases hs.types.normal hc hdead with ⟨tag, htag⟩ | hn
  · rw [hf] at htag
    cases htag
  · rw [hf] at hn hparts
    exact ⟨hn, hparts⟩

theorem Sound.leaf_member {m : ℕ} {members : List ℕ} {nilable : Bool} (ht : s.alive t = true)
    (hform : s.form t = some (.union members nilable)) (hm : m ∈ members) : Leaf s m := by
  obtain ⟨hn, halive⟩ := hs.normal_union ht hform
  exact ⟨halive m hm, (hn.single m hm).no_union⟩

/-- What a type is the union of are live types, none a union. -/
theorem Sound.leaf_flat {x : ℕ} (ht : s.alive t = true) (hx : x ∈ s.flat t) : Leaf s x := by
  by_cases hu : ∃ members nilable, s.form t = some (.union members nilable)
  · obtain ⟨members, nilable, hform⟩ := hu
    rw [flat_union hform] at hx
    rcases mem_with_nil.mp hx with hx | ⟨rfl, -⟩
    · exact hs.leaf_member ht hform hx
    · exact hs.leaf_atom .nil
  · have hleaf : Leaf s t := ⟨ht, fun members nilable h => hu ⟨members, nilable, h⟩⟩
    rw [hleaf.flat, mem_singleton] at hx
    exact hx ▸ hleaf

end

/-! ## What is gathered -/

/-- What was gathered of a list of types, none of them a union. -/
structure GatheredOf (s : Store) (L : List ℕ) (g : Gathered) : Prop where
  members : ∀ m, m ∈ g.members ↔ m ∈ L ∧ Single s m
  nilable : g.nilable = true ↔ atom_of .nil ∈ L
  any : g.any = true ↔ atom_of .any ∈ L
  invalid : g.invalid = true ↔ atom_of .invalid ∈ L

section

variable {o : Outside} {s : Store}

theorem gatheredOf_none (s : Store) : GatheredOf s [] {} := by
  constructor <;> simp

variable {L : List ℕ} {g : Gathered} {m : ℕ}

theorem GatheredOf.single (hs : Sound o s) (h : GatheredOf s L g) (hm : Single s m) :
    GatheredOf s (L ++ [m]) (if m ∈ g.members then g else { g with members := g.members ++ [m] }) := by
  obtain ⟨hnil, -, hany, hinvalid⟩ := single_ne hs hm
  have hflag : ∀ {a : ℕ}, m ≠ a → (a ∈ L ++ [m] ↔ a ∈ L) := by
    intro a hne
    simp [hne.symm]
  have hmembers : ∀ x, x ∈ g.members ++ [m] ↔ x ∈ L ++ [m] ∧ Single s x := by
    intro x
    rw [mem_append, mem_append, h.members, mem_singleton]
    constructor
    · rintro (hx | rfl)
      · exact ⟨.inl hx.1, hx.2⟩
      · exact ⟨.inr rfl, hm⟩
    · rintro ⟨hx | rfl, hsingle⟩
      · exact .inl ⟨hx, hsingle⟩
      · exact .inr rfl
  split
  · next hmem =>
    refine ⟨fun x => ?_, ?_, ?_, ?_⟩
    · rw [← hmembers, mem_append, mem_singleton]
      exact ⟨.inl, fun hx => hx.elim id fun hx => hx ▸ hmem⟩
    · rw [h.nilable, hflag hnil]
    · rw [h.any, hflag hany]
    · rw [h.invalid, hflag hinvalid]
  · exact ⟨hmembers, by rw [h.nilable, hflag hnil], by rw [h.any, hflag hany],
      by rw [h.invalid, hflag hinvalid]⟩

theorem GatheredOf.taken (hs : Sound o s) (h : GatheredOf s L g) {tag : Atom}
    (htag : (Form.atom tag : Form ℕ).single = false) {g' : Gathered} (hmembers : g'.members = g.members)
    (hnil : g'.nilable = (g.nilable || tag == .nil)) (hany : g'.any = (g.any || tag == .any))
    (hinvalid : g'.invalid = (g.invalid || tag == .invalid)) :
    GatheredOf s (L ++ [atom_of tag]) g' := by
  have hflag : ∀ {b : Bool} {tag' : Atom}, (b = true ↔ atom_of tag' ∈ L) →
      ((b || tag == tag') = true ↔ atom_of tag' ∈ L ++ [atom_of tag]) := by
    intro b tag' hb
    rw [Bool.or_eq_true, hb, beq_iff_eq, mem_append, mem_singleton]
    exact or_congr_right ⟨fun h => congrArg atom_of h.symm, fun h => (atom_of_inj h).symm⟩
  refine ⟨fun x => ?_, hnil ▸ hflag h.nilable, hany ▸ hflag h.any, hinvalid ▸ hflag h.invalid⟩
  rw [hmembers, h.members, mem_append, mem_singleton]
  constructor
  · exact fun hx => ⟨.inl hx.1, hx.2⟩
  rintro ⟨hx | rfl, hsingle⟩
  · exact ⟨hx, hsingle⟩
  · obtain ⟨f, hform, hf⟩ := hsingle
    rw [hs.types.atoms.form tag] at hform
    cases hform
    rw [htag] at hf
    cases hf

theorem gather_leaf (hs : Sound o s) (h : GatheredOf s L g) (hm : Leaf s m) (levels : ℕ) :
    GatheredOf s (L ++ [m]) (gather s (levels + 1) g m) := by
  unfold gather
  rcases hm.cases hs with hsingle | rfl | rfl | rfl | rfl
  · have hadd := h.single hs hsingle
    obtain ⟨f, hform, hf⟩ := hsingle
    rw [hform]
    cases f with
    | union members nilable => cases hf
    | atom tag =>
      cases tag with
      | nil | never | any | invalid => cases hf
      | _ => exact hadd
    | _ => exact hadd
  all_goals
    rw [hs.types.atoms.form]
    apply h.taken hs rfl <;> simp

theorem foldl_leaves (hs : Sound o s) (levels : ℕ) {ms : List ℕ} (hm : ∀ m ∈ ms, Leaf s m) :
    ∀ {L : List ℕ} {g : Gathered}, GatheredOf s L g →
      GatheredOf s (L ++ ms) (ms.foldl (gather s (levels + 1)) g) := by
  induction ms with
  | nil =>
    intro L g h
    rwa [append_nil]
  | cons m ms ih =>
    intro L g h
    rw [← singleton_append, ← append_assoc]
    exact ih (fun p hp => hm p (mem_cons_of_mem m hp)) (gather_leaf hs h (hm m mem_cons_self) levels)

theorem gather_flat (hs : Sound o s) (h : GatheredOf s L g) (hm : s.alive m = true) :
    GatheredOf s (L ++ s.flat m) (gather s (m + 1) g m) := by
  by_cases hu : ∃ members nilable, s.form m = some (.union members nilable)
  · obtain ⟨members, nilable, hform⟩ := hu
    obtain ⟨c, hc, -⟩ := alive_iff.mp hm
    obtain ⟨levels, rfl⟩ : ∃ levels, m = levels + 1 := Nat.exists_eq_add_one.mpr (at_id_pos hc)
    have hmembers := foldl_leaves hs levels (fun p hp => hs.leaf_member hm hform hp) h
    rw [flat_union hform]
    unfold gather with_nil
    rw [hform]
    cases nilable with
    | false => exact hmembers
    | true =>
      rw [if_pos rfl, ← append_assoc]
      exact hmembers.taken hs rfl rfl (by simp) (by simp) (by simp)
  · have hleaf : Leaf s m := ⟨hm, fun members nilable h => hu ⟨members, nilable, h⟩⟩
    rw [hleaf.flat]
    exact gather_leaf hs h hleaf m

theorem foldl_flat (hs : Sound o s) {ms : List ℕ} (hm : ∀ m ∈ ms, s.alive m = true) :
    ∀ {L : List ℕ} {g : Gathered}, GatheredOf s L g →
      GatheredOf s (L ++ ms.flatMap s.flat) (ms.foldl (fun g m => gather s (m + 1) g m) g) := by
  induction ms with
  | nil =>
    intro L g h
    rwa [flatMap_nil, append_nil]
  | cons m ms ih =>
    intro L g h
    rw [flatMap_cons, ← append_assoc]
    exact ih (fun p hp => hm p (mem_cons_of_mem m hp)) (gather_flat hs h (hm m mem_cons_self))

/-! ## The normal form of what is gathered -/

theorem covered_iff {seen : List ℕ} : covered s seen m = true ↔ (atom_of .number ∈ seen ∧ m = atom_of .integer) ∨
      (atom_of .boolean ∈ seen ∧ (m = atom_of .true ∨ m = atom_of .false)) ∨
      (atom_of .string ∈ seen ∧ IsEnum s m) := by
  unfold covered
  split
  · next h => exact ⟨fun _ => .inl h, fun _ => rfl⟩
  next hn =>
  split
  · next h => exact ⟨fun _ => .inr (.inl h), fun _ => rfl⟩
  next hb =>
  split
  · next hstr =>
    refine Iff.trans ?_ ⟨fun h => .inr (.inr ⟨hstr, h⟩), fun h => ((h.resolve_left hn).resolve_left hb).2⟩
    split
    · next d args value hform =>
      refine ⟨fun h => ⟨d, args, value, hform, h⟩, ?_⟩
      rintro ⟨d', args', value', heq, h⟩
      cases hform.symm.trans heq
      exact h
    · next hne =>
      refine ⟨fun h => absurd h Bool.false_ne_true, ?_⟩
      rintro ⟨d, args, value, hform, -⟩
      exact absurd hform (hne d args value)
  · next hstr =>
    constructor
    · exact fun h => absurd h Bool.false_ne_true
    · rintro (h | h | h)
      · exact absurd h hn
      · exact absurd h hb
      · exact absurd h.1 hstr

end

end Cosmic.Types
