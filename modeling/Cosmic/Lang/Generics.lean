/-
`lang/generics.tl`: what a solver keeps of the type parameters of a generic function at one call.

A type is of any `T` here: the solver compares types, tells three atoms of the store by their tags,
asks the store for the optional of a type, and reads the rest through the hooks of its caller. The
types are interned, so that an atom's tag is told by the type itself. A table of the source is a
table by the number of the type parameter, from 1.
-/
import Cosmic.Base.Table
import Mathlib.Data.Finset.Insert
import Mathlib.Tactic.Tauto

set_option autoImplicit false

namespace Cosmic.Generics

open Cosmic.Base List Option

/-! ## The solver -/

/-- How a value flows through the position of a pattern. -/
inductive Direction where
  | into
  | from_
  | both
  deriving DecidableEq

structure TypeStore (T : Type) where
  nil : T
  never : T
  invalid : T
  optional : T → T

/-- What the caller supplies about types it alone can read. -/
structure Hooks (T : Type) where
  /-- Whether the first type is below the second. -/
  below : T → T → Bool

/-- Two types a type parameter has no one type for. -/
structure Conflict (T : Type) where
  index : ℕ
  first : T
  second : T
  first_at : Option ℕ
  second_at : Option ℕ
  exact : Bool

structure Solver (T : Type) where
  store : TypeStore T
  hooks : Hooks T
  lower : Table ℕ T := ∅
  upper : Table ℕ T := ∅
  exact : Table ℕ T := ∅
  lower_at : Table ℕ ℕ := ∅
  upper_at : Table ℕ ℕ := ∅
  exact_at : Table ℕ ℕ := ∅
  conflicts : List (Conflict T) := []
  invalid_at : Table ℕ Bool := ∅
  /-- What the type expected tells, kept apart. -/
  fallback : Table ℕ T := ∅
  hint : Table ℕ T := ∅

variable {T : Type}

def new (store : TypeStore T) (hooks : Hooks T) : Solver T := { store, hooks }

/-- Whether a conflict is recorded for the type parameter `index`. -/
def Solver.conflicted (s : Solver T) (index : ℕ) : Bool := s.conflicts.any (·.index == index)

def conflict (s : Solver T) (index : ℕ) (first second : T) (first_at second_at : Option ℕ)
    (exact : Bool) : Solver T :=
  if s.conflicted index then s
  else { s with conflicts := s.conflicts ++ [⟨index, first, second, first_at, second_at, exact⟩] }

variable [DecidableEq T]

/-- The type both `a` and `b` are below. `nil` and a type make that type optional. -/
def join (s : Solver T) (a b : T) : Option T :=
  if a = b then some a
  else if a = s.store.nil then some (s.store.optional b)
  else if b = s.store.nil then some (s.store.optional a)
  else if s.hooks.below a b then some b
  else if s.hooks.below b a then some a
  else none

/-- The type that is below both `a` and `b`. -/
def meet (s : Solver T) (a b : T) : Option T :=
  if s.hooks.below a b then some a
  else if s.hooks.below b a then some b
  else none

/-- What the type `actual`, found at `at_` in the direction `dir`, says of a type parameter. -/
def bind (s : Solver T) (index : ℕ) (actual : T) (dir : Direction) (at_ : ℕ) : Solver T :=
  if actual = s.store.invalid then { s with invalid_at := s.invalid_at.insert index true }
  else
    match dir with
    | .into =>
      if actual = s.store.never then s
      else
        match s.lower.lookup index with
        | none =>
          { s with
            lower := s.lower.insert index actual
            lower_at := s.lower_at.insert index at_ }
        | some held =>
          match join s held actual with
          | none => conflict s index held actual (s.lower_at.lookup index) (some at_) false
          | some joined => { s with lower := s.lower.insert index joined }
    | .from_ =>
      match s.upper.lookup index with
      | none =>
        { s with
          upper := s.upper.insert index actual
          upper_at := s.upper_at.insert index at_ }
      | some held =>
        match meet s held actual with
        | none => conflict s index held actual (s.upper_at.lookup index) (some at_) false
        | some met => { s with upper := s.upper.insert index met }
    | .both =>
      match s.exact.lookup index with
      | none =>
        { s with
          exact := s.exact.insert index actual
          exact_at := s.exact_at.insert index at_ }
      | some held =>
        if held = actual then s
        else conflict s index held actual (s.exact_at.lookup index) (some at_) true

/-- The type of a type parameter, and the solver with the conflict it found of its bounds. -/
def value (s : Solver T) (index : ℕ) : Option T × Solver T :=
  let lower := s.lower.lookup index
  let upper := s.upper.lookup index
  let below := s.hooks.below
  match s.exact.lookup index with
  | some exact =>
    match lower, upper with
    | some lower, some upper =>
      if !below lower exact then
        (some exact, conflict s index exact lower (s.exact_at.lookup index) (s.lower_at.lookup index) true)
      else if !below exact upper then
        (some exact, conflict s index upper exact (s.upper_at.lookup index) (s.exact_at.lookup index) true)
      else (some exact, s)
    | some lower, none =>
      if !below lower exact then
        (some exact, conflict s index exact lower (s.exact_at.lookup index) (s.lower_at.lookup index) true)
      else (some exact, s)
    | none, some upper =>
      if !below exact upper then
        (some exact, conflict s index upper exact (s.upper_at.lookup index) (s.exact_at.lookup index) true)
      else (some exact, s)
    | none, none => (some exact, s)
  | none =>
    match lower with
    | some lower =>
      match (s.hint.lookup index).filter
          (fun hint => below lower hint && upper.all (fun upper => below hint upper)) with
      | some hint => (some hint, s)
      | none =>
        match upper with
        | some upper =>
          if !below lower upper then
            (some lower, conflict s index lower upper (s.lower_at.lookup index) (s.upper_at.lookup index) false)
          else (some lower, s)
        | none => (some lower, s)
    | none => (upper.or (s.fallback.lookup index), s)

/-!
When the lower bounds of a type parameter grow to the type all are below.

The bound is folded in the order the types are found: one that is neither above nor below what is
held is a conflict at once, and nothing that is found later takes it back. So the order counts. The
bounds grow to the type all are below exactly where every type, as it comes, fits those before it.
-/

variable {T : Type}

/-! ## The order of the types -/

/-- A type that tells of a type parameter: `never` and `invalid` do not. -/
def Tells (st : TypeStore T) (a : T) : Prop := a ≠ st.never ∧ a ≠ st.invalid

/-- What `below` is: an order in which nothing else is below `nil`, and the optional of a type is the
least type above it and `nil`. A type with a mistake in it, `invalid`, is on no chain. -/
structure Ordered (st : TypeStore T) (below : T → T → Bool) : Prop where
  refl : ∀ a, below a a = true
  trans : ∀ a b c, b ≠ st.invalid → below a b = true → below b c = true → below a c = true
  nil : Tells st st.nil
  below_nil : ∀ a, Tells st a → below a st.nil = true → a = st.nil
  optional_tells : ∀ a, Tells st a → Tells st (st.optional a)
  optional_below : ∀ a b, Tells st a → (below (st.optional a) b = true ↔ below a b = true ∧ below st.nil b = true)
  optional_twice : ∀ a, Tells st a → st.optional (st.optional a) = st.optional a

section

variable {st : TypeStore T} {below : T → T → Bool}

theorem Ordered.below_optional (ho : Ordered st below) {a : T} (ha : Tells st a) :
    below a (st.optional a) = true ∧ below st.nil (st.optional a) = true :=
  (ho.optional_below a _ ha).mp (ho.refl _)

/-! ## Sequences that fit -/

/-- The type `t` fits those `seen` before it: it is `nil` or the first that is not, it is below one
of them, made optional where a `nil` was seen, or all of them are below it. -/
def Fits (st : TypeStore T) (below : T → T → Bool) (seen : List T) (t : T) : Prop :=
  t = st.nil ∨ (∀ u ∈ seen, u = st.nil) ∨ (∀ u ∈ seen, below u t = true) ∨ (∃ u ∈ seen, below t u = true) ∨
      (st.nil ∈ seen ∧ ∃ u ∈ seen, below t (st.optional u) = true)

/-- Every type of a sequence fits those before it. -/
def Grows (st : TypeStore T) (below : T → T → Bool) (seen : List T) : List T → Prop
  | [] => True
  | t :: rest => Fits st below seen t ∧ Grows st below (seen ++ [t]) rest

/-- The bound `h` of the types seen: all are below it, and it is one of them, or the optional of one
where a `nil` was seen. -/
structure Bounds (st : TypeStore T) (below : T → T → Bool) (seen : List T) (h : T) : Prop where
  tells : Tells st h
  above : ∀ u ∈ seen, below u h = true
  of : h ∈ seen ∨ st.nil ∈ seen ∧ ∃ u ∈ seen, h = st.optional u

variable {seen : List T} {h t : T}

theorem Bounds.least (ho : Ordered st below) (hb : Bounds st below seen h)
    (hseen : ∀ u ∈ seen, Tells st u) (ht : ∀ u ∈ seen, below u t = true) : below h t = true := by
  rcases hb.of with hmem | ⟨hnil, u, hu, rfl⟩
  · exact ht h hmem
  · exact (ho.optional_below u t (hseen u hu)).mpr ⟨ht u hu, ht st.nil hnil⟩

theorem Bounds.fits_iff (ho : Ordered st below) (hb : Bounds st below seen h) (hseen : ∀ u ∈ seen, Tells st u) :
    Fits st below seen t ↔ t = st.nil ∨ h = st.nil ∨ below h t = true ∨ below t h = true := by
  constructor
  · rintro (hnil | hall | hall | ⟨u, hu, hle⟩ | ⟨hnil, u, hu, hle⟩)
    · exact Or.inl hnil
    · have hle : below h st.nil = true := by
        refine hb.least ho hseen fun u hu => ?_
        rw [hall u hu]
        exact ho.refl _
      exact Or.inr (Or.inl (ho.below_nil h hb.tells hle))
    · exact Or.inr (Or.inr (Or.inl (hb.least ho hseen hall)))
    · exact Or.inr (Or.inr (Or.inr (ho.trans t u h (hseen u hu).2 hle (hb.above u hu))))
    · have hu' := hseen u hu
      have hopt : below (st.optional u) h = true :=
        (ho.optional_below u h hu').mpr ⟨hb.above u hu, hb.above st.nil hnil⟩
      exact Or.inr (Or.inr (Or.inr (ho.trans t _ h (ho.optional_tells u hu').2 hle hopt)))
  · rintro (hnil | hnil | hle | hle)
    · exact Or.inl hnil
    · refine Or.inr (Or.inl fun u hu => ho.below_nil u (hseen u hu) ?_)
      rw [← hnil]
      exact hb.above u hu
    · exact Or.inr (Or.inr (Or.inl fun u hu => ho.trans u h t hb.tells.2 (hb.above u hu) hle))
    · rcases hb.of with hmem | ⟨hnil, u, hu, rfl⟩
      · exact Or.inr (Or.inr (Or.inr (Or.inl ⟨h, hmem, hle⟩)))
      · exact Or.inr (Or.inr (Or.inr (Or.inr ⟨hnil, u, hu, hle⟩)))

theorem Bounds.stay (hb : Bounds st below seen h) (hle : below t h = true) : Bounds st below (seen ++ [t]) h := by
  refine ⟨hb.tells, fun u hu => ?_, ?_⟩
  · rcases mem_append.mp hu with hold | hnew
    · exact hb.above u hold
    · rwa [mem_singleton.mp hnew]
  · rcases hb.of with hmem | ⟨hnil, u, hu, heq⟩
    · exact Or.inl (mem_append_left _ hmem)
    · exact Or.inr ⟨mem_append_left _ hnil, u, mem_append_left _ hu, heq⟩

theorem Bounds.move (ho : Ordered st below) (hb : Bounds st below seen h) (ht : Tells st t)
    (hle : below h t = true) : Bounds st below (seen ++ [t]) t := by
  refine ⟨ht, fun u hu => ?_, Or.inl (by simp)⟩
  rcases mem_append.mp hu with hold | hnew
  · exact ho.trans u h t hb.tells.2 (hb.above u hold) hle
  · rw [mem_singleton.mp hnew]
    exact ho.refl t

theorem Bounds.with_nil (ho : Ordered st below) (hb : Bounds st below seen h)
    (hseen : ∀ u ∈ seen, Tells st u) : Bounds st below (seen ++ [st.nil]) (st.optional h) := by
  obtain ⟨hself, hnil⟩ := ho.below_optional hb.tells
  refine ⟨ho.optional_tells h hb.tells, fun u hu => ?_, Or.inr ⟨by simp, ?_⟩⟩
  · rcases mem_append.mp hu with hold | hnew
    · exact ho.trans u h _ hb.tells.2 (hb.above u hold) hself
    · rwa [mem_singleton.mp hnew]
  · rcases hb.of with hmem | ⟨_, u, hu, heq⟩
    · exact ⟨h, mem_append_left _ hmem, rfl⟩
    · refine ⟨u, mem_append_left _ hu, ?_⟩
      rw [heq, ho.optional_twice u (hseen u hu)]

theorem Bounds.after_nil (ho : Ordered st below) (hb : Bounds st below seen st.nil)
    (hseen : ∀ u ∈ seen, Tells st u) (ht : Tells st t) :
    Bounds st below (seen ++ [t]) (st.optional t) := by
  obtain ⟨hself, hnil⟩ := ho.below_optional ht
  have hall : ∀ u ∈ seen, u = st.nil := fun u hu => ho.below_nil u (hseen u hu) (hb.above u hu)
  refine ⟨ho.optional_tells t ht, fun u hu => ?_, Or.inr ⟨?_, t, by simp, rfl⟩⟩
  · rcases mem_append.mp hu with hold | hnew
    · rwa [hall u hold]
    · rwa [mem_singleton.mp hnew]
  · rcases hb.of with hmem | ⟨hmem, _⟩
    · exact mem_append_left _ hmem
    · exact mem_append_left _ hmem

end

variable {s : Solver T} {seen : List T} {h t : T} {index : ℕ}

theorem conflict_conflicted (first second : T) (first_at second_at : Option ℕ) (exact : Bool) :
    (conflict s index first second first_at second_at exact).conflicted index = true := by
  unfold conflict
  split
  · next hold => exact hold
  · simp [Solver.conflicted]

variable [DecidableEq T]

theorem join_bounds (ho : Ordered s.store s.hooks.below) (hb : Bounds s.store s.hooks.below seen h)
    (hseen : ∀ u ∈ seen, Tells s.store u) (ht : Tells s.store t) :
    (Fits s.store s.hooks.below seen t → ∃ h', join s h t = some h' ∧ Bounds s.store s.hooks.below (seen ++ [t]) h') ∧
      (¬Fits s.store s.hooks.below seen t → join s h t = none) := by
  rw [hb.fits_iff ho hseen]
  unfold join
  split
  · next heq =>
    refine ⟨fun _ => ⟨h, rfl, hb.stay ?_⟩, fun hno => ?_⟩
    · rw [heq]
      exact ho.refl t
    · refine absurd (Or.inr (Or.inr (Or.inl ?_))) hno
      rw [heq]
      exact ho.refl t
  split
  · next hnil =>
    refine ⟨fun _ => ⟨_, rfl, ?_⟩, fun hno => absurd (Or.inr (Or.inl hnil)) hno⟩
    rw [hnil] at hb
    exact hb.after_nil ho hseen ht
  split
  · next hnil =>
    refine ⟨fun _ => ⟨_, rfl, ?_⟩, fun hno => absurd (Or.inl hnil) hno⟩
    rw [hnil]
    exact hb.with_nil ho hseen
  split
  · next hle =>
    exact ⟨fun _ => ⟨t, rfl, hb.move ho ht hle⟩,
      fun hno => absurd (Or.inr (Or.inr (Or.inl hle))) hno⟩
  split
  · next hle =>
    exact ⟨fun _ => ⟨h, rfl, hb.stay hle⟩, fun hno => absurd (Or.inr (Or.inr (Or.inr hle))) hno⟩
  · refine ⟨fun hfits => ?_, fun _ => rfl⟩
    tauto

/-! ## Binding a sequence -/

/-- Binds the types of a sequence, each found at its own place, in order. -/
def bind_all (s : Solver T) (index : ℕ) (ts : List (T × ℕ)) : Solver T :=
  ts.foldl (fun s t => bind s index t.1 .into t.2) s

def telling (st : TypeStore T) (ts : List T) : List T := ts.filter (fun t => t ≠ st.never ∧ t ≠ st.invalid)

/-- Nothing but lower bounds is known of a type parameter. -/
structure LowerOnly (s : Solver T) (index : ℕ) : Prop where
  exact : s.exact.lookup index = none
  upper : s.upper.lookup index = none
  hint : s.hint.lookup index = none
  fallback : s.fallback.lookup index = none

/-- The parts of a solver that a lower bound leaves as they are. -/
structure SameBut (s s' : Solver T) : Prop where
  store : s'.store = s.store
  hooks : s'.hooks = s.hooks
  exact : s'.exact = s.exact
  upper : s'.upper = s.upper
  hint : s'.hint = s.hint
  fallback : s'.fallback = s.fallback

theorem bind_same (s : Solver T) (index : ℕ) (t : T) (at_ : ℕ) : SameBut s (bind s index t .into at_) := by
  unfold bind
  split
  · exact ⟨rfl, rfl, rfl, rfl, rfl, rfl⟩
  simp only
  split
  · exact ⟨rfl, rfl, rfl, rfl, rfl, rfl⟩
  split
  · exact ⟨rfl, rfl, rfl, rfl, rfl, rfl⟩
  split
  · unfold conflict
    split
    · exact ⟨rfl, rfl, rfl, rfl, rfl, rfl⟩
    · exact ⟨rfl, rfl, rfl, rfl, rfl, rfl⟩
  · exact ⟨rfl, rfl, rfl, rfl, rfl, rfl⟩

theorem bind_conflicted (hs : s.conflicted index = true) (t : T) (at_ : ℕ) :
    (bind s index t .into at_).conflicted index = true := by
  unfold bind
  split
  · exact hs
  simp only
  split
  · exact hs
  split
  · exact hs
  · split
    · exact conflict_conflicted _ _ _ _ _
    · exact hs

theorem bind_all_conflicted (ts : List (T × ℕ)) (hs : s.conflicted index = true) :
    (bind_all s index ts).conflicted index = true := by
  induction ts generalizing s with
  | nil => exact hs
  | cons t ts ih => exact ih (bind_conflicted hs t.1 t.2)

structure Held (s : Solver T) (index : ℕ) (seen : List T) : Prop where
  only : LowerOnly s index
  conflicts : s.conflicted index = false
  none : s.lower.lookup index = none → seen = []
  some : ∀ h, s.lower.lookup index = some h → Bounds s.store s.hooks.below seen h

theorem Held.silent (hh : Held s index seen) (ht : ¬Tells s.store t) (at_ : ℕ) :
    Held (bind s index t .into at_) index seen := by
  unfold bind
  split
  · exact ⟨⟨hh.only.exact, hh.only.upper, hh.only.hint, hh.only.fallback⟩, hh.conflicts, hh.none, hh.some⟩
  next hvalid =>
  have hnever : t = s.store.never := by
    by_contra hne
    exact ht ⟨hne, hvalid⟩
  simp only [hnever, if_true]
  exact hh

theorem Held.step (ho : Ordered s.store s.hooks.below) (hh : Held s index seen)
    (hseen : ∀ u ∈ seen, Tells s.store u) (ht : Tells s.store t) (at_ : ℕ) :
    (Fits s.store s.hooks.below seen t → Held (bind s index t .into at_) index (seen ++ [t])) ∧
      (¬Fits s.store s.hooks.below seen t → (bind s index t .into at_).conflicted index = true) := by
  unfold bind
  simp only [if_neg ht.2, if_neg ht.1]
  cases hl : s.lower.lookup index with
  | none =>
    have hnil := hh.none hl
    subst hnil
    refine ⟨fun _ => ⟨⟨hh.only.exact, hh.only.upper, hh.only.hint, hh.only.fallback⟩,
      hh.conflicts, fun hnone => ?_, fun h hsome => ?_⟩, fun hno => ?_⟩
    · simp only [AList.lookup_insert] at hnone
      cases hnone
    · simp only [AList.lookup_insert] at hsome
      cases hsome
      exact ⟨ht, fun u hu => by rw [mem_singleton.mp hu]; exact ho.refl t, Or.inl (mem_singleton.mpr rfl)⟩
    · exact absurd (Or.inr (Or.inl fun u hu => absurd hu not_mem_nil)) hno
  | some h =>
    obtain ⟨hjoin, hnone⟩ := join_bounds ho (hh.some h hl) hseen ht
    refine ⟨fun hfits => ?_, fun hno => ?_⟩
    · obtain ⟨h', hj, hb⟩ := hjoin hfits
      simp only [hj]
      refine ⟨⟨hh.only.exact, hh.only.upper, hh.only.hint, hh.only.fallback⟩, hh.conflicts,
        fun hn => ?_, fun h'' hsome => ?_⟩
      · simp only [AList.lookup_insert] at hn
        cases hn
      · simp only [AList.lookup_insert] at hsome
        cases hsome
        exact hb
    · simp only [hnone hno]
      exact conflict_conflicted _ _ _ _ _

/-- A whole sequence is held where every type fits those before it, and conflicts where one does
not. -/
theorem Held.run (ho : Ordered s.store s.hooks.below) (ts : List (T × ℕ)) (hh : Held s index seen)
    (hseen : ∀ u ∈ seen, Tells s.store u) :
    (Grows s.store s.hooks.below seen (telling s.store (ts.map Prod.fst)) →
        Held (bind_all s index ts) index (seen ++ telling s.store (ts.map Prod.fst)) ∧
          (bind_all s index ts).store = s.store ∧ (bind_all s index ts).hooks = s.hooks) ∧
      (¬Grows s.store s.hooks.below seen (telling s.store (ts.map Prod.fst)) →
        (bind_all s index ts).conflicted index = true) := by
  induction ts generalizing s seen with
  | nil =>
    refine ⟨fun _ => ⟨?_, rfl, rfl⟩, fun hno => absurd trivial hno⟩
    show Held s index (seen ++ [])
    rwa [append_nil]
  | cons t ts ih =>
    have hsame := bind_same s index t.1 t.2
    have ho' : Ordered (bind s index t.1 .into t.2).store (bind s index t.1 .into t.2).hooks.below := by
      rwa [hsame.store, hsame.hooks]
    have hcons : bind_all s index (t :: ts) = bind_all (bind s index t.1 .into t.2) index ts := rfl
    by_cases htells : Tells s.store t.1
    · have hlist : telling s.store ((t :: ts).map Prod.fst) = t.1 :: telling s.store (ts.map Prod.fst) := by
        rw [telling, map_cons, filter_cons_of_pos (by simpa [Tells] using htells)]
        rfl
      obtain ⟨hfit, hmiss⟩ := hh.step ho hseen htells t.2
      rw [hlist, hcons]
      by_cases hfits : Fits s.store s.hooks.below seen t.1
      · have hseen' : ∀ u ∈ seen ++ [t.1], Tells (bind s index t.1 .into t.2).store u := by
          intro u hu
          rw [hsame.store]
          rcases mem_append.mp hu with hold | hnew
          · exact hseen u hold
          · rwa [mem_singleton.mp hnew]
        obtain ⟨hgo, hstop⟩ := ih ho' (hfit hfits) hseen'
        rw [hsame.store, hsame.hooks, append_assoc, singleton_append] at hgo
        rw [hsame.store, hsame.hooks] at hstop
        exact ⟨fun hgrows => hgo hgrows.2, fun hno => hstop fun hrest => hno ⟨hfits, hrest⟩⟩
      · exact ⟨fun hgrows => absurd hgrows.1 hfits,
          fun _ => bind_all_conflicted ts (hmiss hfits)⟩
    · have hlist : telling s.store ((t :: ts).map Prod.fst) = telling s.store (ts.map Prod.fst) := by
        rw [telling, map_cons, filter_cons_of_neg (by simpa [Tells] using htells)]
        rfl
      have hseen' : ∀ u ∈ seen, Tells (bind s index t.1 .into t.2).store u := by
        rwa [hsame.store]
      obtain ⟨hgo, hstop⟩ := ih ho' (hh.silent htells t.2) hseen'
      rw [hsame.store, hsame.hooks] at hgo hstop
      rw [hlist, hcons]
      exact ⟨hgo, hstop⟩

/-! ## The type all are below -/

end Cosmic.Generics
