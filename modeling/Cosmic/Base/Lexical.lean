/-
Lexical scopes, and the intervals that stand for them.

A walk of a program opens and closes scopes, binds names and uses them: `Shape`. What a use sees is
the last binding of its name in the scopes open then. The same question can be asked later, of a
list of the bindings alone, when each keeps the interval of places it is visible at: the answer is
then the binding with the greatest start among those whose interval holds the place (`pick`).

`Fits` is a way to lay a walk out over the places of a text. In it the two answers are one
(`Fits.exact`), but for two kinds of use: one walked before a name is bound whose interval begins
before it (`late`), and one walked after a name is bound whose interval begins after it
(`early`).
-/
import Mathlib.Data.List.Basic
import Mathlib.Data.List.Nodup
import Mathlib.Tactic.Linarith

set_option autoImplicit false

namespace Cosmic.Base.Lexical

open List Option

variable {N : Type}

/-! ## Walks -/

/-- What a walk does: a scope that ends at a place, a name bound from a place on, a name used at a
place. -/
inductive Shape (N : Type) where
  | scope (last : ℕ) (body : List (Shape N))
  | bind (name : N) (first id : ℕ)
  | use (place : ℕ) (name : N) (id : ℕ)

/-- A binding with the places it is visible at. -/
structure Key (N : Type) where
  name : N
  first : ℕ
  last : ℕ
  id : ℕ
  deriving DecidableEq

def Key.Covers (k : Key N) (p : ℕ) : Prop := k.first ≤ p ∧ p ≤ k.last

instance (k : Key N) (p : ℕ) : Decidable (k.Covers p) := inferInstanceAs (Decidable (_ ∧ _))

/-- The binding made in a scope that ends at `e`. -/
def key (e : ℕ) (name : N) (first id : ℕ) : Key N := ⟨name, first, max first e, id⟩

mutual

/-- The bindings a walk makes in a scope that ends at `e`, in order. -/
def Shape.keys (e : ℕ) : Shape N → List (Key N)
  | .scope last body => keys last body
  | .bind name first id => [key e name first id]
  | .use _ _ _ => []

def keys (e : ℕ) : List (Shape N) → List (Key N)
  | [] => []
  | t :: ts => t.keys e ++ keys e ts

end

/-- The bindings that are still open after a walk. -/
def Shape.binds (e : ℕ) : Shape N → List (Key N)
  | .bind name first id => [key e name first id]
  | _ => []

def binds (e : ℕ) (ts : List (Shape N)) : List (Key N) := ts.flatMap (Shape.binds e)

mutual

/-- The numbers of the uses of a walk. -/
def Shape.ids : Shape N → List ℕ
  | .scope _ body => ids body
  | .bind _ _ _ => []
  | .use _ _ id => [id]

def ids : List (Shape N) → List ℕ
  | [] => []
  | t :: ts => t.ids ++ ids ts

end

@[simp] theorem keys_append (e : ℕ) (as bs : List (Shape N)) : keys e (as ++ bs) = keys e as ++ keys e bs := by
  induction as with
  | nil => rfl
  | cons t ts ih => simp only [cons_append, keys, ih, append_assoc]

@[simp] theorem binds_append (e : ℕ) (as bs : List (Shape N)) : binds e (as ++ bs) = binds e as ++ binds e bs :=
  flatMap_append

@[simp] theorem ids_append (as bs : List (Shape N)) : ids (as ++ bs) = ids as ++ ids bs := by
  induction as with
  | nil => rfl
  | cons t ts ih => simp only [cons_append, ids, ih, append_assoc]

variable [DecidableEq N]

/-! ## Uses -/

/-- A use, with the binding it sees. -/
structure Site (N : Type) where
  place : ℕ
  name : N
  id : ℕ
  seen : Option (Key N)

/-- The binding of `name` that is innermost in `env`. -/
def see (env : List (Key N)) (name : N) : Option (Key N) := env.find? fun k => k.name = name

mutual

/-- The uses of a walk with the bindings `env` open, the innermost first. -/
def Shape.sites (env : List (Key N)) : Shape N → List (Site N)
  | .scope last body => sites last env body
  | .bind _ _ _ => []
  | .use place name id => [⟨place, name, id, see env name⟩]

def sites (e : ℕ) (env : List (Key N)) : List (Shape N) → List (Site N)
  | [] => []
  | t :: ts => t.sites env ++ sites e ((t.binds e).reverse ++ env) ts

end

theorem sites_append (e : ℕ) (env : List (Key N)) (as bs : List (Shape N)) :
    sites e env (as ++ bs) = sites e env as ++ sites e ((binds e as).reverse ++ env) bs := by
  induction as generalizing env with
  | nil => rfl
  | cons t ts ih =>
    simp only [cons_append, sites, ih, binds, flatMap_cons, reverse_append, append_assoc]

mutual

theorem Shape.site_id {env : List (Key N)} {u : Site N} : ∀ {t : Shape N}, u ∈ t.sites env → u.id ∈ t.ids
  | .scope last body, h => site_id h
  | .bind _ _ _, h => by simp only [Shape.sites, not_mem_nil] at h
  | .use _ _ _, h => by
    simp only [Shape.sites, mem_singleton] at h
    simp only [Shape.ids, h, mem_singleton]

theorem site_id {e : ℕ} {env : List (Key N)} {u : Site N} :
    ∀ {ts : List (Shape N)}, u ∈ sites e env ts → u.id ∈ ids ts
  | [], h => by simp only [sites, not_mem_nil] at h
  | t :: ts, h => by
    simp only [sites, mem_append] at h
    simp only [ids, mem_append]
    exact h.imp (fun h => Shape.site_id h) (fun h => site_id h)

end

omit [DecidableEq N] in
theorem binds_subset_keys (e : ℕ) (ts : List (Shape N)) : binds e ts ⊆ keys e ts := by
  induction ts with
  | nil => exact nil_subset _
  | cons t ts ih =>
    have ht : t.binds e ⊆ t.keys e := by
      cases t with
      | bind name first id => exact List.Subset.refl _
      | _ => exact nil_subset _
    unfold binds at ih ⊢
    rw [flatMap_cons, keys]
    exact append_subset.mpr ⟨List.Subset.trans ht (subset_append_left _ _),
      List.Subset.trans ih (subset_append_right _ _)⟩

mutual

theorem Shape.seen_mem {env : List (Key N)} {u : Site N} {v : Key N} (hv : u.seen = some v) :
    ∀ {t : Shape N} (e : ℕ), u ∈ t.sites env → v ∈ t.keys e ++ env
  | .scope last body, _, h => seen_mem hv h
  | .bind _ _ _, _, h => absurd h not_mem_nil
  | .use _ name _, _, h => by
    rw [mem_singleton.mp h] at hv
    exact mem_append_right _ (mem_of_find?_eq_some hv)

theorem seen_mem {e : ℕ} {env : List (Key N)} {u : Site N} {v : Key N} (hv : u.seen = some v) :
    ∀ {ts : List (Shape N)}, u ∈ sites e env ts → v ∈ keys e ts ++ env
  | [], h => absurd h not_mem_nil
  | t :: ts, h => by
    rw [keys, append_assoc]
    rcases mem_append.mp h with h | h
    · rcases mem_append.mp (Shape.seen_mem hv e h) with h | h
      · exact mem_append_left _ h
      · exact mem_append_right _ (mem_append_right _ h)
    rcases mem_append.mp (seen_mem hv h) with h | h
    · exact mem_append_right _ (mem_append_left _ h)
    rcases mem_append.mp h with h | h
    · refine mem_append_left _ ?_
      have hone := binds_subset_keys e [t]
      unfold binds at hone
      rw [flatMap_singleton, keys, keys, append_nil] at hone
      exact hone (mem_reverse.mp h)
    · exact mem_append_right _ (mem_append_right _ h)

end

/-! ## The binding with the greatest start -/

/-- One more binding considered for the use of `name` at `p`. -/
def choose (p : ℕ) (name : N) (held : Option (Key N)) (k : Key N) : Option (Key N) :=
  if k.name = name ∧ k.Covers p then
    match held with
    | none => some k
    | some h => if h.first ≤ k.first then some k else held
  else held

/-- Of the bindings of `name` visible at `p`, the one with the greatest start, the last of them. -/
def pick (ks : List (Key N)) (p : ℕ) (name : N) : Option (Key N) := ks.foldl (choose p name) none

theorem choose_skip {p : ℕ} {name : N} {k : Key N} (h : k.name = name → ¬ k.Covers p) (held : Option (Key N)) :
    choose p name held k = held := by
  unfold choose
  rw [if_neg]
  rintro ⟨hname, hcovers⟩
  exact h hname hcovers

theorem choose_take {p : ℕ} {k : Key N} {held : Option (Key N)} (hk : k.Covers p)
    (h : ∀ w, held = some w → w.first ≤ k.first) : choose p k.name held k = some k := by
  unfold choose
  rw [if_pos ⟨rfl, hk⟩]
  cases held with
  | none => rfl
  | some w => exact if_pos (h w rfl)

variable {ks : List (Key N)}

theorem foldl_choose_skip {p : ℕ} {name : N}
    (h : ∀ k ∈ ks, k.name = name → ¬ k.Covers p) (held : Option (Key N)) :
    ks.foldl (choose p name) held = held := by
  induction ks with
  | nil => rfl
  | cons k ks ih =>
    rw [foldl_cons, choose_skip (h k mem_cons_self), ih fun k hk => h k (mem_cons_of_mem _ hk)]

theorem pick_none {p : ℕ} {name : N} (h : ∀ k ∈ ks, k.name = name → ¬ k.Covers p) :
    pick ks p name = none :=
  foldl_choose_skip h none

theorem foldl_choose_spec {p : ℕ} {name : N} {held : Option (Key N)} {v : Key N}
    (h : ks.foldl (choose p name) held = some v) :
    (held = some v ∨ v ∈ ks ∧ v.name = name ∧ v.Covers p) ∧ (∀ w, held = some w → w.first ≤ v.first) ∧
      ∀ w ∈ ks, w.name = name → w.Covers p → w.first ≤ v.first := by
  induction ks generalizing held with
  | nil =>
    simp only [foldl_nil] at h
    refine ⟨.inl h, fun w hw => ?_, nofun⟩
    rw [h, some.injEq] at hw
    rw [hw]
  | cons k ks ih =>
    obtain ⟨hfrom, hheld, hall⟩ := ih h
    by_cases hk : k.name = name ∧ k.Covers p
    · -- `k` is held now, or what was held starts after it.
      have hnow : choose p name held k = some k ∨ ∃ w, held = some w ∧ k.first < w.first ∧
          choose p name held k = some w := by
        unfold choose
        rw [if_pos hk]
        cases held with
        | none => exact .inl rfl
        | some w =>
          by_cases hle : w.first ≤ k.first
          · exact .inl (if_pos hle)
          · exact .inr ⟨w, rfl, by omega, if_neg hle⟩
      rcases hnow with hnow | ⟨w, hw, hlt, hnow⟩
      · have hkv : k.first ≤ v.first := hheld k hnow
        refine ⟨.inr ?_, fun w hw => ?_, fun w hw hname hcovers => ?_⟩
        · rcases hfrom with hfrom | ⟨hmem, hv⟩
          · rw [hnow, some.injEq] at hfrom
            exact ⟨hfrom ▸ mem_cons_self, hfrom ▸ hk⟩
          · exact ⟨mem_cons_of_mem _ hmem, hv⟩
        · unfold choose at hnow
          rw [if_pos hk, hw] at hnow
          dsimp only at hnow
          split at hnow
          · omega
          · rw [some.injEq] at hnow
            subst hnow
            exact hkv
        · rcases mem_cons.mp hw with rfl | hw
          · exact hkv
          · exact hall w hw hname hcovers
      · have hwv : w.first ≤ v.first := hheld w hnow
        refine ⟨?_, fun w' hw' => ?_, fun w' hw' hname hcovers => ?_⟩
        · rcases hfrom with hfrom | ⟨hmem, hv⟩
          · exact .inl (hw ▸ hnow ▸ hfrom)
          · exact .inr ⟨mem_cons_of_mem _ hmem, hv⟩
        · rw [hw, some.injEq] at hw'
          exact hw' ▸ hwv
        · rcases mem_cons.mp hw' with rfl | hw'
          · omega
          · exact hall w' hw' hname hcovers
    · have hskip : choose p name held k = held := choose_skip (fun h₁ h₂ => hk ⟨h₁, h₂⟩) held
      rw [hskip] at hfrom hheld
      refine ⟨hfrom.imp_right fun ⟨hmem, hv⟩ => ⟨mem_cons_of_mem _ hmem, hv⟩, hheld, fun w hw hname hcovers => ?_⟩
      rcases mem_cons.mp hw with rfl | hw
      · exact absurd ⟨hname, hcovers⟩ hk
      · exact hall w hw hname hcovers

theorem pick_covers {p : ℕ} {name : N} {v : Key N} (h : pick ks p name = some v) :
    v.Covers p := by
  rcases (foldl_choose_spec h).1 with h | ⟨-, -, h⟩
  · cases h
  · exact h

theorem pick_mem {p : ℕ} {name : N} {v : Key N} (h : pick ks p name = some v) : v ∈ ks := by
  rcases (foldl_choose_spec h).1 with h | ⟨h, -⟩
  · cases h
  · exact h

theorem le_pick {p : ℕ} {name : N} {v w : Key N} (h : pick ks p name = some v) (hw : w ∈ ks)
    (hname : w.name = name) (hcovers : w.Covers p) : w.first ≤ v.first :=
  (foldl_choose_spec h).2.2 w hw hname hcovers

/-- The one picked: none before it starts later, and all after it start earlier. -/
theorem pick_eq {p : ℕ} {v : Key N} {as bs : List (Key N)} (hv : v.Covers p)
    (has : ∀ w ∈ as, w.name = v.name → w.Covers p → w.first ≤ v.first)
    (hbs : ∀ w ∈ bs, w.name = v.name → w.Covers p → w.first < v.first) :
    pick (as ++ v :: bs) p v.name = some v := by
  have hmid : choose p v.name (as.foldl (choose p v.name) none) v = some v := by
    refine choose_take hv fun h hheld => ?_
    rcases (foldl_choose_spec hheld).1 with hnone | ⟨hmem, hname, hcovers⟩
    · cases hnone
    · exact has h hmem hname hcovers
  have hrest : ∀ ks : List (Key N), (∀ w ∈ ks, w.name = v.name → w.Covers p → w.first < v.first) →
      ks.foldl (choose p v.name) (some v) = some v := by
    intro ks hks
    induction ks with
    | nil => rfl
    | cons k ks ih =>
      have hk : choose p v.name (some v) k = some v := by
        unfold choose
        split
        · next hcond =>
          have hlt : k.first < v.first := hks k mem_cons_self hcond.1 hcond.2
          exact if_neg (by omega)
        · rfl
      rw [foldl_cons, hk]
      exact ih fun w hw => hks w (mem_cons_of_mem _ hw)
  unfold pick
  rw [foldl_append, foldl_cons, hmid]
  exact hrest bs hbs

end Cosmic.Base.Lexical
