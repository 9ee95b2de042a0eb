/-
Tries: what stands at each path, and what changes when what stands at one path is changed.

A node holds a value and its children by step. A trie is altered by going down a path, making the
nodes that are missing; every question about the result is a question about the values at its paths.
-/
import Mathlib.Data.List.Basic

set_option autoImplicit false

namespace Cosmic.Base

open List Option Except

/-- A node, and the nodes below it by step. -/
structure Trie (σ α : Type) where
  value : α
  children : List (σ × Trie σ α)

/-- The list with `x` at `k`, in the place of what stood there or at the end. -/
def put_entry {σ β : Type} [DecidableEq σ] (k : σ) (x : β) : List (σ × β) → List (σ × β)
  | [] => [(k, x)]
  | (k', x') :: es => if k' = k then (k, x) :: es else (k', x') :: put_entry k x es

theorem lookup_put_entry {σ β : Type} [DecidableEq σ] (k k' : σ) (x : β) (es : List (σ × β)) :
    (put_entry k x es).lookup k' = if k' = k then some x else es.lookup k' := by
  induction es with
  | nil =>
    by_cases h : k' = k
    · simp [put_entry, h]
    · simp [put_entry, h]
  | cons e es ih =>
    obtain ⟨k₀, x₀⟩ := e
    by_cases h₀ : k₀ = k
    · rw [put_entry, if_pos h₀, h₀]
      by_cases h : k' = k
      · simp [h]
      · have hbeq : (k' == k) = false := beq_false_of_ne h
        simp [lookup_cons, h, hbeq]
    · rw [put_entry, if_neg h₀]
      by_cases h : k' = k₀
      · simp [h, h₀]
      · have hbeq : (k' == k₀) = false := beq_false_of_ne h
        simp [lookup_cons, hbeq, ih]

namespace Trie

variable {σ α : Type}

/-- A node with nothing below it. -/
def bare (v : α) : Trie σ α := { value := v, children := [] }

variable [DecidableEq σ]

def child (t : Trie σ α) (s : σ) : Option (Trie σ α) := t.children.lookup s

def set_child (t : Trie σ α) (s : σ) (c : Trie σ α) : Trie σ α := { t with children := put_entry s c t.children }

/-- The node at a path. -/
def find : List σ → Trie σ α → Option (Trie σ α)
  | [], t => some t
  | s :: p, t => (t.child s).bind (find p)

/-- Goes down a path, checking the value of each node on it and making those that are missing, and gives the node
it ends at the value `f` answers. -/
def alter {ε β : Type} (default : α) (check : α → Except ε Unit) (f : Trie σ α → Except ε (α × β)) :
    List σ → Trie σ α → Except ε (Trie σ α × β)
  | [], t =>
    match check t.value with
    | .error e => .error e
    | .ok () =>
      match f t with
      | .error e => .error e
      | .ok (v, b) => .ok ({ t with value := v }, b)
  | s :: p, t =>
    match check t.value with
    | .error e => .error e
    | .ok () =>
      match alter default check f p ((t.child s).getD (bare default)) with
      | .error e => .error e
      | .ok (c, b) => .ok (t.set_child s c, b)

/-- The trie with `v` at a path. -/
def put (default v : α) : List σ → Trie σ α → Trie σ α
  | [], t => { t with value := v }
  | s :: p, t => t.set_child s (put default v p ((t.child s).getD (bare default)))

/-- What stands at a path, `default` where there is no node. -/
def value_at (default : α) (p : List σ) (t : Trie σ α) : α := ((find p t).map Trie.value).getD default

/-! ## The values at the paths -/

@[simp] theorem set_child_value (t : Trie σ α) (s : σ) (c : Trie σ α) : (t.set_child s c).value = t.value := rfl

theorem child_set_child (t : Trie σ α) (s s' : σ) (c : Trie σ α) :
    (t.set_child s c).child s' = if s' = s then some c else t.child s' := lookup_put_entry s s' c t.children

@[simp] theorem child_bare (v : α) (s : σ) : (bare v : Trie σ α).child s = none := rfl

@[simp] theorem value_at_nil (default : α) (t : Trie σ α) : value_at default [] t = t.value := rfl

theorem value_at_cons (default : α) (s : σ) (p : List σ) (t : Trie σ α) :
    value_at default (s :: p) t = value_at default p ((t.child s).getD (bare default)) := by
  unfold value_at
  rw [find]
  cases t.child s with
  | some c => rfl
  | none =>
    cases p with
    | nil => rfl
    | cons s' p => rfl

theorem value_at_bare (default : α) (p : List σ) : value_at default p (bare default) = default := by
  cases p <;> rfl

theorem value_at_eq (default : α) (p : List σ) (t : Trie σ α) :
    value_at default p t = ((find p t).getD (bare default)).value := by
  unfold value_at
  cases find p t <;> rfl

theorem value_at_put (default v : α) (p q : List σ) (t : Trie σ α) :
    value_at default q (put default v p t) = if q = p then v else value_at default q t := by
  induction p generalizing q t with
  | nil =>
    cases q with
    | nil => simp [put]
    | cons s q =>
      rw [if_neg (cons_ne_nil _ _), value_at_cons, value_at_cons]
      rfl
  | cons s p ih =>
    cases q with
    | nil => simp [put]
    | cons s' q =>
      rw [value_at_cons, put, child_set_child]
      by_cases h : s' = s
      · subst h
        rw [if_pos rfl, getD_some, ih, value_at_cons default s' q t]
        by_cases hq : q = p
        · rw [if_pos hq, if_pos (by rw [hq])]
        · rw [if_neg hq, if_neg (fun h => hq (List.cons.inj h).2)]
      · rw [if_neg h, if_neg (fun hc => h (List.cons.inj hc).1), value_at_cons]

/-- A trie is altered just where every value on the path passes the check and `f` answers at its end. -/
theorem alter_ok_iff {ε β : Type} {default : α} {check : α → Except ε Unit} {f : Trie σ α → Except ε (α × β)}
    {p : List σ} {t t' : Trie σ α} {b : β} :
    alter default check f p t = .ok (t', b) ↔ (∀ q, q <+: p → check (value_at default q t) = .ok ()) ∧
        ∃ v, f ((find p t).getD (bare default)) = .ok (v, b) ∧ t' = put default v p t := by
  induction p generalizing t t' with
  | nil =>
    have hpath : (∀ q, q <+: ([] : List σ) → check (value_at default q t) = .ok ()) ↔ check t.value = .ok () := by
      constructor
      · exact fun h => h [] (prefix_refl _)
      · intro h q hq
        rwa [prefix_nil.mp hq]
    rw [hpath, alter]
    rcases check t.value with e | u
    · simp
    rcases hf : f t with e | ⟨v, b'⟩
    · simp [find, hf]
    simp only [find, getD_some, hf, ok.injEq, Prod.mk.injEq, true_and, put]
    constructor
    · rintro ⟨rfl, rfl⟩
      exact ⟨v, ⟨rfl, rfl⟩, rfl⟩
    · rintro ⟨v', ⟨rfl, rfl⟩, rfl⟩
      exact ⟨rfl, rfl⟩
  | cons s p ih =>
    have hpath : (∀ q, q <+: s :: p → check (value_at default q t) = .ok ()) ↔ check t.value = .ok () ∧
          ∀ q, q <+: p → check (value_at default q ((t.child s).getD (bare default))) = .ok () := by
      constructor
      · intro h
        refine ⟨h [] (List.nil_prefix), fun q hq => ?_⟩
        rw [← value_at_cons]
        exact h (s :: q) (cons_prefix_cons.mpr ⟨rfl, hq⟩)
      · rintro ⟨h, hbelow⟩ q hq
        rcases prefix_cons_iff.mp hq with rfl | ⟨q', rfl, hq'⟩
        · exact h
        · rw [value_at_cons]
          exact hbelow q' hq'
    have hfind : ((find (s :: p) t).getD (bare default) : Trie σ α) =
        (find p ((t.child s).getD (bare default))).getD (bare default) := by
      rw [find]
      cases t.child s with
      | some c => rfl
      | none => cases p <;> rfl
    rw [hpath, alter, hfind]
    rcases check t.value with e | u
    · simp
    rcases halter : alter default check f p ((t.child s).getD (bare default)) with e | ⟨c, b'⟩
    · constructor
      · exact nofun
      · rintro ⟨⟨-, h⟩, v, hf, -⟩
        have := ih.mpr ⟨h, v, hf, rfl⟩
        rw [halter] at this
        cases this
    · simp only [ok.injEq, Prod.mk.injEq, true_and]
      constructor
      · rintro ⟨rfl, rfl⟩
        obtain ⟨h, v, hf, rfl⟩ := ih.mp halter
        exact ⟨h, v, hf, rfl⟩
      · rintro ⟨h, v, hf, rfl⟩
        have hsame := (ih.mpr ⟨h, v, hf, rfl⟩).symm.trans halter
        rw [ok.injEq, Prod.mk.injEq] at hsame
        exact ⟨by rw [put, hsame.1], hsame.2.symm⟩

/-! ## Nodes that lead nowhere -/

/-- Every node but the root leads to a value that is not `default`. -/
def Pruned (default : α) (t : Trie σ α) : Prop :=
  ∀ q, q ≠ [] → (find q t).isSome = true → ∃ r, value_at default (q ++ r) t ≠ default

theorem find_append (p q : List σ) (t : Trie σ α) : find (p ++ q) t = (find p t).bind (find q) := by
  induction p generalizing t with
  | nil => rfl
  | cons s p ih =>
    rw [cons_append, find, find]
    cases t.child s with
    | some c => exact ih c
    | none => rfl

theorem find_put (default v : α) (p q : List σ) (t : Trie σ α) (h : (find q (put default v p t)).isSome = true) :
    (find q t).isSome = true ∨ q <+: p := by
  induction p generalizing q t with
  | nil =>
    cases q with
    | nil => exact .inl rfl
    | cons s q => exact .inl h
  | cons s p ih =>
    cases q with
    | nil => exact .inl rfl
    | cons s' q =>
      rw [put, find, child_set_child] at h
      by_cases hs : s' = s
      · subst hs
        rw [if_pos rfl, bind_some] at h
        rcases ih _ _ h with h | h
        · rw [find]
          cases hc : t.child s' with
          | some c =>
            rw [hc] at h
            exact .inl h
          | none =>
            rw [hc] at h
            cases q with
            | nil => exact .inr (cons_prefix_cons.mpr ⟨rfl, nil_prefix⟩)
            | cons s q => cases h
        · exact .inr (cons_prefix_cons.mpr ⟨rfl, h⟩)
      · rw [if_neg hs] at h
        exact .inl h

theorem pruned_bare (default : α) : Pruned default (bare default : Trie σ α) := by
  intro q hq h
  cases q with
  | nil => exact absurd rfl hq
  | cons s q => cases h

theorem Pruned.put {default v : α} {t : Trie σ α} (ht : Pruned default t) (hv : v ≠ default) (p : List σ) :
    Pruned default (put default v p t) := by
  intro q hq h
  rcases find_put default v p q t h with h | ⟨r, rfl⟩
  · obtain ⟨r, hr⟩ := ht q hq h
    refine ⟨r, ?_⟩
    rw [value_at_put]
    split_ifs
    · exact hv
    · exact hr
  · exact ⟨r, by rwa [value_at_put, if_pos rfl]⟩

/-- In such a trie a node with nothing below it is one with nothing at the paths below it. -/
theorem Pruned.empty_iff {default : α} {t : Trie σ α} (ht : Pruned default t) (p : List σ) :
    (((find p t).getD (bare default)).children = [] ∧ ((find p t).getD (bare default)).value = default) ↔
      ∀ q, value_at default (p ++ q) t = default := by
  constructor
  · rintro ⟨hchildren, hvalue⟩ q
    unfold value_at
    rw [find_append]
    cases hp : find p t with
    | none => rfl
    | some u =>
      rw [hp] at hchildren hvalue
      cases q with
      | nil => exact hvalue
      | cons s q =>
        have hchild : u.child s = none := by
          rw [child, show u.children = [] from hchildren]
          rfl
        simp [find, hchild]
  · intro h
    have hvalue := h []
    cases hp : find p t with
    | none => exact ⟨rfl, rfl⟩
    | some u =>
      refine ⟨?_, by simpa [value_at, hp] using hvalue⟩
      rcases hc : u.children with _ | ⟨⟨s, c⟩, es⟩
      · simpa using hc
      have hchild : u.child s = some c := by simp [child, hc]
      have hfind : (find (p ++ [s]) t).isSome = true := by
        rw [find_append, hp]
        simp [find, hchild]
      obtain ⟨r, hr⟩ := ht (p ++ [s]) (by simp) hfind
      rw [append_assoc] at hr
      exact absurd (h _) hr

end Trie

end Cosmic.Base
