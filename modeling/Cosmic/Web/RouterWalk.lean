/-
Where a walk of the trie comes to.

The nodes a path reaches are listed in the order of the walk, whatever the method: the walk answers
the first of them that takes the method, and keeps the first of all where that one does not. The
order is that of the patterns compared segment by segment.
-/
import Cosmic.Web.RouterBuild
import Mathlib.Data.List.Lex

set_option autoImplicit false

namespace Cosmic.Web

open Cosmic.Base List

variable {H M : Type}

/-! ## The nodes a path reaches -/

inductive Ending where
  | mount
  | exact
  | wild
deriving DecidableEq, Repr

/-- A node a path reaches: the steps to it, what of it was reached, and the walk's hit there. -/
structure Arrival (H : Type) where
  path : List Step
  ending : Ending
  hit : Hit H

def below (s : Step) (arrivals : List (Arrival H)) : List (Arrival H) :=
  arrivals.map fun a => { a with path := s :: a.path }

/-- The arrivals at routes that end here in `*name`. -/
def wild_here (i : ℕ) (node : Node H) (values : List Bytes) : List (Arrival H) :=
  node.value.wild.toList.map fun methods => ⟨[], .wild, .methods methods values i⟩

/-- The nodes that the segments from the `i`th on reach, in the order of the walk. -/
def reach : List Bytes → ℕ → Node H → List Bytes → List (Arrival H)
  | rest, i, node, values =>
    match node.value.mount with
    | some mount => [⟨[], .mount, .mount mount i⟩]
    | none =>
      match rest with
      | [] => (node.value.exact.toList.map fun methods => ⟨[], .exact, .methods methods values 0⟩) ++ wild_here i node values
      | segment :: rest =>
        below (.literal segment) ((node.child (.literal segment)).elim [] fun child => reach rest (i + 1) child values) ++
          below .any ((node.child .any).elim [] fun child => reach rest (i + 1) child (values ++ [segment])) ++
          wild_here i node values

def takes (method : Bytes) : Hit H → Bool
  | .methods methods _ _ => answers methods method
  | .mount .. => true

/-- A hit kept for the methods at it alone. -/
def forget : Hit H → Hit H
  | .methods methods _ rest_from => .methods methods [] rest_from
  | .mount mount start => .mount mount start

/-- The first hit that takes the method, and the first of all where it does not. -/
def scan (method : Bytes) (hits : List (Hit H)) (other : Option (Hit H)) : Option (Hit H) × Option (Hit H) :=
  (hits.find? (takes method), other.or ((hits.head?.filter fun hit => !takes method hit).map forget))

theorem scan_append (method : Bytes) (hits hits' : List (Hit H)) (other : Option (Hit H)) :
    scan method (hits ++ hits') other = or_else (scan method hits other) fun other => scan method hits' other := by
  rcases hits with _ | ⟨hit, hits⟩
  · cases other <;> simp [scan, or_else]
  rcases hfind : (hit :: hits).find? (takes method) with _ | found
  · have hhead : takes method hit = false := by
      have := find?_eq_none.mp hfind hit mem_cons_self
      simpa using this
    have hscan : scan method (hit :: hits) other = (none, other.or (some (forget hit))) := by
      rw [scan, hfind, head?_cons]
      simp [hhead, Option.filter]
    rw [hscan, or_else]
    rw [scan, scan, find?_append, hfind]
    cases other <;> simp [hhead, Option.filter]
  · rw [scan, scan, find?_append, hfind]
    rfl

theorem settle_at_eq (method : Bytes) (held : Option (Methods H)) (values : List Bytes) (rest_from : ℕ) (other : Option (Hit H)) :
    settle_at method held values rest_from other =
      scan method (held.toList.map fun methods => .methods methods values rest_from) other := by
  cases held with
  | none => cases other <;> simp [settle_at, scan]
  | some methods =>
    rw [settle_at, settle]
    rcases ha : answers methods method with _ | _
    · cases other <;> simp [scan, takes, ha, forget]
    · cases other <;> simp [scan, takes, ha]

theorem map_hit_below (s : Step) (arrivals : List (Arrival H)) : (below s arrivals).map Arrival.hit = arrivals.map Arrival.hit := by
  rw [below, map_map]
  rfl

/-- The walk answers the first node reached that takes the method, and keeps the first of all where that does not. -/
theorem walk_eq (method : Bytes) (rest : List Bytes) : ∀ (i : ℕ) (node : Node H) (values : List Bytes) (other : Option (Hit H)),
    walk method rest i node values other = scan method ((reach rest i node values).map Arrival.hit) other := by
  induction rest with
  | nil =>
    intro i node values other
    rw [walk, reach]
    rcases node.value.mount with _ | mount
    · rw [map_append, scan_append, wild_here, map_map, map_map, settle_at_eq]
      exact congrArg _ (funext fun other' => settle_at_eq method _ values i other')
    · cases other <;> rfl
  | cons segment rest ih =>
    intro i node values other
    have hchild : ∀ (child : Option (Node H)) (values : List Bytes) (other : Option (Hit H)),
        (child.elim (none, other) fun child => walk method rest (i + 1) child values other) =
          scan method ((child.elim [] fun child => reach rest (i + 1) child values).map Arrival.hit) other := by
      intro child values other
      cases child with
      | some child => exact ih (i + 1) child values other
      | none => cases other <;> rfl
    rw [walk, reach]
    rcases node.value.mount with _ | mount
    · dsimp only
      rw [append_assoc, map_append, map_append, map_hit_below, map_hit_below, scan_append, hchild]
      refine congrArg _ (funext fun other' => ?_)
      rw [scan_append, hchild]
      refine congrArg _ (funext fun other'' => ?_)
      rw [settle_at_eq, wild_here, map_map]
      rfl
    · cases other <;> rfl

/-! ## Which nodes -/

/-- The segments a path takes for its parameters, and those after it, where it matches. -/
def captured : List Step → List Bytes → Option (List Bytes × List Bytes)
  | [], rest => some ([], rest)
  | _ :: _, [] => none
  | .literal text :: p, segment :: rest => if segment = text then captured p rest else none
  | .any :: p, segment :: rest => (captured p rest).map fun (values, rest) => (segment :: values, rest)

/-- The hit of a walk that ends at `content` so, with `values` captured, `rest` left, and `i` segments and one passed. -/
def Stands (content : Content (Mount H) H) (values rest : List Bytes) (i : ℕ) : Ending → Hit H → Prop
  | .mount, hit => ∃ m, content.mount = some m ∧ hit = .mount m i
  | .exact, hit => content.mount = none ∧ rest = [] ∧ ∃ ms, content.exact = some ms ∧ hit = .methods ms values 0
  | .wild, hit => content.mount = none ∧ ∃ ms, content.wild = some ms ∧ hit = .methods ms values i

/-- What a path reaches by its steps. -/
structure Arrives (rest : List Bytes) (i : ℕ) (node : Node H) (values : List Bytes) (a : Arrival H) : Prop where
  unmounted : ∀ q, q <+: a.path → q ≠ a.path → mounted q node = none
  stands : ∃ vs rem, captured a.path rest = some (vs, rem) ∧
    Stands (Trie.value_at {} a.path node) (values ++ vs) rem (i + a.path.length) a.ending a.hit

theorem value_at_child (s : Step) (p : List Step) (node : Node H) :
    Trie.value_at {} (s :: p) node = Trie.value_at {} p ((node.child s).getD (new_node H)) := Trie.value_at_cons _ s p node

theorem mounted_cons (s : Step) (p : List Step) (node : Node H) :
    mounted (s :: p) node = mounted p ((node.child s).getD (new_node H)) := by
  rw [mounted, value_at_child, mounted]

variable {s : Step} {node : Node H}

theorem unmounted_cons {p : List Step} : (∀ q, q <+: s :: p → q ≠ s :: p → mounted q node = none) ↔
      mounted [] node = none ∧ ∀ q, q <+: p → q ≠ p → mounted q ((node.child s).getD (new_node H)) = none := by
  constructor
  · intro h
    refine ⟨h [] nil_prefix (cons_ne_nil _ _).symm, fun q hq hne => ?_⟩
    rw [← mounted_cons]
    exact h (s :: q) (cons_prefix_cons.mpr ⟨rfl, hq⟩) (fun h => hne (List.cons.inj h).2)
  · rintro ⟨hnil, h⟩ q hq hne
    rcases prefix_cons_iff.mp hq with rfl | ⟨q', rfl, hq'⟩
    · exact hnil
    · rw [mounted_cons]
      exact h q' hq' fun h => hne (by rw [h])

variable {rest values : List Bytes} {i : ℕ}

theorem arrives_cons {segment : Bytes} {vs : List Bytes} {p : List Step} {ending : Ending} {hit : Hit H}
    (hstep : captured (s :: p) (segment :: rest) = (captured p rest).map fun (w, rem) => (vs ++ w, rem)) :
    Arrives (segment :: rest) i node values ⟨s :: p, ending, hit⟩ ↔ mounted [] node = none ∧
        Arrives rest (i + 1) ((node.child s).getD (new_node H)) (values ++ vs) ⟨p, ending, hit⟩ := by
  have hlength : i + (s :: p).length = i + 1 + p.length := by
    rw [length_cons]
    omega
  constructor
  · rintro ⟨hunmounted, ws, rem, hcaptured, hstands⟩
    obtain ⟨hnil, hunmounted⟩ := unmounted_cons.mp hunmounted
    rw [hstep] at hcaptured
    obtain ⟨⟨w, rem'⟩, hp, heq⟩ := Option.map_eq_some_iff.mp hcaptured
    obtain ⟨rfl, rfl⟩ := Prod.mk.inj heq
    rw [value_at_child, hlength, ← append_assoc] at hstands
    exact ⟨hnil, hunmounted, w, rem', hp, hstands⟩
  · rintro ⟨hnil, hunmounted, w, rem, hcaptured, hstands⟩
    refine ⟨unmounted_cons.mpr ⟨hnil, hunmounted⟩, vs ++ w, rem, ?_, ?_⟩
    · rw [hstep, hcaptured]
      rfl
    · rwa [value_at_child, hlength, ← append_assoc]

variable {a : Arrival H}

theorem mem_below {arrivals : List (Arrival H)} :
    a ∈ below s arrivals ↔ ∃ p, a.path = s :: p ∧ ⟨p, a.ending, a.hit⟩ ∈ arrivals := by
  rw [below, mem_map]
  constructor
  · rintro ⟨b, hb, rfl⟩
    exact ⟨b.path, rfl, hb⟩
  · rintro ⟨p, hp, hmem⟩
    refine ⟨_, hmem, ?_⟩
    obtain ⟨path, ending, hit⟩ := a
    subst hp
    rfl

theorem captured_nil_rest (s : Step) (p : List Step) : captured (s :: p) [] = none := by
  cases s <;> rfl

theorem not_arrives_new : ¬Arrives rest i (new_node H) values a := by
  rintro ⟨-, vs, rem, -, hstands⟩
  obtain ⟨p, ending, hit⟩ := a
  cases ending <;> simp [Stands, value_at_new] at hstands

theorem arrives_nil {ending : Ending} {hit : Hit H} :
    Arrives rest i node values ⟨[], ending, hit⟩ ↔ Stands node.value values rest i ending hit := by
  constructor
  · rintro ⟨-, vs, rem, hcaptured, hstands⟩
    cases hcaptured
    rwa [append_nil] at hstands
  · intro h
    refine ⟨fun q hq hne => absurd (prefix_nil.mp hq) hne, [], rest, rfl, ?_⟩
    rwa [append_nil]

theorem mem_wild_here :
    a ∈ wild_here i node values ↔ a.path = [] ∧ a.ending = .wild ∧ ∃ ms, node.value.wild = some ms ∧ a.hit = .methods ms values i := by
  rw [wild_here, mem_map]
  simp only [Option.mem_toList]
  constructor
  · rintro ⟨ms, hms, rfl⟩
    exact ⟨rfl, rfl, ms, hms, rfl⟩
  · rintro ⟨hp, he, ms, hms, hhit⟩
    refine ⟨ms, hms, ?_⟩
    obtain ⟨path, ending, hit⟩ := a
    subst hp he hhit
    rfl

theorem mem_exact_here :
    a ∈ (node.value.exact.toList.map fun methods => (⟨[], .exact, .methods methods values 0⟩ : Arrival H)) ↔
      a.path = [] ∧ a.ending = .exact ∧ ∃ ms, node.value.exact = some ms ∧ a.hit = .methods ms values 0 := by
  rw [mem_map]
  simp only [Option.mem_toList]
  constructor
  · rintro ⟨ms, hms, rfl⟩
    exact ⟨rfl, rfl, ms, hms, rfl⟩
  · rintro ⟨hp, he, ms, hms, hhit⟩
    refine ⟨ms, hms, ?_⟩
    obtain ⟨path, ending, hit⟩ := a
    subst hp he hhit
    rfl

theorem arrives_mounted {mount : Mount H} (h : node.value.mount = some mount) :
    Arrives rest i node values a ↔ a = ⟨[], .mount, .mount mount i⟩ := by
  obtain ⟨p, ending, hit⟩ := a
  rcases p with _ | ⟨s, p⟩
  · rw [arrives_nil]
    cases ending with
    | mount =>
      rw [Stands, h]
      simp
    | exact => simp [Stands, h]
    | wild => simp [Stands, h]
  · constructor
    · intro ha
      have hnone := ha.unmounted [] nil_prefix (cons_ne_nil _ _).symm
      rw [mounted, Trie.value_at_nil, h] at hnone
      cases hnone
    · exact fun ha => absurd (congrArg Arrival.path ha) (cons_ne_nil _ _)

/-- The nodes reached are those that a path matching the segments leads to, past no mount. -/
theorem mem_reach (rest : List Bytes) : ∀ {i : ℕ} {node : Node H} {values : List Bytes} {a : Arrival H},
    a ∈ reach rest i node values ↔ Arrives rest i node values a := by
  induction rest with
  | nil =>
    intro i node values a
    rw [reach]
    rcases hmount : node.value.mount with _ | mount
    · obtain ⟨p, ending, hit⟩ := a
      rw [mem_append, mem_exact_here, mem_wild_here]
      rcases p with _ | ⟨s, p⟩
      · rw [arrives_nil]
        cases ending <;> simp [Stands, hmount]
      · constructor
        · rintro (⟨h, -⟩ | ⟨h, -⟩) <;> exact absurd h (cons_ne_nil _ _)
        · rintro ⟨-, vs, rem, hcaptured, -⟩
          exact absurd ((captured_nil_rest s p).symm.trans hcaptured) (by simp)
    · rw [arrives_mounted hmount]
      exact mem_singleton
  | cons segment rest ih =>
    intro i node values a
    have hchild : ∀ (child : Option (Node H)) (values : List Bytes) (a : Arrival H),
        (a ∈ child.elim [] fun child => reach rest (i + 1) child values) ↔
          Arrives rest (i + 1) (child.getD (new_node H)) values a := by
      intro child values a
      cases child with
      | some child => exact ih
      | none => exact ⟨nofun, fun h => absurd h not_arrives_new⟩
    rw [reach]
    rcases hmount : node.value.mount with _ | mount
    · dsimp only
      have hnil : mounted [] node = none := hmount
      obtain ⟨p, ending, hit⟩ := a
      rw [mem_append, mem_append, mem_below, mem_below, mem_wild_here]
      rcases p with _ | ⟨s, p⟩
      · rw [arrives_nil]
        cases ending <;> simp [Stands, hmount]
      cases s with
      | literal text =>
        by_cases hsame : segment = text
        · subst hsame
          have hstep : captured (.literal segment :: p) (segment :: rest) =
              (captured p rest).map fun (w, rem) => ([] ++ w, rem) := by
            rw [captured, if_pos rfl]
            cases captured p rest <;> rfl
          rw [arrives_cons hstep, append_nil, ← hchild]
          simp [hnil]
        · constructor
          · rintro ((⟨p', h, -⟩ | ⟨p', h, -⟩) | ⟨h, -⟩)
            · exact absurd (Step.literal.inj (List.cons.inj h).1).symm hsame
            · exact absurd (List.cons.inj h).1 (by simp)
            · exact absurd h (cons_ne_nil _ _)
          · rintro ⟨-, vs, rem, hcaptured, -⟩
            rw [captured, if_neg hsame] at hcaptured
            cases hcaptured
      | any =>
        have hstep : captured (.any :: p) (segment :: rest) =
            (captured p rest).map fun (w, rem) => ([segment] ++ w, rem) := rfl
        rw [arrives_cons hstep, ← hchild]
        simp [hnil]
    · rw [arrives_mounted hmount]
      exact mem_singleton

/-! ## In which order -/

/-- A literal comes before a parameter. -/
def rank : Step → ℕ
  | .literal _ => 0
  | .any => 1

/-- An ending comes after both, and `*name` after it. -/
def Ending.rank : Ending → ℕ
  | .mount => 0
  | .exact => 2
  | .wild => 3

/-- Patterns are compared by this, segment by segment. -/
def key (p : List Step) (ending : Ending) : List ℕ := p.map rank ++ [ending.rank]

theorem key_cons (s : Step) (p : List Step) (ending : Ending) : key (s :: p) ending = rank s :: key p ending := rfl

theorem pairwise_below {arrivals : List (Arrival H)}
    (h : arrivals.Pairwise fun a b => key a.path a.ending < key b.path b.ending) :
    (below s arrivals).Pairwise fun a b => key a.path a.ending < key b.path b.ending := by
  rw [below, pairwise_map]
  refine h.imp fun {a b} hab => ?_
  rw [key_cons, key_cons]
  exact cons_lt_cons_iff.mpr (.inr ⟨rfl, hab⟩)

theorem wild_here_pairwise (i : ℕ) (node : Node H) (values : List Bytes) :
    (wild_here i node values).Pairwise fun a b => key a.path a.ending < key b.path b.ending := by
  rw [wild_here]
  cases node.value.wild <;> simp

/-- The walk takes the nodes in the order of their patterns. -/
theorem reach_pairwise (rest : List Bytes) : ∀ (i : ℕ) (node : Node H) (values : List Bytes),
    (reach rest i node values).Pairwise fun a b => key a.path a.ending < key b.path b.ending := by
  induction rest with
  | nil =>
    intro i node values
    rw [reach]
    rcases node.value.mount with _ | mount
    · refine pairwise_append.mpr ⟨?_, wild_here_pairwise i node values, fun a ha b hb => ?_⟩
      · cases node.value.exact <;> simp
      · obtain ⟨hpa, hea, -⟩ := mem_exact_here.mp ha
        obtain ⟨hpb, heb, -⟩ := mem_wild_here.mp hb
        rw [hpa, hea, hpb, heb]
        decide
    · exact pairwise_singleton _ _
  | cons segment rest ih =>
    intro i node values
    have hchild : ∀ (child : Option (Node H)) (values : List Bytes),
        (child.elim [] fun child => reach rest (i + 1) child values).Pairwise
          fun a b => key a.path a.ending < key b.path b.ending := by
      intro child values
      cases child with
      | some child => exact ih (i + 1) child values
      | none => exact .nil
    rw [reach]
    rcases node.value.mount with _ | mount
    · have hlt : ∀ {s : Step} {p : List Step} {e : Ending} {c : ℕ} {k : List ℕ}, rank s < c → key (s :: p) e < c :: k :=
        fun h => cons_lt_cons_iff.mpr (.inl h)
      refine pairwise_append.mpr ⟨pairwise_append.mpr
        ⟨pairwise_below (hchild _ _), pairwise_below (hchild _ _), fun a ha b hb => ?_⟩,
        wild_here_pairwise i node values, fun a ha b hb => ?_⟩
      · obtain ⟨p, hp, -⟩ := mem_below.mp ha
        obtain ⟨q, hq, -⟩ := mem_below.mp hb
        rw [hp, hq]
        exact hlt Nat.zero_lt_one
      · obtain ⟨hpb, heb, -⟩ := mem_wild_here.mp hb
        rw [hpb, heb]
        rcases mem_append.mp ha with ha | ha
        · obtain ⟨p, hp, -⟩ := mem_below.mp ha
          rw [hp]
          exact hlt (Nat.zero_lt_succ 2)
        · obtain ⟨p, hp, -⟩ := mem_below.mp ha
          rw [hp]
          exact hlt (by decide)
    · exact pairwise_singleton _ _

/-- Of a list in order, the first that passes a test comes before every other that does. -/
theorem find_first {α : Type} {k : α → List ℕ} {test : α → Bool} {xs : List α} {x y : α}
    (h : xs.Pairwise fun a b => k a < k b) (hx : xs.find? test = some x) (hy : y ∈ xs) (hpass : test y = true) : k x ≤ k y := by
  obtain ⟨-, before, after, rfl, hbefore⟩ := find?_eq_some_iff_append.mp hx
  rcases mem_append.mp hy with hy | hy
  · have := hbefore y hy
    rw [hpass] at this
    cases this
  · rcases mem_cons.mp hy with rfl | hy
    · exact le_refl _
    · exact le_of_lt ((pairwise_cons.mp (pairwise_append.mp h).2.1).1 y hy)

end Cosmic.Web
