/-
What a trie holds once routes have been added to it, and which routes may be added.

A trie represents the routes of a level: what stands at a path is what the routes of that place say.
Adding a route succeeds just where it is good by itself and compatible with each route already there,
and compatibility does not look at which came first.
-/
import Cosmic.Web.Router

set_option autoImplicit false

namespace Cosmic.Web

open Cosmic.Base List Except

variable {H M : Type}

/-! ## Places -/

/-- Where a leaf route stands, and whether it ends in `*name`. -/
def leaf_place : Route H M → Option (List Step × Bool)
  | .leaf _ pattern _ _ _ => (parse pattern false).toOption.map fun parsed => (steps parsed.segments, parsed.wild)
  | _ => none

def mount_place : Route H M → Option (List Step)
  | .leaf .. => none
  | .fallback pattern .. => (parse pattern true).toOption.map fun parsed => steps parsed.segments
  | .mount pattern .. => (parse pattern true).toOption.map fun parsed => steps parsed.segments

def methods_of : Route H M → List Bytes
  | .leaf methods .. => methods
  | _ => []

/-- Two routes that may stand in one level: no two leaves answer a method for the same paths, and nothing stands at or
under a mount. -/
structure Compatible (r r' : Route H M) : Prop where
  leaves : ∀ place, leaf_place r = some place → leaf_place r' = some place → ∀ m ∈ methods_of r, m ∉ methods_of r'
  below : ∀ p place, mount_place r = some p → leaf_place r' = some place → ¬p <+: place.1
  below' : ∀ p place, mount_place r' = some p → leaf_place r = some place → ¬p <+: place.1
  mounts : ∀ p p', mount_place r = some p → mount_place r' = some p' → ¬p <+: p' ∧ ¬p' <+: p

variable {r : Route H M}

theorem Compatible.symm {r' : Route H M} (h : Compatible r r') : Compatible r' r where
  leaves place hr hr' m hm hm' := h.leaves place hr' hr m hm' hm
  below := h.below'
  below' := h.below
  mounts p p' hp hp' := (h.mounts p' p hp' hp).symm

def mount_rules (ctx : Context H M) (pattern name : Bytes) (parsed : Parsed) : Prop :=
  parse pattern true = .ok parsed ∧ (ctx.keep_prefix && reserved ctx.at_prefix parsed.segments) = false ∧
    ¬(name ≠ [] ∧ name.contains 58 = true)

mutual

/-- A route that may be registered, whatever stands beside it. -/
def Good (ctx : Context H M) : Route H M → Prop
  | .leaf methods pattern _ handler _ =>
    ∃ parsed, parse pattern false = .ok parsed ∧ handler.isSome = true ∧ methods ≠ [] ∧
      (ctx.keep_prefix && reserved ctx.at_prefix parsed.segments) = false ∧
      (∀ m ∈ methods, is_method m = true) ∧ methods.Nodup
  | .fallback pattern name _ _ => ∃ parsed, mount_rules ctx pattern name parsed
  | .mount pattern name middleware routes =>
    ∃ parsed, mount_rules ctx pattern name parsed ∧ routes.Pairwise Compatible ∧
      GoodAll (inner_context ctx parsed.segments name middleware) routes

def GoodAll (ctx : Context H M) : List (Route H M) → Prop
  | [] => True
  | route :: routes => Good ctx route ∧ GoodAll ctx routes

end

mutual

def names_of (ctx : Context H M) : Route H M → List Bytes
  | .leaf _ _ name _ _ => if full_name ctx name = [] then [] else [full_name ctx name]
  | .fallback _ name _ _ => if name = [] then [] else [ctx.name_prefix ++ name]
  | .mount pattern name middleware routes =>
    (match parse pattern true with
      | .ok parsed => names_of_all (inner_context ctx parsed.segments name middleware) routes
      | .error _ => []) ++ if name = [] then [] else [ctx.name_prefix ++ name]

def names_of_all (ctx : Context H M) : List (Route H M) → List Bytes
  | [] => []
  | route :: routes => names_of ctx route ++ names_of_all ctx routes

end

mutual

/-- The methods a route answers, its mounts' included. -/
def verbs_of : Route H M → List Bytes
  | .leaf methods .. => methods
  | .fallback .. => []
  | .mount _ _ _ routes => verbs_of_all routes

def verbs_of_all : List (Route H M) → List Bytes
  | [] => []
  | route :: routes => verbs_of route ++ verbs_of_all routes

end

/-! ## What stands at a place -/

/-- The routes at a place. -/
def slot (wild : Bool) (p : List Step) (root : Node H) : Option (Methods H) :=
  if wild then (Trie.value_at {} p root).wild else (Trie.value_at {} p root).exact

/-- The route at a place for a method. -/
def held (wild : Bool) (p : List Step) (root : Node H) (m : Bytes) : Option (Terminal H) :=
  (slot wild p root).bind fun methods => methods.by_method.lookup m

def mounted (p : List Step) (root : Node H) : Option (Mount H) := (Trie.value_at {} p root).mount

variable (compose : List M → H → H)

inductive LeafAt (ctx : Context H M) : Route H M → Bool → List Step → Bytes → Terminal H → Prop where
  | leaf {methods : List Bytes} {pattern name : Bytes} {handler : H} {middleware : List M} {parsed : Parsed} {m : Bytes}
      (hparse : parse pattern false = .ok parsed) (hm : m ∈ methods) :
      LeafAt ctx (.leaf methods pattern name (some handler) middleware) parsed.wild (steps parsed.segments) m
        (terminal_of compose ctx parsed methods name handler middleware)

inductive MountAt (ctx : Context H M) : Route H M → List Step → Mount H → Prop where
  | fallback {pattern name : Bytes} {middleware : List M} {handler : H} {parsed : Parsed} {mount : Mount H}
      {tables tables' : Tables} (hparse : parse pattern true = .ok parsed)
      (hmade : handler_mount compose ctx name middleware handler tables parsed = .ok (mount, tables')) :
      MountAt ctx (.fallback pattern name middleware handler) (steps parsed.segments) mount
  | mount {pattern name : Bytes} {middleware : List M} {routes : List (Route H M)} {parsed : Parsed} {sub : Node H}
      {tables tables' : Tables} (hparse : parse pattern true = .ok parsed)
      (hmade : compile compose (inner_context ctx parsed.segments name middleware) routes (new_node H) tables =
        .ok (sub, tables')) :
      MountAt ctx (.mount pattern name middleware routes) (steps parsed.segments)
        (.router ( full_prefix ctx parsed.segments)
          { root := sub, policy := ctx.policy
            miss := compose (inner_context ctx parsed.segments name middleware).chain ctx.terminal
            mount_path := full_prefix ctx parsed.segments })

/-- A trie that holds just what `routes` say. -/
structure Represents (ctx : Context H M) (routes : List (Route H M)) (root : Node H) : Prop where
  leaves : ∀ wild p m t, held wild p root m = some t ↔ ∃ r ∈ routes, LeafAt compose ctx r wild p m t
  slots : ∀ wild p, (slot wild p root).isSome = true → ∃ m t, held wild p root m = some t
  mounts : ∀ p m, mounted p root = some m → ∃ r ∈ routes, MountAt compose ctx r p m
  answered : ∀ r ∈ routes, ∀ place, leaf_place r = some place → ∀ m ∈ methods_of r,
    (held place.2 place.1 root m).isSome = true
  places : ∀ r ∈ routes, ∀ p, mount_place r = some p → (mounted p root).isSome = true
  pruned : Trie.Pruned {} root

variable {compose} {ctx : Context H M}

variable {p : List Step}

theorem LeafAt.place {wild : Bool} {m : Bytes} {t : Terminal H} (h : LeafAt compose ctx r wild p m t) :
    leaf_place r = some (p, wild) ∧ m ∈ methods_of r := by
  cases h with
  | leaf hparse hm => exact ⟨by rw [leaf_place, hparse]; rfl, hm⟩

theorem MountAt.place {m : Mount H} (h : MountAt compose ctx r p m) : mount_place r = some p := by
  cases h with
  | fallback hparse => rw [mount_place, hparse]; rfl
  | mount hparse => rw [mount_place, hparse]; rfl

theorem value_at_new (p : List Step) : Trie.value_at {} p (new_node H) = {} := Trie.value_at_bare _ p

theorem represents_nil : Represents compose ctx [] (new_node H) where
  leaves wild p m t := by simp [held, slot, value_at_new]
  slots wild p h := by simp [slot, value_at_new] at h
  mounts p m h := by simp [mounted, value_at_new] at h
  answered r hr := absurd hr not_mem_nil
  places r hr := absurd hr not_mem_nil
  pruned := Trie.pruned_bare _

/-! ## Adding a leaf -/

variable {what : Bytes}

theorem pass_iff {content : Content (Mount H) H} : pass what content = .ok () ↔ content.mount = none := by
  rw [pass]
  cases content.mount <;> simp

variable {terminal : Terminal H} {methods : List Bytes}

theorem add_methods_of :
    ∀ (by_method : Table Bytes (Terminal H)) (verbs : List Bytes), (∀ m ∈ methods, is_method m = true) → methods.Nodup →
      (∀ m ∈ methods, by_method.lookup m = none) →
        ∃ result, add_methods what terminal methods by_method verbs = .ok result := by
  induction methods with
  | nil => exact fun _ _ _ _ _ => ⟨_, rfl⟩
  | cons m methods ih =>
    intro by_method verbs hmethod hnodup hfree
    have hnodup' := nodup_cons.mp hnodup
    have hfree' : ∀ m' ∈ methods, (by_method.insert m terminal).lookup m' = none := by
      intro m' hm'
      have hne : m' ≠ m := fun h => hnodup'.1 (h ▸ hm')
      rw [AList.lookup_insert_ne hne]
      exact hfree m' (mem_cons_of_mem _ hm')
    obtain ⟨result, hresult⟩ := ih _ (if verbs.contains m then verbs else verbs ++ [m])
      (fun m' hm' => hmethod m' (mem_cons_of_mem _ hm')) hnodup'.2 hfree'
    refine ⟨result, ?_⟩
    rwa [add_methods, hmethod m mem_cons_self, hfree m mem_cons_self]

/-- What a table of methods holds once a route has been added to it. -/
structure Added (terminal : Terminal H) (methods : List Bytes) (by_method by_method' : Table Bytes (Terminal H))
    (verbs verbs' : List Bytes) : Prop where
  known : ∀ m ∈ methods, is_method m = true
  distinct : methods.Nodup
  free : ∀ m ∈ methods, by_method.lookup m = none
  taken : ∀ m, by_method'.lookup m = if m ∈ methods then some terminal else by_method.lookup m
  mem_verbs : ∀ m, m ∈ verbs' ↔ m ∈ verbs ∨ m ∈ methods
  verbs_nodup : verbs.Nodup → verbs'.Nodup

theorem add_methods_ok : ∀ {by_method by_method' : Table Bytes (Terminal H)} {verbs verbs' : List Bytes},
      add_methods what terminal methods by_method verbs = .ok (by_method', verbs') →
        Added terminal methods by_method by_method' verbs verbs' := by
  induction methods with
  | nil =>
    intro by_method by_method' verbs verbs' h
    cases h
    exact ⟨by simp, by simp, by simp, by simp, by simp, id⟩
  | cons m methods ih =>
    intro by_method by_method' verbs verbs' h
    rw [add_methods] at h
    by_cases hmethod : is_method m = true
    · rcases hlookup : by_method.lookup m with _ | taken
      · rw [hlookup] at h
        simp only [hmethod, Bool.not_true, Bool.false_eq_true, if_false] at h
        have hadded := ih h
        have hfresh : m ∉ methods := fun hm => by
          have := hadded.free m hm
          rw [AList.lookup_insert] at this
          cases this
        refine ⟨?_, nodup_cons.mpr ⟨hfresh, hadded.distinct⟩, ?_, ?_, ?_, ?_⟩
        · exact forall_mem_cons.mpr ⟨hmethod, hadded.known⟩
        · refine forall_mem_cons.mpr ⟨hlookup, fun m' hm' => ?_⟩
          have hne : m' ≠ m := fun h => hfresh (h ▸ hm')
          have := hadded.free m' hm'
          rwa [AList.lookup_insert_ne hne] at this
        · intro m'
          rw [hadded.taken m']
          by_cases hm' : m' ∈ methods
          · rw [if_pos hm', if_pos (mem_cons_of_mem _ hm')]
          · by_cases hsame : m' = m
            · rw [if_neg hm', if_pos (by rw [hsame]; exact mem_cons_self), hsame, AList.lookup_insert]
            · rw [if_neg hm', if_neg (by simp [hsame, hm']), AList.lookup_insert_ne hsame]
        · intro m'
          rw [hadded.mem_verbs m']
          by_cases hc : verbs.contains m = true
          · have hmem := contains_iff_mem.mp hc
            rw [if_pos hc, mem_cons]
            constructor
            · rintro (h | h)
              · exact .inl h
              · exact .inr (.inr h)
            · rintro (h | rfl | h)
              · exact .inl h
              · exact .inl hmem
              · exact .inr h
          · rw [if_neg hc, mem_append, mem_singleton, mem_cons, or_assoc]
        · intro hnodup
          refine hadded.verbs_nodup ?_
          by_cases hc : verbs.contains m = true
          · rwa [if_pos hc]
          rw [if_neg hc]
          refine nodup_append.mpr ⟨hnodup, nodup_singleton m, ?_⟩
          rintro a ha b hb rfl
          rw [mem_singleton] at hb
          subst hb
          exact hc (contains_iff_mem.mpr ha)
      · rw [hlookup] at h
        simp [hmethod] at h
    · simp [hmethod] at h

theorem slot_put_leaf (wild : Bool) (p : List Step) (root : Node H) (methods : Methods H) (w : Bool) (q : List Step) :
    slot w q (Trie.put {} (if wild then { Trie.value_at {} p root with wild := some methods }
      else { Trie.value_at {} p root with exact := some methods }) p root) =
      if q = p ∧ w = wild then some methods else slot w q root := by
  unfold slot
  rw [Trie.value_at_put]
  by_cases hq : q = p
  · subst hq
    cases w <;> cases wild <;> simp
  · simp [hq]

theorem mounted_put_leaf (wild : Bool) (p : List Step) (root : Node H) (methods : Methods H) (q : List Step) :
    mounted q (Trie.put {} (if wild then { Trie.value_at {} p root with wild := some methods }
      else { Trie.value_at {} p root with exact := some methods }) p root) = mounted q root := by
  unfold mounted
  rw [Trie.value_at_put]
  by_cases hq : q = p
  · subst hq
    cases wild <;> simp
  · simp [hq]

structure Registered (compose : List M → H → H) (ctx : Context H M) (done : List (Route H M)) (r : Route H M)
    (root' : Node H) (tables tables' : Tables) : Prop where
  good : Good ctx r
  compatible : ∀ d ∈ done, Compatible d r
  represents : Represents compose ctx (done ++ [r]) root'
  names : tables'.names = tables.names ++ names_of ctx r
  distinct : tables.names.Nodup → tables'.names.Nodup
  mem_verbs : ∀ m, m ∈ tables'.verbs ↔ m ∈ tables.verbs ∨ m ∈ verbs_of r
  verbs_nodup : tables.verbs.Nodup → tables'.verbs.Nodup

theorem name_it_ok {names names' : List Bytes} {full : Bytes} (h : name_it names full what = .ok names') :
    full ∉ names ∧ names' = names ++ [full] := by
  rw [name_it] at h
  by_cases hc : names.contains full = true
  · simp only [hc, if_true] at h
    cases h
  · rw [if_neg hc] at h
    exact ⟨fun hm => hc (contains_iff_mem.mpr hm), (ok.inj h).symm⟩

theorem nodup_snoc {names : List Bytes} {full : Bytes} (hnodup : names.Nodup) (h : full ∉ names) : (names ++ [full]).Nodup := by
  refine nodup_append.mpr ⟨hnodup, nodup_singleton full, ?_⟩
  rintro a ha b hb rfl
  rw [mem_singleton] at hb
  exact h (hb ▸ ha)

variable {done : List (Route H M)} {root : Node H} {pattern name : Bytes} {middleware : List M} {parsed : Parsed}

theorem Represents.leaf (hrep : Represents compose ctx done root) {handler : H}
    {by_method : Table Bytes (Terminal H)} {verbs verbs' : List Bytes} (hparse : parse pattern false = .ok parsed)
    (hne : methods ≠ [])
    (hadded : Added (terminal_of compose ctx parsed methods name handler middleware) methods (((slot parsed.wild (steps parsed.segments) root).map Methods.by_method).getD ∅) by_method verbs verbs') :
    Represents compose ctx (done ++ [.leaf methods pattern name (some handler) middleware])
      (Trie.put {} (if parsed.wild then { Trie.value_at {} (steps parsed.segments) root with wild := some ⟨by_method⟩ }
        else { Trie.value_at {} (steps parsed.segments) root with exact := some ⟨by_method⟩ }) (steps parsed.segments) root) := by
  have hslot := slot_put_leaf parsed.wild (steps parsed.segments) root ⟨by_method⟩
  have hmounted := mounted_put_leaf parsed.wild (steps parsed.segments) root ⟨by_method⟩
  have hheld_here : ∀ m, held parsed.wild (steps parsed.segments) root m =
      (((slot parsed.wild (steps parsed.segments) root).map Methods.by_method).getD ∅).lookup m := by
    intro m
    unfold held
    cases slot parsed.wild (steps parsed.segments) root with
    | some methods => rfl
    | none => simp [AList.lookup_empty]
  have hheld : ∀ w q m, held w q (Trie.put {} (if parsed.wild then
        { Trie.value_at {} (steps parsed.segments) root with wild := some ⟨by_method⟩ }
        else { Trie.value_at {} (steps parsed.segments) root with exact := some ⟨by_method⟩ }) (steps parsed.segments) root) m =
      if (q = steps parsed.segments ∧ w = parsed.wild) ∧ m ∈ methods then
        some (terminal_of compose ctx parsed methods name handler middleware) else held w q root m := by
    intro w q m
    rw [held, hslot]
    by_cases hq : q = steps parsed.segments ∧ w = parsed.wild
    · rw [if_pos hq]
      obtain ⟨rfl, rfl⟩ := hq
      rw [Option.bind_some, hadded.taken m, hheld_here]
      simp
    · rw [if_neg hq, if_neg (fun h => hq h.1)]
      rfl
  generalize hroot : Trie.put {} (if parsed.wild then
    { Trie.value_at {} (steps parsed.segments) root with wild := some ⟨by_method⟩ }
    else { Trie.value_at {} (steps parsed.segments) root with exact := some ⟨by_method⟩ }) (steps parsed.segments) root =
      root' at hslot hmounted hheld ⊢
  refine ⟨fun w q m t => ?_, fun w q h => ?_, fun q m h => ?_, fun r hr place hplace m hm => ?_, fun r hr q hq => ?_, ?_⟩
  · rw [hheld]
    by_cases hnew : (q = steps parsed.segments ∧ w = parsed.wild) ∧ m ∈ methods
    · rw [if_pos hnew]
      obtain ⟨⟨rfl, rfl⟩, hm⟩ := hnew
      constructor
      · intro h
        rw [← Option.some.inj h]
        exact ⟨_, mem_append_right _ (mem_singleton_self _), .leaf hparse hm⟩
      rintro ⟨r, hr, hat⟩
      rcases mem_append.mp hr with hr | hr
      · -- nothing that was there answers the method
        have hold := (hrep.leaves _ _ _ _).mpr ⟨r, hr, hat⟩
        rw [hheld_here, hadded.free m hm] at hold
        cases hold
      · rw [mem_singleton.mp hr] at hat
        generalize hw : parsed.wild = w at hat
        generalize hq : steps parsed.segments = q at hat
        cases hat with
        | leaf hparse' hm' =>
          obtain rfl := ok.inj (hparse.symm.trans hparse')
          rfl
    · rw [if_neg hnew, hrep.leaves]
      constructor
      · rintro ⟨r, hr, hat⟩
        exact ⟨r, mem_append_left _ hr, hat⟩
      rintro ⟨r, hr, hat⟩
      rcases mem_append.mp hr with hr | hr
      · exact ⟨r, hr, hat⟩
      · rw [mem_singleton.mp hr] at hat
        cases hat with
        | leaf hparse' hm' =>
          obtain rfl := ok.inj (hparse.symm.trans hparse')
          exact absurd ⟨⟨rfl, rfl⟩, hm'⟩ hnew
  · rw [hslot] at h
    by_cases hq : q = steps parsed.segments ∧ w = parsed.wild
    · obtain ⟨m, ms, rfl⟩ := exists_cons_of_ne_nil hne
      exact ⟨m, _, by rw [hheld, if_pos ⟨hq, mem_cons_self⟩]⟩
    · rw [if_neg hq] at h
      obtain ⟨m, t, hold⟩ := hrep.slots w q h
      exact ⟨m, t, by rw [hheld, if_neg (fun h => hq h.1), hold]⟩
  · rw [hmounted] at h
    obtain ⟨r, hr, hat⟩ := hrep.mounts q m h
    exact ⟨r, mem_append_left _ hr, hat⟩
  · rw [hheld]
    rcases mem_append.mp hr with hr | hr
    · have hold := hrep.answered r hr place hplace m hm
      split_ifs
      · rfl
      · exact hold
    · rw [mem_singleton.mp hr] at hplace hm
      rw [leaf_place, hparse] at hplace
      cases hplace
      rw [if_pos ⟨⟨rfl, rfl⟩, hm⟩]
      rfl
  · rw [hmounted]
    rcases mem_append.mp hr with hr | hr
    · exact hrep.places r hr q hq
    · rw [mem_singleton.mp hr] at hq
      cases hq
  · rw [← hroot]
    refine hrep.pruned.put (fun h => ?_) _
    by_cases hw : parsed.wild = true
    · rw [if_pos hw] at h
      exact absurd (congrArg Content.wild h) (by simp)
    · rw [if_neg hw] at h
      exact absurd (congrArg Content.exact h) (by simp)

theorem place_leaf_ok {wild : Bool} {verbs verbs' : List Bytes} {v : Content (Mount H) H}
    (h : place_leaf what terminal methods wild verbs ((Trie.find p root).getD (Trie.bare {})) = .ok (v, verbs')) :
    ∃ by_method, add_methods what terminal methods (((slot wild p root).map Methods.by_method).getD ∅) verbs =
        .ok (by_method, verbs') ∧
      v = if wild then { Trie.value_at {} p root with wild := some ⟨by_method⟩ }
        else { Trie.value_at {} p root with exact := some ⟨by_method⟩ } := by
  rw [place_leaf] at h
  rw [← Trie.value_at_eq] at h
  rw [slot]
  rcases hadd : add_methods what terminal methods
    (((if wild = true then (Trie.value_at {} p root).wild else (Trie.value_at {} p root).exact).map Methods.by_method).getD ∅)
      verbs with why | ⟨by_method, verbs''⟩
  · rw [hadd] at h
    cases h
  · rw [hadd] at h
    cases h
    exact ⟨by_method, hadd, rfl⟩

theorem free_of_pass (h : ∀ q, q <+: p → pass what (Trie.value_at {} q root) = .ok ()) :
    ∀ q, q <+: p → mounted q root = none :=
  fun q hq => pass_iff.mp (h q hq)

variable {tables : Tables}

theorem add_leaf_ok {root' : Node H} {tables' : Tables} (hrep : Represents compose ctx done root) {handler : Option H}
    (h : add_leaf compose ctx methods pattern name handler middleware root tables = .ok (root', tables')) :
    Registered compose ctx done (.leaf methods pattern name handler middleware) root' tables tables' := by
  rw [add_leaf] at h
  rcases hparse : parse pattern false with why | parsed
  · rw [hparse] at h
    cases h
  rw [hparse] at h
  rcases handler with _ | handler
  · cases h
  dsimp only at h
  by_cases hne : methods = []
  · rw [if_pos hne] at h
    cases h
  rw [if_neg hne] at h
  rcases hreserved : ctx.keep_prefix && reserved ctx.at_prefix parsed.segments with _ | _
  · rw [hreserved, if_neg Bool.false_ne_true] at h
    rcases halter : Trie.alter {} (pass (quote_text pattern)) (place_leaf (quote_text pattern)
        (terminal_of compose ctx parsed methods name handler middleware) methods parsed.wild tables.verbs)
        (steps parsed.segments) root with why | ⟨root₁, verbs⟩
    · rw [halter] at h
      cases h
    rw [halter] at h
    dsimp only at h
    obtain ⟨hpass, v, hplace, hput⟩ := Trie.alter_ok_iff.mp halter
    obtain ⟨by_method, hmethods, rfl⟩ := place_leaf_ok hplace
    have hadded := add_methods_ok hmethods
    have hrep' := hrep.leaf hparse hne hadded
    rw [← hput] at hrep'
    have hfree := free_of_pass hpass
    have hgood : Good ctx (.leaf methods pattern name (some handler) middleware) := by
      rw [Good]
      exact ⟨parsed, hparse, rfl, hne, hreserved, hadded.known, hadded.distinct⟩
    have hcompatible : ∀ d ∈ done, Compatible d (.leaf methods pattern name (some handler) middleware) := by
      intro d hd
      have hleaf : leaf_place (.leaf methods pattern name (some handler) middleware : Route H M) =
          some (steps parsed.segments, parsed.wild) := by
        rw [leaf_place, hparse]
        rfl
      refine ⟨fun place hdplace hplace m hm hm' => ?_, fun q place hq hplace => ?_, fun q place hq => ?_, fun q q' _ hq' => ?_⟩
      · rw [hleaf] at hplace
        cases hplace
        have hanswered := hrep.answered d hd _ hdplace m hm
        have hnone := hadded.free m hm'
        revert hanswered
        rw [held]
        cases hslot : slot parsed.wild (steps parsed.segments) root with
        | none => exact nofun
        | some ms =>
          rw [hslot] at hnone
          rw [Option.bind_some, show ms.by_method.lookup m = none from hnone]
          exact nofun
      · rw [hleaf] at hplace
        cases hplace
        intro hprefix'
        have hsome := hrep.places d hd q hq
        rw [hfree q hprefix'] at hsome
        cases hsome
      · cases hq
      · cases hq'
    have hverbs : ∀ m, m ∈ verbs ↔ m ∈ tables.verbs ∨
        m ∈ verbs_of (.leaf methods pattern name (some handler) middleware : Route H M) := by
      rw [verbs_of]
      exact hadded.mem_verbs
    by_cases hname : full_name ctx name = []
    · rw [if_pos hname] at h
      cases h
      exact ⟨hgood, hcompatible, hrep', by rw [names_of, if_pos hname, append_nil], id, hverbs, hadded.verbs_nodup⟩
    rw [if_neg hname] at h
    rcases hit : name_it tables.names (full_name ctx name) (quote_text pattern) with why | names
    · rw [hit] at h
      cases h
    rw [hit] at h
    cases h
    obtain ⟨hfresh, rfl⟩ := name_it_ok hit
    exact ⟨hgood, hcompatible, hrep', by rw [names_of, if_neg hname], fun hnodup => nodup_snoc hnodup hfresh, hverbs,
      hadded.verbs_nodup⟩
  · rw [hreserved, if_pos rfl] at h
    cases h

theorem Represents.free (hrep : Represents compose ctx done root)
    (h : ∀ d ∈ done, ∀ q, mount_place d = some q → ¬q <+: p) : ∀ q, q <+: p → mounted q root = none := by
  intro q hq
  rcases hm : mounted q root with _ | m
  · rfl
  · obtain ⟨d, hd, hat⟩ := hrep.mounts q m hm
    exact absurd hq (h d hd q hat.place)

theorem add_leaf_of (hrep : Represents compose ctx done root) {handler : Option H}
    (hgood : Good ctx (.leaf methods pattern name handler middleware))
    (hcompatible : ∀ d ∈ done, Compatible d (.leaf methods pattern name handler middleware))
    (hnames : (tables.names ++ names_of ctx (.leaf methods pattern name handler middleware)).Nodup) :
    ∃ result, add_leaf compose ctx methods pattern name handler middleware root tables = .ok result := by
  obtain ⟨parsed, hparse, hhandler, hne, hreserved, hknown, hdistinct⟩ := hgood
  obtain ⟨handler, rfl⟩ := Option.isSome_iff_exists.mp hhandler
  have hleaf : leaf_place (.leaf methods pattern name (some handler) middleware : Route H M) =
      some (steps parsed.segments, parsed.wild) := by
    rw [leaf_place, hparse]
    rfl
  have hfree : ∀ m ∈ methods, ((((slot parsed.wild (steps parsed.segments) root).map Methods.by_method).getD ∅) :
      Table Bytes (Terminal H)).lookup m = none := by
    intro m hm
    rcases hheld : held parsed.wild (steps parsed.segments) root m with _ | t
    · unfold held at hheld
      cases hslot : slot parsed.wild (steps parsed.segments) root with
      | none => rfl
      | some ms => rwa [hslot] at hheld
    · obtain ⟨d, hd, hat⟩ := (hrep.leaves _ _ _ _).mp hheld
      exact absurd hm ((hcompatible d hd).leaves _ hat.place.1 hleaf m hat.place.2)
  obtain ⟨⟨by_method, verbs⟩, hmethods⟩ : ∃ result, add_methods (quote_text pattern)
      (terminal_of compose ctx parsed methods name handler middleware) methods
      (((slot parsed.wild (steps parsed.segments) root).map Methods.by_method).getD ∅) tables.verbs = .ok result :=
    add_methods_of _ _ hknown hdistinct hfree
  have hpass : ∀ q, q <+: steps parsed.segments → pass (quote_text pattern) (Trie.value_at {} q root) = .ok () := by
    intro q hq
    refine pass_iff.mpr (hrep.free (fun d hd q' hq' => ?_) q hq)
    exact (hcompatible d hd).below q' _ hq' hleaf
  have hplaced : ∃ v, place_leaf (quote_text pattern) (terminal_of compose ctx parsed methods name handler middleware) methods
      parsed.wild tables.verbs ((Trie.find (steps parsed.segments) root).getD (Trie.bare {})) = .ok (v, verbs) := by
    rw [place_leaf]
    rw [← Trie.value_at_eq, ← slot, hmethods]
    exact ⟨_, rfl⟩
  obtain ⟨v, hv⟩ := hplaced
  have halter : Trie.alter {} (pass (quote_text pattern)) (place_leaf (quote_text pattern)
      (terminal_of compose ctx parsed methods name handler middleware) methods parsed.wild tables.verbs)
      (steps parsed.segments) root = .ok (Trie.put {} v (steps parsed.segments) root, verbs) :=
    Trie.alter_ok_iff.mpr ⟨hpass, v, hv, rfl⟩
  rw [add_leaf, hparse]
  dsimp only
  rw [if_neg hne, hreserved, if_neg Bool.false_ne_true, halter]
  dsimp only
  by_cases hname : full_name ctx name = []
  · exact ⟨_, if_pos hname⟩
  rw [names_of, if_neg hname] at hnames
  have hfresh : tables.names.contains (full_name ctx name) ≠ true := by
    intro hc
    exact (nodup_append.mp hnames).2.2 _ (contains_iff_mem.mp hc) _ (mem_singleton_self _) rfl
  have hit : name_it tables.names (full_name ctx name) (quote_text pattern) = .ok (tables.names ++ [full_name ctx name]) :=
    if_neg hfresh
  rw [if_neg hname, hit]
  exact ⟨_, rfl⟩

/-! ## Adding a mount -/

theorem slot_put_mount (p : List Step) (root : Node H) (mount : Mount H) (h : Trie.value_at {} p root = {}) (w : Bool)
    (q : List Step) : slot w q (Trie.put {} { mount := some mount } p root) = slot w q root := by
  unfold slot
  rw [Trie.value_at_put]
  by_cases hq : q = p
  · subst hq
    rw [if_pos rfl, h]
  · rw [if_neg hq]

theorem mounted_put_mount (p : List Step) (root : Node H) (mount : Mount H) (q : List Step) :
    mounted q (Trie.put {} { mount := some mount } p root) = if q = p then some mount else mounted q root := by
  unfold mounted
  rw [Trie.value_at_put]
  split_ifs <;> rfl

theorem Represents.mount (hrep : Represents compose ctx done root) {mount : Mount H}
    (hplace : mount_place r = some p) (hleaf : leaf_place r = none) (hat : MountAt compose ctx r p mount)
    (hempty : Trie.value_at {} p root = {}) :
    Represents compose ctx (done ++ [r]) (Trie.put {} { mount := some mount } p root) := by
  have hslot := slot_put_mount p root mount hempty
  have hmounted := mounted_put_mount p root mount
  have hheld : ∀ w q m, held w q (Trie.put {} { mount := some mount } p root) m = held w q root m := by
    intro w q m
    rw [held, hslot, held]
  refine ⟨fun w q m t => ?_, fun w q h => ?_, fun q m h => ?_, fun r' hr' place hplace' m hm => ?_, fun r' hr' q hq => ?_, ?_⟩
  · rw [hheld, hrep.leaves]
    constructor
    · rintro ⟨r', hr', hat'⟩
      exact ⟨r', mem_append_left _ hr', hat'⟩
    · rintro ⟨r', hr', hat'⟩
      rcases mem_append.mp hr' with hr' | hr'
      · exact ⟨r', hr', hat'⟩
      · rw [mem_singleton.mp hr'] at hat'
        exact absurd hat'.place.1 (by simp [hleaf])
  · rw [hslot] at h
    obtain ⟨m, t, hold⟩ := hrep.slots w q h
    exact ⟨m, t, by rw [hheld, hold]⟩
  · rw [hmounted] at h
    by_cases hq : q = p
    · rw [if_pos hq] at h
      rw [← Option.some.inj h, hq]
      exact ⟨r, mem_append_right _ (mem_singleton_self _), hat⟩
    · rw [if_neg hq] at h
      obtain ⟨r', hr', hat'⟩ := hrep.mounts q m h
      exact ⟨r', mem_append_left _ hr', hat'⟩
  · rw [hheld]
    rcases mem_append.mp hr' with hr' | hr'
    · exact hrep.answered r' hr' place hplace' m hm
    · rw [mem_singleton.mp hr', hleaf] at hplace'
      cases hplace'
  · rw [hmounted]
    rcases mem_append.mp hr' with hr' | hr'
    · have hold := hrep.places r' hr' q hq
      split_ifs
      · rfl
      · exact hold
    · rw [mem_singleton.mp hr', hplace] at hq
      rw [if_pos (Option.some.inj hq).symm]
      rfl
  · exact hrep.pruned.put (fun h => absurd (congrArg Content.mount h) (by simp)) _

theorem empty_iff (node : Node H) : empty node = true ↔ node.children = [] ∧ node.value = {} := by
  obtain ⟨⟨e, w, m⟩, children⟩ := node
  simp only [empty, Bool.and_eq_true, List.isEmpty_iff, Option.isNone_iff_eq_none, Content.mk.injEq]
  tauto

theorem add_mount_ok {root' : Node H} {tables' : Tables} (hpruned : Trie.Pruned {} root)
    {made : Parsed → Except Bytes (Mount H × Tables)}
    (h : add_mount ctx pattern name made root = .ok (root', tables')) :
    ∃ parsed mount tables, mount_rules ctx pattern name parsed ∧
      (∀ q, q <+: steps parsed.segments → mounted q root = none) ∧
      (∀ q, Trie.value_at {} (steps parsed.segments ++ q) root = {}) ∧
      made parsed = .ok (mount, tables) ∧
      root' = Trie.put {} { mount := some mount } (steps parsed.segments) root ∧
      tables'.verbs = tables.verbs ∧
      tables'.names = tables.names ++ (if name = [] then [] else [ctx.name_prefix ++ name]) ∧
      (tables.names.Nodup → tables'.names.Nodup) := by
  rw [add_mount] at h
  rcases hparse : parse pattern true with why | parsed
  · rw [hparse] at h
    cases h
  rw [hparse] at h
  dsimp only at h
  rcases hreserved : ctx.keep_prefix && reserved ctx.at_prefix parsed.segments with _ | _
  · rw [hreserved, if_neg Bool.false_ne_true] at h
    rcases halter : Trie.alter {} (pass (lit "mount " ++ quote_text pattern))
        (place_mount (lit "mount " ++ quote_text pattern) name made parsed) (steps parsed.segments) root with
      why | ⟨root₁, tables⟩
    · rw [halter] at h
      cases h
    rw [halter] at h
    dsimp only at h
    obtain ⟨hpass, v, hv, hput⟩ := Trie.alter_ok_iff.mp halter
    rw [place_mount] at hv
    rcases hempty : empty ((Trie.find (steps parsed.segments) root).getD (Trie.bare {})) with _ | _
    · rw [hempty] at hv
      cases hv
    rw [hempty, Bool.not_true, if_neg Bool.false_ne_true] at hv
    by_cases hname : name ≠ [] ∧ name.contains 58 = true
    · rw [if_pos hname] at hv
      cases hv
    rw [if_neg hname] at hv
    rcases hmade : made parsed with why | ⟨mount, tables₁⟩
    · rw [hmade] at hv
      cases hv
    rw [hmade] at hv
    obtain ⟨rfl, rfl⟩ := Prod.mk.inj (ok.inj hv)
    have hbelow := (hpruned.empty_iff _).mp ((empty_iff _).mp hempty)
    have hvalue : ((Trie.find (steps parsed.segments) root).getD (Trie.bare {})).value = {} := ((empty_iff _).mp hempty).2
    rw [hvalue] at hput
    refine ⟨parsed, mount, tables₁, ⟨hparse, hreserved, hname⟩, free_of_pass hpass, hbelow, hmade, ?_⟩
    by_cases hnil : name = []
    · rw [if_pos hnil] at h
      obtain ⟨rfl, rfl⟩ := Prod.mk.inj (ok.inj h)
      exact ⟨hput, rfl, by rw [if_pos hnil, append_nil], id⟩
    · rw [if_neg hnil] at h
      rcases hit : name_it tables₁.names (ctx.name_prefix ++ name) (lit "mount " ++ quote_text pattern) with why | names
      · rw [hit] at h
        cases h
      rw [hit] at h
      obtain ⟨rfl, rfl⟩ := Prod.mk.inj (ok.inj h)
      obtain ⟨hfresh, rfl⟩ := name_it_ok hit
      exact ⟨hput, rfl, by rw [if_neg hnil], fun hnodup => nodup_snoc hnodup hfresh⟩
  · rw [hreserved, if_pos rfl] at h
    cases h

theorem add_mount_of (hpruned : Trie.Pruned {} root) {made : Parsed → Except Bytes (Mount H × Tables)}
    {mount : Mount H} (hrules : mount_rules ctx pattern name parsed)
    (hfree : ∀ q, q <+: steps parsed.segments → mounted q root = none)
    (hbelow : ∀ q, Trie.value_at {} (steps parsed.segments ++ q) root = {})
    (hmade : made parsed = .ok (mount, tables))
    (hnames : (tables.names ++ (if name = [] then [] else [ctx.name_prefix ++ name])).Nodup) :
    ∃ result, add_mount ctx pattern name made root = .ok result := by
  obtain ⟨hparse, hreserved, hname⟩ := hrules
  have hempty := (empty_iff _).mpr ((hpruned.empty_iff _).mpr hbelow)
  rw [add_mount, hparse]
  dsimp only
  rw [hreserved, if_neg Bool.false_ne_true]
  have hplaced : ∃ v, place_mount (lit "mount " ++ quote_text pattern) name made parsed
      ((Trie.find (steps parsed.segments) root).getD (Trie.bare {})) = .ok (v, tables) := by
    rw [place_mount, hempty, Bool.not_true, if_neg Bool.false_ne_true, if_neg hname, hmade]
    exact ⟨_, rfl⟩
  obtain ⟨v, hv⟩ := hplaced
  have halter : Trie.alter {} (pass (lit "mount " ++ quote_text pattern))
      (place_mount (lit "mount " ++ quote_text pattern) name made parsed) (steps parsed.segments) root =
      .ok (Trie.put {} v (steps parsed.segments) root, tables) :=
    Trie.alter_ok_iff.mpr ⟨fun q hq => pass_iff.mpr (hfree q hq), v, hv, rfl⟩
  rw [halter]
  dsimp only
  by_cases hnil : name = []
  · exact ⟨_, if_pos hnil⟩
  rw [if_neg hnil] at hnames
  have hfresh : tables.names.contains (ctx.name_prefix ++ name) ≠ true := by
    intro hc
    exact (nodup_append.mp hnames).2.2 _ (contains_iff_mem.mp hc) _ (mem_singleton_self _) rfl
  have hit : name_it tables.names (ctx.name_prefix ++ name) (lit "mount " ++ quote_text pattern) =
      .ok (tables.names ++ [ctx.name_prefix ++ name]) := if_neg hfresh
  rw [if_neg hnil, hit]
  exact ⟨_, rfl⟩

theorem mount_compatible (hrep : Represents compose ctx done root) (hdone : ∀ d ∈ done, Good ctx d)
    (hplace : mount_place r = some p) (hleaf : leaf_place r = none) (hfree : ∀ q, q <+: p → mounted q root = none)
    (hbelow : ∀ q, Trie.value_at {} (p ++ q) root = {}) : ∀ d ∈ done, Compatible d r := by
  intro d hd
  refine ⟨fun place _ h => ?_, fun q place _ h => ?_, fun q place hq hd' => ?_, fun q q' hq hq' => ?_⟩
  · exact absurd (hleaf.symm.trans h) (by simp)
  · exact absurd (hleaf.symm.trans h) (by simp)
  · obtain rfl := Option.some.inj (hplace.symm.trans hq)
    rintro ⟨u, hu⟩
    -- a good leaf answers some method, so something would stand at its place
    obtain ⟨m, hm⟩ : ∃ m, m ∈ methods_of d := by
      cases d with
      | leaf methods pattern name handler middleware =>
        have hgood := hdone _ hd
        obtain ⟨parsed, -, -, hne, -⟩ := hgood
        exact exists_mem_of_ne_nil methods hne
      | fallback => cases hd'
      | mount => cases hd'
    have hsome := hrep.answered d hd place hd' m hm
    rw [held, slot, ← hu, hbelow] at hsome
    split_ifs at hsome <;> cases hsome
  · obtain rfl := Option.some.inj (hplace.symm.trans hq')
    have hsome := hrep.places d hd q hq
    constructor
    · intro h
      rw [hfree q h] at hsome
      cases hsome
    · rintro ⟨u, rfl⟩
      rw [mounted, hbelow] at hsome
      cases hsome

theorem Represents.below (hrep : Represents compose ctx done root) (hplace : mount_place r = some p)
    (hcompatible : ∀ d ∈ done, Compatible d r) (q : List Step) :
    Trie.value_at {} (p ++ q) root = {} := by
  have hslot : ∀ w, slot w (p ++ q) root = none := by
    intro w
    rcases hs : slot w (p ++ q) root with _ | ms
    · rfl
    · obtain ⟨m, t, hheld⟩ := hrep.slots w (p ++ q) (by rw [hs]; rfl)
      obtain ⟨d, hd, hat⟩ := (hrep.leaves _ _ _ _).mp hheld
      exact absurd (prefix_append p q) ((hcompatible d hd).below' p _ hplace hat.place.1)
  have hmount : mounted (p ++ q) root = none := by
    rcases hm : mounted (p ++ q) root with _ | m
    · rfl
    · obtain ⟨d, hd, hat⟩ := hrep.mounts _ _ hm
      exact absurd (prefix_append p q) ((hcompatible d hd).mounts _ _ hat.place hplace).2
  have hexact : (Trie.value_at {} (p ++ q) root).exact = none := hslot false
  have hwild : (Trie.value_at {} (p ++ q) root).wild = none := hslot true
  have hmount' : (Trie.value_at {} (p ++ q) root).mount = none := hmount
  generalize Trie.value_at {} (p ++ q) root = c at hexact hwild hmount'
  obtain ⟨e, w, m⟩ := c
  subst hexact hwild hmount'
  rfl

theorem mount_place_of (hrules : mount_rules ctx pattern name parsed) (middleware : List M) :
    (∀ routes, mount_place (.mount pattern name middleware routes : Route H M) = some (steps parsed.segments)) ∧
      ∀ handler, mount_place (.fallback pattern name middleware handler : Route H M) = some (steps parsed.segments) := by
  constructor
  · intro routes
    rw [mount_place, hrules.1]
    rfl
  · intro handler
    rw [mount_place, hrules.1]
    rfl

structure Compiled (compose : List M → H → H) (ctx : Context H M) (done routes : List (Route H M)) (root' : Node H)
    (tables tables' : Tables) : Prop where
  good : GoodAll ctx routes
  apart : ∀ d ∈ done, ∀ r ∈ routes, Compatible d r
  compatible : routes.Pairwise Compatible
  represents : Represents compose ctx (done ++ routes) root'
  names : tables'.names = tables.names ++ names_of_all ctx routes
  distinct : tables.names.Nodup → tables'.names.Nodup
  mem_verbs : ∀ m, m ∈ tables'.verbs ↔ m ∈ tables.verbs ∨ m ∈ verbs_of_all routes
  verbs_nodup : tables.verbs.Nodup → tables'.verbs.Nodup

mutual

theorem add_ok {ctx : Context H M} {done : List (Route H M)} :
    ∀ (r : Route H M) {root root' : Node H} {tables tables' : Tables}, Represents compose ctx done root →
      (∀ d ∈ done, Good ctx d) → add compose ctx r root tables = .ok (root', tables') →
        Registered compose ctx done r root' tables tables'
  | .leaf methods pattern name handler middleware, root, root', tables, tables', hrep, hdone, h => by
      exact add_leaf_ok hrep h
  | .fallback pattern name middleware handler, root, root', tables, tables', hrep, hdone, h => by
      rw [add] at h
      obtain ⟨parsed, mount, tables₁, hrules, hfree, hbelow, hmade, rfl, hverbs, hnames, hdistinct⟩ :=
        add_mount_ok hrep.pruned h
      have htables : tables₁ = tables := (Prod.mk.inj (ok.inj hmade)).2.symm
      subst htables
      have hplace := (mount_place_of hrules middleware).2 handler
      have hempty : Trie.value_at {} (steps parsed.segments) root = {} := by
        have := hbelow []
        rwa [append_nil] at this
      refine ⟨?_, mount_compatible hrep hdone hplace rfl hfree hbelow,
        hrep.mount hplace rfl (.fallback hrules.1 hmade) hempty, ?_, hdistinct, ?_, ?_⟩
      · rw [Good]
        exact ⟨parsed, hrules⟩
      · rw [hnames, names_of]
      · rw [hverbs]
        simp [verbs_of]
      · rw [hverbs]
        exact id
  | .mount pattern name middleware routes, root, root', tables, tables', hrep, hdone, h => by
      obtain ⟨parsed, mount, tables₁, hrules, hfree, hbelow, hmade, rfl, hverbs, hnames, hdistinct⟩ :=
        add_mount_ok hrep.pruned h
      rcases hcompile : compile compose (inner_context ctx parsed.segments name middleware) routes (new_node H) tables with
        why | ⟨sub, tables₂⟩
      · rw [hcompile] at hmade
        cases hmade
      rw [hcompile] at hmade
      cases hmade
      have hsub := compile_ok routes represents_nil nofun hcompile
      have hplace := (mount_place_of hrules middleware).1 routes
      have hempty : Trie.value_at {} (steps parsed.segments) root = {} := by
        have := hbelow []
        rwa [append_nil] at this
      refine ⟨?_, mount_compatible hrep hdone hplace rfl hfree hbelow,
        hrep.mount hplace rfl (.mount hrules.1 hcompile) hempty, ?_, fun hnodup => hdistinct (hsub.distinct hnodup), ?_, ?_⟩
      · rw [Good]
        exact ⟨parsed, hrules, hsub.compatible, hsub.good⟩
      · rw [hnames, hsub.names, names_of, hrules.1, append_assoc]
      · rw [hverbs, verbs_of]
        exact hsub.mem_verbs
      · rw [hverbs]
        exact hsub.verbs_nodup

theorem compile_ok {ctx : Context H M} {done : List (Route H M)} :
    ∀ (routes : List (Route H M)) {root root' : Node H} {tables tables' : Tables}, Represents compose ctx done root →
      (∀ d ∈ done, Good ctx d) → compile compose ctx routes root tables = .ok (root', tables') →
        Compiled compose ctx done routes root' tables tables'
  | [], root, root', tables, tables', hrep, hdone, h => by
      cases h
      exact ⟨trivial, nofun, .nil, by rwa [append_nil],
        by rw [names_of_all, append_nil], id, by simp [verbs_of_all], id⟩
  | r :: routes, root, root', tables, tables', hrep, hdone, h => by
      rw [compile] at h
      rcases hadd : add compose ctx r root tables with why | ⟨root₁, tables₁⟩
      · rw [hadd] at h
        cases h
      rw [hadd] at h
      have hr := add_ok r hrep hdone hadd
      have hdone' : ∀ d ∈ done ++ [r], Good ctx d := by
        intro d hd
        rcases mem_append.mp hd with hd | hd
        · exact hdone d hd
        · rw [mem_singleton.mp hd]
          exact hr.good
      have hrest := compile_ok routes hr.represents hdone' h
      refine ⟨?_, fun d hd => ?_, ?_, ?_, ?_, fun hnodup => hrest.distinct (hr.distinct hnodup), fun m => ?_,
        fun hnodup => hrest.verbs_nodup (hr.verbs_nodup hnodup)⟩
      · rw [GoodAll]
        exact ⟨hr.good, hrest.good⟩
      · exact forall_mem_cons.mpr ⟨hr.compatible d hd, hrest.apart d (mem_append_left _ hd)⟩
      · exact pairwise_cons.mpr ⟨hrest.apart r (mem_append_right _ (mem_singleton_self _)), hrest.compatible⟩
      · have := hrest.represents
        rwa [append_assoc] at this
      · rw [hrest.names, hr.names, names_of_all, append_assoc]
      · rw [hrest.mem_verbs, hr.mem_verbs, verbs_of_all, mem_append, or_assoc]

end

mutual

theorem add_of {ctx : Context H M} {done : List (Route H M)} :
    ∀ (r : Route H M) {root : Node H} {tables : Tables}, Represents compose ctx done root → (∀ d ∈ done, Good ctx d) →
      Good ctx r → (∀ d ∈ done, Compatible d r) → (tables.names ++ names_of ctx r).Nodup →
        ∃ result, add compose ctx r root tables = .ok result
  | .leaf methods pattern name handler middleware, root, tables, hrep, hdone, hgood, hcompatible, hnames => by
      rw [add]
      exact add_leaf_of hrep hgood hcompatible hnames
  | .fallback pattern name middleware handler, root, tables, hrep, hdone, hgood, hcompatible, hnames => by
      obtain ⟨parsed, hrules⟩ := hgood
      have hplace := (mount_place_of hrules middleware).2 handler
      rw [add]
      exact add_mount_of hrep.pruned hrules
        (hrep.free fun d hd q hq => ((hcompatible d hd).mounts q _ hq hplace).1) (hrep.below hplace hcompatible) rfl hnames
  | .mount pattern name middleware routes, root, tables, hrep, hdone, hgood, hcompatible, hnames => by
      rw [Good] at hgood
      obtain ⟨parsed, hrules, hpairwise, hall⟩ := hgood
      have hplace := (mount_place_of hrules middleware).1 routes
      rw [names_of, hrules.1, ← append_assoc] at hnames
      obtain ⟨⟨sub, tables₁⟩, hcompile⟩ := compile_of routes represents_nil nofun hall nofun hpairwise
        (nodup_append.mp hnames).1
      have hsub := compile_ok routes represents_nil nofun hcompile
      rw [← hsub.names] at hnames
      rw [add]
      obtain ⟨mount, hmade⟩ : ∃ mount, routes_mount compose ctx name middleware parsed
          (compile compose (inner_context ctx parsed.segments name middleware) routes (new_node H) tables) =
            .ok (mount, tables₁) := by
        rw [hcompile]
        exact ⟨_, rfl⟩
      exact add_mount_of hrep.pruned hrules
        (hrep.free fun d hd q hq => ((hcompatible d hd).mounts q _ hq hplace).1) (hrep.below hplace hcompatible) hmade hnames

theorem compile_of {ctx : Context H M} {done : List (Route H M)} :
    ∀ (routes : List (Route H M)) {root : Node H} {tables : Tables}, Represents compose ctx done root →
      (∀ d ∈ done, Good ctx d) → GoodAll ctx routes → (∀ d ∈ done, ∀ r ∈ routes, Compatible d r) →
        routes.Pairwise Compatible → (tables.names ++ names_of_all ctx routes).Nodup →
          ∃ result, compile compose ctx routes root tables = .ok result
  | [], root, tables, hrep, hdone, hgood, hapart, hcompatible, hnames => ⟨_, by rw [compile]⟩
  | r :: routes, root, tables, hrep, hdone, hgood, hapart, hcompatible, hnames => by
      rw [names_of_all, ← append_assoc] at hnames
      obtain ⟨⟨root₁, tables₁⟩, hadd⟩ := add_of r hrep hdone hgood.1
        (fun d hd => hapart d hd r mem_cons_self) (nodup_append.mp hnames).1
      have hr := add_ok r hrep hdone hadd
      have hpairwise := pairwise_cons.mp hcompatible
      have hdone' : ∀ d ∈ done ++ [r], Good ctx d := by
        intro d hd
        rcases mem_append.mp hd with hd | hd
        · exact hdone d hd
        · rw [mem_singleton.mp hd]
          exact hr.good
      have hapart' : ∀ d ∈ done ++ [r], ∀ r' ∈ routes, Compatible d r' := by
        intro d hd r' hr'
        rcases mem_append.mp hd with hd | hd
        · exact hapart d hd r' (mem_cons_of_mem _ hr')
        · rw [mem_singleton.mp hd]
          exact hpairwise.1 r' hr'
      rw [← hr.names] at hnames
      obtain ⟨result, hrest⟩ := compile_of routes hr.represents hdone' hgood.2 hapart' hpairwise.2 hnames
      exact ⟨result, by rw [compile, hadd]; exact hrest⟩

end

/-- Routes compile just where each is good, no two are incompatible, and no name is used twice. -/
theorem compile_iff {ctx : Context H M} {routes : List (Route H M)} :
    (∃ result, compile compose ctx routes (new_node H) { names := [], verbs := [] } = .ok result) ↔
      GoodAll ctx routes ∧ routes.Pairwise Compatible ∧ (names_of_all ctx routes).Nodup := by
  constructor
  · rintro ⟨⟨root, tables⟩, h⟩
    have hc := compile_ok routes represents_nil nofun h
    refine ⟨hc.good, hc.compatible, ?_⟩
    have hnodup := hc.distinct nodup_nil
    rwa [hc.names] at hnodup
  · rintro ⟨hgood, hcompatible, hnames⟩
    exact compile_of routes represents_nil nofun hgood nofun hcompatible hnames

end Cosmic.Web
