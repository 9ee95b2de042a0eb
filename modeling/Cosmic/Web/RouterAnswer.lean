/-
What a router answers, whatever the order its routes are declared in.

A mount whose prefix the path begins with takes it. Otherwise the answer is that of the first, as
patterns are compared segment by segment, of the routes that match the path and answer the method;
and where routes match but none does, it names the methods at the first of them. Nothing in this
looks at where a route stands in its list.
-/
import Cosmic.Web.RouterWalk

set_option autoImplicit false

namespace Cosmic.Web

open Cosmic.Base List Option Except

variable {H M : Type}

/-! ## What a pattern holds -/

/-- A pattern's segments: those before a `*name`, and the names of its parameters in order. -/
structure Shape (parsed : Parsed) (body : List Segment) : Prop where
  plain : ∀ s ∈ body, s.kind ≠ .rest
  spelled : (parsed.wild = false ∧ parsed.segments = body) ∨
    (parsed.wild = true ∧ ∃ name, parsed.segments = body ++ [{ kind := .rest, text := name }])
  named : parsed.names.length = body.countP (·.kind == .param) + if parsed.wild then 1 else 0

variable {parsed : Parsed}

theorem shape_literal {body : List Segment} (h : Shape parsed body) (hwild : parsed.wild = false) (text : Bytes) :
    Shape { parsed with segments := parsed.segments ++ [{ kind := .literal, text }] } (body ++ [{ kind := .literal, text }]) := by
  obtain ⟨hbody, hsegments, hnames⟩ := h
  rcases hsegments with ⟨-, hsegments⟩ | ⟨hw, -⟩
  · refine ⟨?_, .inl ⟨hwild, by rw [hsegments]⟩, ?_⟩
    · rintro s hs
      rcases mem_append.mp hs with hs | hs
      · exact hbody s hs
      · rw [mem_singleton.mp hs]
        exact SegmentKind.noConfusion
    · rw [hnames, countP_append]
      rfl
  · rw [hwild] at hw
    cases hw

theorem shape_param {body : List Segment} (h : Shape parsed body) (hwild : parsed.wild = false) (name : Bytes)
    (star : Bool) :
    Shape { parsed with
        names := parsed.names ++ [name], wild := star
        segments := parsed.segments ++ [{ kind := if star then .rest else .param, text := name }] }
      (if star then body else body ++ [{ kind := .param, text := name }]) := by
  obtain ⟨hbody, hsegments, hnames⟩ := h
  rcases hsegments with ⟨-, hsegments⟩ | ⟨hw, -⟩
  · rw [hwild] at hnames
    cases star with
    | true =>
      refine ⟨hbody, .inr ⟨rfl, name, by rw [hsegments]; rfl⟩, ?_⟩
      rw [length_append, hnames]
      rfl
    | false =>
      refine ⟨?_, .inl ⟨rfl, by rw [hsegments]; rfl⟩, ?_⟩
      · rintro s hs
        rcases mem_append.mp hs with hs | hs
        · exact hbody s hs
        · rw [mem_singleton.mp hs]
          exact SegmentKind.noConfusion
      · simp only [Bool.false_eq_true, if_false, countP_append, length_append]
        rw [hnames]
        rfl
  · rw [hwild] at hw
    cases hw

variable {mount : Bool}

theorem parse_pieces_shape (pieces : List Bytes) : ∀ {parsed parsed' : Parsed} {body : List Segment},
    parse_pieces mount pieces parsed = .ok parsed' → Shape parsed body →
      (mount = true → parsed.wild = false ∧ ∀ s ∈ parsed.segments, s.kind = .literal) →
        (∃ body', Shape parsed' body') ∧
          (mount = true → parsed'.wild = false ∧ ∀ s ∈ parsed'.segments, s.kind = .literal) := by
  induction pieces with
  | nil =>
    intro parsed parsed' body h hshape hmount
    rw [← ok.inj h]
    exact ⟨⟨body, hshape⟩, hmount⟩
  | cons piece pieces ih =>
    intro parsed parsed' body h hshape hmount
    rw [parse_pieces] at h
    by_cases hnil : piece = []
    · rw [if_pos hnil] at h
      cases h
    rw [if_neg hnil] at h
    rcases hwild : parsed.wild with _ | _
    · rw [if_neg (by rw [hwild]; exact Bool.false_ne_true)] at h
      by_cases hparam : piece.head? = some 58 ∨ piece.head? = some 42
      · rw [if_pos hparam] at h
        by_cases hname : (!is_name (piece.drop 1)) = true
        · rw [if_pos hname] at h
          cases h
        rw [if_neg hname] at h
        rcases hm : mount with _ | _
        · subst hm
          by_cases htwice : parsed.names.contains (piece.drop 1) = true
          · rw [if_pos htwice] at h
            cases h
          rw [if_neg htwice] at h
          have hshape' := shape_param hshape hwild (piece.drop 1) (decide (piece.head? = some 42))
          simp only [decide_eq_true_eq] at hshape'
          exact ih h hshape' (nofun)
        · rw [hm, if_pos rfl] at h
          cases h
      · rw [if_neg hparam] at h
        by_cases hmix : (piece.contains 58 || piece.contains 42) = true
        · rw [if_pos hmix] at h
          cases h
        rw [if_neg hmix] at h
        by_cases hdots : piece = lit "." ∨ piece = lit ".."
        · rw [if_pos hdots] at h
          cases h
        rw [if_neg hdots] at h
        refine ih h (shape_literal hshape hwild piece) fun hm => ⟨hwild, fun s hs => ?_⟩
        rcases mem_append.mp hs with hs | hs
        · exact (hmount hm).2 s hs
        · rw [mem_singleton.mp hs]
    · rw [if_pos hwild] at h
      cases h

theorem shape_start (slash : Bool) : Shape { segments := [], slash, names := [], wild := false } [] where
  plain _ h := absurd h not_mem_nil
  spelled := .inl ⟨rfl, rfl⟩
  named := rfl

variable {pattern : Bytes}

theorem parse_shape (h : parse pattern mount = .ok parsed) :
    (∃ body, Shape parsed body) ∧ (mount = true → parsed.wild = false ∧ ∀ s ∈ parsed.segments, s.kind = .literal) := by
  rw [parse] at h
  by_cases hstart : pattern.take 1 ≠ lit "/"
  · rw [if_pos hstart] at h
    cases h
  rw [if_neg hstart] at h
  by_cases hcontrol : pattern.any isControl = true
  · rw [if_pos hcontrol] at h
    cases h
  rw [if_neg hcontrol] at h
  by_cases hroot : pattern = lit "/"
  · rw [if_pos hroot] at h
    rw [← ok.inj h]
    exact ⟨⟨[], shape_start false⟩, fun _ => ⟨rfl, nofun⟩⟩
  rw [if_neg hroot] at h
  dsimp only at h
  rcases hpieces : parse_pieces mount _ _ with why | read
  · rw [hpieces] at h
    cases h
  rw [hpieces] at h
  obtain ⟨⟨body, hshape⟩, hmount⟩ := parse_pieces_shape _ hpieces (shape_start _)
    fun _ => ⟨rfl, nofun⟩
  rw [← ok.inj h]
  by_cases hwild : read.wild = true
  · rw [if_pos hwild]
    exact ⟨⟨body, hshape.plain, hshape.spelled, hshape.named⟩, hmount⟩
  · rw [if_neg hwild]
    exact ⟨⟨body, hshape⟩, hmount⟩

theorem steps_append (body rest : List Segment) (h : ∀ s ∈ body, s.kind ≠ .rest) : steps (body ++ rest) = steps body ++ steps rest := by
  induction body with
  | nil => rfl
  | cons s body ih =>
    have ih := ih fun s hs => h s (mem_cons_of_mem _ hs)
    obtain ⟨kind, text⟩ := s
    cases kind with
    | literal => simp only [cons_append, steps, ih]
    | param => simp only [cons_append, steps, ih]
    | rest => exact absurd rfl (h _ mem_cons_self)

theorem steps_count (body : List Segment) (h : ∀ s ∈ body, s.kind ≠ .rest) :
    (steps body).count .any = body.countP (·.kind == .param) := by
  induction body with
  | nil => rfl
  | cons s body ih =>
    have ih := ih fun s hs => h s (mem_cons_of_mem _ hs)
    obtain ⟨kind, text⟩ := s
    cases kind with
    | literal => simpa [steps] using ih
    | param => simpa [steps] using ih
    | rest => exact absurd rfl (h _ mem_cons_self)

theorem parse_names (h : parse pattern mount = .ok parsed) :
    parsed.names.length = (steps parsed.segments).count .any + if parsed.wild then 1 else 0 := by
  obtain ⟨⟨body, hplain, hspelled, hnamed⟩, -⟩ := parse_shape h
  rw [hnamed]
  rcases hspelled with ⟨-, hspelled⟩ | ⟨-, name, hspelled⟩
  · rw [hspelled, steps_count body hplain]
  · rw [hspelled, steps_append body _ hplain, List.count_append, steps_count body hplain]
    rfl

theorem parse_literal (h : parse pattern true = .ok parsed) :
    steps parsed.segments = (parsed.segments.map Segment.text).map .literal := by
  have hliteral := ((parse_shape h).2 rfl).2
  generalize parsed.segments = segments at hliteral
  induction segments with
  | nil => rfl
  | cons s segments ih =>
    have ih := ih fun s hs => hliteral s (mem_cons_of_mem _ hs)
    obtain ⟨kind, text⟩ := s
    have hkind : kind = .literal := hliteral _ mem_cons_self
    subst hkind
    simp only [steps, ih, map_cons]

/-! ## What a pattern captures -/

theorem captured_append (q q' : List Step) (rest : List Bytes) :
    captured (q ++ q') rest = (captured q rest).bind fun (values, left) =>
      (captured q' left).map fun (values', rem) => (values ++ values', rem) := by
  induction q generalizing rest with
  | nil => cases hc : captured q' rest <;> simp [captured, hc]
  | cons s q ih =>
    cases rest with
    | nil => rw [cons_append, captured_nil_rest, captured_nil_rest]; rfl
    | cons segment rest =>
      cases s with
      | literal text =>
        rw [cons_append, captured, captured]
        by_cases hsame : segment = text
        · rw [if_pos hsame, if_pos hsame]
          exact ih rest
        · rw [if_neg hsame, if_neg hsame]
          rfl
      | any =>
        rw [cons_append, captured, captured, ih]
        rcases captured q rest with _ | ⟨values, left⟩
        · rfl
        · dsimp only [bind_some, map_some]
          cases captured q' left <;> rfl

theorem captured_some (p : List Step) : ∀ {rest values rem : List Bytes}, captured p rest = some (values, rem) →
    values.length = p.count .any ∧ rem = rest.drop p.length := by
  induction p with
  | nil =>
    intro rest values rem h
    cases h
    exact ⟨rfl, rfl⟩
  | cons s p ih =>
    intro rest values rem h
    cases rest with
    | nil => exact absurd ((captured_nil_rest s p).symm.trans h) (by simp)
    | cons segment rest =>
      cases s with
      | literal text =>
        rw [captured] at h
        by_cases hsame : segment = text
        · rw [if_pos hsame] at h
          obtain ⟨hlength, hrem⟩ := ih h
          exact ⟨by simpa using hlength, hrem⟩
        · rw [if_neg hsame] at h
          cases h
      | any =>
        obtain ⟨⟨values', rem'⟩, hp, heq⟩ := map_eq_some_iff.mp h
        cases heq
        obtain ⟨hlength, hrem⟩ := ih hp
        exact ⟨by simpa using hlength, hrem⟩

theorem captured_texts (texts : List Bytes) : ∀ {rest values rem : List Bytes},
    captured (texts.map .literal) rest = some (values, rem) ↔ values = [] ∧ rest = texts ++ rem := by
  induction texts with
  | nil =>
    intro rest values rem
    rw [map_nil, captured, some.injEq, Prod.mk.injEq, nil_append]
    exact and_congr eq_comm Iff.rfl
  | cons text texts ih =>
    intro rest values rem
    cases rest with
    | nil =>
      rw [map_cons, captured_nil_rest]
      simp
    | cons segment rest =>
      rw [map_cons, captured, cons_append, List.cons.injEq]
      by_cases hsame : segment = text
      · rw [if_pos hsame, ih]
        simp [hsame]
      · rw [if_neg hsame]
        simp [hsame]

theorem captured_same (p : List Step) : ∀ {q : List Step} {rest : List Bytes} {x y : List Bytes × List Bytes},
    captured p rest = some x → captured q rest = some y → p.map rank = q.map rank → p = q := by
  induction p with
  | nil =>
    intro q rest x y _ _ hrank
    exact (map_eq_nil_iff.mp hrank.symm).symm
  | cons s p ih =>
    intro q rest x y hp hq hrank
    cases q with
    | nil => cases hrank
    | cons s' q =>
      rw [map_cons, map_cons, List.cons.injEq] at hrank
      obtain ⟨hs, hrank⟩ := hrank
      cases rest with
      | nil => exact absurd ((captured_nil_rest s p).symm.trans hp) (by simp)
      | cons segment rest =>
        cases s with
        | literal text =>
          cases s' with
          | literal text' =>
            rw [captured] at hp hq
            by_cases ht : segment = text
            · by_cases ht' : segment = text'
              · rw [if_pos ht] at hp
                rw [if_pos ht'] at hq
                rw [← ht, ← ht', ih hp hq hrank]
              · rw [if_neg ht'] at hq
                cases hq
            · rw [if_neg ht] at hp
              cases hp
          | any => cases hs
        | any =>
          cases s' with
          | literal text' => cases hs
          | any =>
            obtain ⟨x', hp, -⟩ := map_eq_some_iff.mp hp
            obtain ⟨y', hq, -⟩ := map_eq_some_iff.mp hq
            rw [ih hp hq hrank]

/-- How a pattern ends. -/
def ending (wild : Bool) : Ending := if wild then .wild else .exact

variable {wild wild' : Bool}

theorem ending_inj (h : (ending wild).rank = (ending wild').rank) : wild = wild' := by
  revert wild wild'
  decide

variable {p : List Step} {rest : List Bytes}

theorem key_inj {q : List Step} {x y : List Bytes × List Bytes} (hp : captured p rest = some x)
    (hq : captured q rest = some y) (h : key p (ending wild) = key q (ending wild')) :
    p = q ∧ wild = wild' := by
  obtain ⟨hrank, hlast⟩ := append_inj' h rfl
  exact ⟨captured_same p hp hq hrank, ending_inj (List.cons.inj hlast).1⟩

theorem reach_mount (texts : List Bytes) : ∀ (rem : List Bytes) (i : ℕ) {node : Node H} (values : List Bytes) {m : Mount H},
    (∀ q, q <+: texts.map Step.literal → q ≠ texts.map Step.literal → mounted q node = none) →
      mounted (texts.map .literal) node = some m →
        ∃ tail, reach (texts ++ rem) i node values = ⟨texts.map .literal, .mount, .mount m (i + texts.length)⟩ :: tail := by
  induction texts with
  | nil =>
    intro rem i node values m _ hm
    have hm : node.value.mount = some m := hm
    refine ⟨[], ?_⟩
    cases rem with
    | nil => rw [nil_append, reach, hm]; rfl
    | cons segment rem => rw [nil_append, reach, hm]; rfl
  | cons text texts ih =>
    intro rem i node values m hun hm
    rw [map_cons] at hun hm
    obtain ⟨hnil, hun⟩ := unmounted_cons.mp hun
    rw [mounted_cons] at hm
    have hnil : node.value.mount = none := hnil
    rw [cons_append, reach, hnil]
    rcases hchild : node.child (.literal text) with _ | child
    · rw [hchild, getD_none, mounted, value_at_new] at hm
      cases hm
    · rw [hchild, getD_some] at hm hun
      obtain ⟨tail, htail⟩ := ih rem (i + 1) values hun hm
      rw [elim_some, htail, below, map_cons, append_assoc, cons_append, map_cons, length_cons]
      rw [show i + 1 + texts.length = i + (texts.length + 1) by omega]
      exact ⟨_, rfl⟩

/-! ## What a level answers -/

/-- A level of a tree of routes: its routes, what they are compiled with, and what its misses answer. -/
structure Level (H M : Type) where
  ctx : Context H M
  routes : List (Route H M)
  miss : H
  mount_path : Bytes

/-- A leaf whose pattern matches `rest`, with the values it captures and what its pattern leaves. -/
structure Matches (r : Route H M) (rest : List Bytes) (p : List Step) (wild : Bool) (values rem : List Bytes) : Prop where
  place : leaf_place r = some (p, wild)
  takes : captured p rest = some (values, rem)
  whole : wild = false → rem = []

/-- A route answers a method that is its own, and `HEAD` where it answers `GET`. -/
def Serves (method : Bytes) (r : Route H M) : Prop :=
  method ∈ methods_of r ∨ method = lit "HEAD" ∧ lit "GET" ∈ methods_of r

/-- The method a route is found under: the request's own, or `GET` for a `HEAD` nothing there answers. -/
def FoundUnder (routes : List (Route H M)) (p : List Step) (wild : Bool) (method m : Bytes) : Prop :=
  m = method ∨ method = lit "HEAD" ∧ m = lit "GET" ∧ ∀ r ∈ routes, leaf_place r = some (p, wild) → method ∉ methods_of r

/-- No mount's prefix begins the path. -/
def Unmounted (routes : List (Route H M)) (rest : List Bytes) : Prop :=
  ∀ r ∈ routes, ∀ texts, mount_place r = some (texts.map .literal) → ¬texts <+: rest

/-- The pattern that ends at `p` so comes before that of every route that matches and passes the test. -/
def Foremost (routes : List (Route H M)) (rest : List Bytes) (test : Route H M → Prop) (p : List Step) (wild : Bool) : Prop :=
  ∀ r ∈ routes, ∀ p' wild' values rem, Matches r rest p' wild' values rem → test r →
    key p (ending wild) ≤ key p' (ending wild')

/-- A route's answer to a path it matches: a redirect or a miss where its slash is not the path's, else itself, its
names bound to the values and the last, for `*name`, to the rest joined. -/
def route_outcome (level : Level H M) (t : Terminal H) (wild : Bool) (values rem segments : List Bytes) (trailing : Bool) :
    Outcome H :=
  if wild = false ∧ t.slash ≠ trailing then
    if level.ctx.policy = .strict then .not_found level.miss level.mount_path
    else .redirect (path_of segments t.slash) level.miss level.mount_path
  else .matched t.info (t.names.zip (values ++ if wild then [concat (lit "/") rem] else [])) t.handler level.mount_path

/-- The answer where routes match and none answers the method. -/
def refusal (level : Level H M) (method : Bytes) (verbs : List Bytes) : Outcome H :=
  if method = lit "OPTIONS" then .options (allow_of verbs) level.miss level.mount_path
  else .not_allowed (allow_of verbs) level.miss level.mount_path

def fallback_outcome (compose : List M → H → H) (ctx : Context H M) (name : Bytes) (middleware : List M) (handler : H)
    (segments : List Segment) : Outcome H :=
  let at_prefix := full_prefix ctx segments
  .matched
    { name := full_name ctx name
      pattern := if at_prefix = lit "/" then lit "/*" else at_prefix ++ lit "/*"
      methods := [] }
    [] (compose (ctx.chain ++ middleware) handler) at_prefix

/-- The level a mount of routes opens. -/
def inner_level (compose : List M → H → H) (ctx : Context H M) (segments : List Segment) (name : Bytes) (middleware : List M)
    (routes : List (Route H M)) : Level H M :=
  { ctx := inner_context ctx segments name middleware, routes
    miss := compose (inner_context ctx segments name middleware).chain ctx.terminal
    mount_path := full_prefix ctx segments }

/-- What a level answers for the segments from the `start`th on. -/
inductive Answered (compose : List M → H → H) (method : Bytes) (segments : List Bytes) (trailing : Bool) :
    Level H M → ℕ → Outcome H → Prop where
  | fallback {level : Level H M} {start : ℕ} {pattern name : Bytes} {middleware : List M} {handler : H} {parsed : Parsed}
      (hr : .fallback pattern name middleware handler ∈ level.routes) (hparse : parse pattern true = .ok parsed)
      (htaken : parsed.segments.map Segment.text <+: segments.drop (start - 1)) :
      Answered compose method segments trailing level start
        (fallback_outcome compose level.ctx name middleware handler parsed.segments)
  | mount {level : Level H M} {start : ℕ} {pattern name : Bytes} {middleware : List M} {routes : List (Route H M)}
      {parsed : Parsed} {out : Outcome H}
      (hr : .mount pattern name middleware routes ∈ level.routes) (hparse : parse pattern true = .ok parsed)
      (htaken : parsed.segments.map Segment.text <+: segments.drop (start - 1))
      (hinner : Answered compose method segments trailing
        (inner_level compose level.ctx parsed.segments name middleware routes) (start + parsed.segments.length) out) :
      Answered compose method segments trailing level start out
  | route {level : Level H M} {start : ℕ} {r : Route H M} {p : List Step} {wild : Bool} {values rem : List Bytes} {m : Bytes}
      {t : Terminal H} (hfree : Unmounted level.routes (segments.drop (start - 1))) (hr : r ∈ level.routes)
      (hmatch : Matches r (segments.drop (start - 1)) p wild values rem)
      (hfirst : Foremost level.routes (segments.drop (start - 1)) (Serves method) p wild)
      (hat : LeafAt compose level.ctx r wild p m t)
      (hfound : FoundUnder level.routes p wild method m) :
      Answered compose method segments trailing level start (route_outcome level t wild values rem segments trailing)
  | refused {level : Level H M} {start : ℕ} {r : Route H M} {p : List Step} {wild : Bool} {values rem : List Bytes}
      {verbs : List Bytes} (hfree : Unmounted level.routes (segments.drop (start - 1))) (hr : r ∈ level.routes)
      (hmatch : Matches r (segments.drop (start - 1)) p wild values rem)
      (hfirst : Foremost level.routes (segments.drop (start - 1)) (fun _ => True) p wild)
      (hnone : ∀ r' ∈ level.routes, ∀ p' wild' values' rem',
        Matches r' (segments.drop (start - 1)) p' wild' values' rem' → ¬Serves method r')
      (hverbs : verbs.Nodup)
      (hmem : ∀ m, m ∈ verbs ↔ ∃ r' ∈ level.routes, leaf_place r' = some (p, wild) ∧ m ∈ methods_of r') :
      Answered compose method segments trailing level start (refusal level method verbs)
  | missed {level : Level H M} {start : ℕ} (hfree : Unmounted level.routes (segments.drop (start - 1)))
      (hnone : ∀ r ∈ level.routes, ∀ p wild values rem, ¬Matches r (segments.drop (start - 1)) p wild values rem) :
      Answered compose method segments trailing level start (.not_found level.miss level.mount_path)

/-! ## What the lookup answers -/

variable {method : Bytes}

theorem answers_iff {methods : Methods H} :
    answers methods method = true ↔ ∃ t, terminal_for methods method = some t := by
  rw [answers, terminal_for]
  rcases methods.by_method.lookup method with _ | t
  · by_cases hhead : method = lit "HEAD"
    · rw [if_pos hhead]
      simp [hhead, isSome_iff_exists]
    · rw [if_neg hhead]
      simp [hhead]
  · simp

theorem params_of_zip (segments : List Bytes) (rest_from : ℕ) (values : List Bytes) : ∀ {names : List Bytes},
    names.length = values.length → params_of segments rest_from names values = names.zip values := by
  induction values with
  | nil =>
    intro names h
    rw [length_eq_zero_iff.mp h]
    rfl
  | cons value values ih =>
    intro names h
    cases names with
    | nil => rfl
    | cons name names => rw [params_of, ih (Nat.succ.inj h), zip_cons_cons]

theorem params_of_rest (segments : List Bytes) (rest_from : ℕ) (values : List Bytes) : ∀ {names : List Bytes},
    names.length = values.length + 1 →
      params_of segments rest_from names values = names.zip (values ++ [concat (lit "/") (segments.drop (rest_from - 1))]) := by
  induction values with
  | nil =>
    intro names h
    obtain ⟨name, rfl⟩ := length_eq_one_iff.mp h
    rfl
  | cons value values ih =>
    intro names h
    cases names with
    | nil => cases h
    | cons name names => rw [params_of, ih (Nat.succ.inj h), cons_append, zip_cons_cons]

variable {compose : List M → H → H} {ctx : Context H M}

variable {r : Route H M} {m : Bytes} {t : Terminal H}

theorem LeafAt.names (h : LeafAt compose ctx r wild p m t) :
    t.names.length = p.count .any + if wild then 1 else 0 := by
  cases h with
  | leaf hparse => exact parse_names hparse

theorem parse_some (h : (parse pattern mount).toOption = some parsed) : parse pattern mount = .ok parsed := by
  rcases hp : parse pattern mount with why | parsed'
  · rw [hp] at h
    cases h
  · rw [hp] at h
    rw [some.inj h]

theorem mount_literal (h : mount_place r = some p) : ∃ texts : List Bytes, p = texts.map .literal := by
  cases r with
  | leaf => cases h
  | fallback pattern =>
    obtain ⟨parsed, hparsed, rfl⟩ := map_eq_some_iff.mp h
    exact ⟨_, parse_literal (parse_some hparsed)⟩
  | mount pattern =>
    rw [mount_place] at h
    obtain ⟨parsed, hparsed, rfl⟩ := map_eq_some_iff.mp h
    exact ⟨_, parse_literal (parse_some hparsed)⟩

variable {routes : List (Route H M)} {root : Node H}

theorem arrives_route (hrep : Represents compose ctx routes root) {i : ℕ} {a : Arrival H}
    (hfree : Unmounted routes rest) (h : Arrives rest i root [] a) :
    ∃ p wild values rem ms, a = ⟨p, ending wild, .methods ms values (if wild then i + p.length else 0)⟩ ∧
      slot wild p root = some ms ∧ captured p rest = some (values, rem) ∧ (wild = false → rem = []) := by
  obtain ⟨p, e, hit⟩ := a
  obtain ⟨-, values, rem, hcaptured, hstands⟩ := h
  dsimp only at hcaptured hstands
  cases e with
  | mount =>
    obtain ⟨m, hm, -⟩ := hstands
    obtain ⟨r, hr, hat⟩ := hrep.mounts p m hm
    obtain ⟨texts, rfl⟩ := mount_literal hat.place
    obtain ⟨-, rfl⟩ := (captured_texts texts).mp hcaptured
    exact absurd (prefix_append texts rem) (hfree r hr texts hat.place)
  | exact =>
    obtain ⟨-, hrem, ms, hms, rfl⟩ := hstands
    exact ⟨p, false, values, rem, ms, rfl, hms, hcaptured, fun _ => hrem⟩
  | wild =>
    obtain ⟨-, ms, hms, rfl⟩ := hstands
    exact ⟨p, true, values, rem, ms, rfl, hms, hcaptured, nofun⟩

variable {values rem : List Bytes} {ms : Methods H}

theorem match_arrives (hrep : Represents compose ctx routes root) {i : ℕ} (hfree : Unmounted routes rest)
    (hslot : slot wild p root = some ms) (hcaptured : captured p rest = some (values, rem))
    (hwhole : wild = false → rem = []) :
    Arrives rest i root [] ⟨p, ending wild, .methods ms values (if wild then i + p.length else 0)⟩ := by
  have hnone : ∀ q, q <+: p → mounted q root = none := by
    intro q hq
    obtain ⟨q', rfl⟩ := hq
    rw [captured_append] at hcaptured
    obtain ⟨⟨values', left⟩, hcq, -⟩ := bind_eq_some_iff.mp hcaptured
    rcases hm : mounted q root with _ | m
    · rfl
    · obtain ⟨r, hr, hat⟩ := hrep.mounts q m hm
      obtain ⟨texts, rfl⟩ := mount_literal hat.place
      obtain ⟨-, rfl⟩ := (captured_texts texts).mp hcq
      exact absurd (prefix_append texts left) (hfree r hr texts hat.place)
  refine ⟨fun q hq _ => hnone q hq, values, rem, hcaptured, ?_⟩
  rw [nil_append]
  cases wild with
  | true => exact ⟨hnone p (prefix_refl p), ms, hslot, rfl⟩
  | false => exact ⟨hnone p (prefix_refl p), hwhole rfl, ms, hslot, rfl⟩

variable {r' : Route H M}

theorem compatible_of (h : routes.Pairwise Compatible) (hr : r ∈ routes) (hr' : r' ∈ routes) (hne : r ≠ r') :
    Compatible r r' :=
  haveI : @Std.Symm (Route H M) Compatible := ⟨fun _ _ h => h.symm⟩
  h.forall hr hr' hne

theorem walk_mount (hrep : Represents compose ctx routes root) (hcompatible : routes.Pairwise Compatible)
    (hr : r ∈ routes) {texts : List Bytes} (hplace : mount_place r = some (texts.map .literal))
    (htaken : texts <+: rest) (method : Bytes) (start : ℕ) :
    ∃ r' ∈ routes, ∃ m, MountAt compose ctx r' (texts.map .literal) m ∧
      walk method rest start root [] none = (some (.mount m (start + texts.length)), none) := by
  obtain ⟨m, hm⟩ := isSome_iff_exists.mp (hrep.places r hr _ hplace)
  obtain ⟨r', hr', hat⟩ := hrep.mounts _ m hm
  refine ⟨r', hr', m, hat, ?_⟩
  -- a mount on the way would be another route's, whose prefix begins this one's
  have hbefore : ∀ q, q <+: texts.map Step.literal → q ≠ texts.map Step.literal → mounted q root = none := by
    intro q hq hne
    rcases hmq : mounted q root with _ | mq
    · rfl
    obtain ⟨d, hd, hatd⟩ := hrep.mounts q mq hmq
    have hother : d ≠ r := by
      rintro rfl
      exact hne (some.inj (hatd.place.symm.trans hplace))
    have hc := compatible_of hcompatible hd hr hother
    exact absurd hq (hc.mounts q _ hatd.place hplace).1
  obtain ⟨rem, rfl⟩ := htaken
  obtain ⟨tail, htail⟩ := reach_mount texts rem start [] hbefore hm
  rw [walk_eq, htail, map_cons, scan]
  rfl

theorem Represents.at_place (hrep : Represents compose ctx routes root) (hslot : slot wild p root = some ms)
    (m : Bytes) (t : Terminal H) :
    ms.by_method.lookup m = some t ↔ ∃ r ∈ routes, LeafAt compose ctx r wild p m t := by
  rw [← hrep.leaves, held, hslot, bind_some]

theorem Represents.mem_keys (hrep : Represents compose ctx routes root) (hslot : slot wild p root = some ms)
    (m : Bytes) :
    m ∈ ms.by_method.keys ↔ ∃ r ∈ routes, leaf_place r = some (p, wild) ∧ m ∈ methods_of r := by
  rw [← AList.mem_keys, ← AList.lookup_isSome, isSome_iff_exists]
  constructor
  · rintro ⟨t, ht⟩
    obtain ⟨r, hr, hat⟩ := (hrep.at_place hslot m t).mp ht
    exact ⟨r, hr, hat.place⟩
  · rintro ⟨r, hr, hplace, hm⟩
    have hsome := hrep.answered r hr _ hplace m hm
    rw [held, hslot, bind_some] at hsome
    exact isSome_iff_exists.mp hsome

theorem Represents.slot_of (hrep : Represents compose ctx routes root) (hr : r ∈ routes) (hm : m ∈ methods_of r)
    (hplace : leaf_place r = some (p, wild)) : ∃ ms, slot wild p root = some ms := by
  have hsome := hrep.answered r hr _ hplace m hm
  rw [held] at hsome
  rcases hs : slot wild p root with _ | ms
  · rw [hs] at hsome
    cases hsome
  · exact ⟨ms, rfl⟩

theorem good_methods (h : Good ctx r) (hplace : leaf_place r = some (p, wild)) : ∃ m, m ∈ methods_of r := by
  cases r with
  | leaf methods pattern name handler middleware =>
    obtain ⟨parsed, -, -, hne, -⟩ := h
    exact exists_mem_of_ne_nil _ hne
  | fallback => cases hplace
  | mount => cases hplace

theorem answers_serves (hrep : Represents compose ctx routes root) (hslot : slot wild p root = some ms)
    (method : Bytes) :
    answers ms method = true ↔ ∃ r ∈ routes, leaf_place r = some (p, wild) ∧ Serves method r := by
  have hkey : ∀ m, (ms.by_method.lookup m).isSome = true ↔ ∃ r ∈ routes, leaf_place r = some (p, wild) ∧ m ∈ methods_of r := by
    intro m
    rw [AList.lookup_isSome, AList.mem_keys, hrep.mem_keys hslot]
  rw [answers, Bool.or_eq_true, Bool.and_eq_true, hkey, hkey, beq_iff_eq]
  constructor
  · rintro (⟨r, hr, hplace, hm⟩ | ⟨hhead, r, hr, hplace, hm⟩)
    · exact ⟨r, hr, hplace, .inl hm⟩
    · exact ⟨r, hr, hplace, .inr ⟨hhead, hm⟩⟩
  · rintro ⟨r, hr, hplace, hm | ⟨hhead, hm⟩⟩
    · exact .inl ⟨r, hr, hplace, hm⟩
    · exact .inr ⟨hhead, r, hr, hplace, hm⟩

theorem terminal_at (hrep : Represents compose ctx routes root) (hslot : slot wild p root = some ms)
    (h : terminal_for ms method = some t) :
    ∃ r ∈ routes, ∃ m, LeafAt compose ctx r wild p m t ∧ FoundUnder routes p wild method m := by
  rw [terminal_for] at h
  rcases hown : ms.by_method.lookup method with _ | own
  · rw [hown] at h
    by_cases hhead : method = lit "HEAD"
    · rw [if_pos hhead] at h
      obtain ⟨r, hr, hat⟩ := (hrep.at_place hslot _ t).mp h
      refine ⟨r, hr, _, hat, .inr ⟨hhead, rfl, fun r' hr' hplace hm => ?_⟩⟩
      have hmem := (hrep.mem_keys hslot method).mpr ⟨r', hr', hplace, hm⟩
      rw [← AList.mem_keys, ← AList.lookup_isSome, hown] at hmem
      cases hmem
    · rw [if_neg hhead] at h
      cases h
  · rw [hown] at h
    rw [some.inj h] at hown
    obtain ⟨r, hr, hat⟩ := (hrep.at_place hslot method t).mp hown
    exact ⟨r, hr, _, hat, .inl rfl⟩

variable {start : ℕ}

theorem outcome_route {router : Router H} (level : Level H M) (hpolicy : router.policy = level.ctx.policy)
    (hmiss : router.miss = level.miss) (hpath : router.mount_path = level.mount_path)
    (ht : terminal_for ms method = some t) (hstart : 1 ≤ start) {segments : List Bytes}
    (hcaptured : captured p (segments.drop (start - 1)) = some (values, rem))
    (hnames : t.names.length = p.count .any + if wild then 1 else 0) (trailing : Bool) :
    outcome_at router method segments trailing ms values (if wild then start + p.length else 0) =
      route_outcome level t wild values rem segments trailing := by
  obtain ⟨hlength, hrem⟩ := captured_some p hcaptured
  rw [← hlength] at hnames
  rw [outcome_at, ht, route_outcome, ← hpolicy, ← hmiss, ← hpath]
  cases wild with
  | true =>
    have hfrom : ¬(start + p.length = 0 ∧ t.slash ≠ trailing) := fun h => by omega
    have hrest : segments.drop (start + p.length - 1) = rem := by
      rw [hrem, drop_drop]
      congr 1
      omega
    simp only [if_true, hfrom, if_false, params_of_rest segments _ values hnames, hrest, Bool.true_eq_false, false_and]
  | false =>
    simp only [Bool.false_eq_true, if_false, params_of_zip segments _ values hnames, append_nil, true_and]

theorem outcome_refused {router : Router H} (level : Level H M) (hmiss : router.miss = level.miss)
    (hpath : router.mount_path = level.mount_path) (ht : terminal_for ms method = none)
    (segments values : List Bytes) (trailing : Bool) (rest_from : ℕ) :
    outcome_at router method segments trailing ms values rest_from = refusal level method ms.by_method.keys := by
  rw [outcome_at, ht, refusal, ← hmiss, ← hpath]

theorem lookup_routes (hrep : Represents compose ctx routes root) (hgood : ∀ r ∈ routes, Good ctx r)
    (method : Bytes) (segments : List Bytes) (trailing : Bool) (hstart : 1 ≤ start)
    (hfree : Unmounted routes (segments.drop (start - 1))) (fuel : ℕ) (miss : H) (mount_path : Bytes) :
    ∃ out, lookup (fuel + 1) { root, policy := ctx.policy, miss, mount_path } method segments trailing start = some out ∧
      Answered compose method segments trailing { ctx, routes, miss, mount_path } start out := by
  -- each route that matches is reached, and takes the method where it serves it
  have hreached : ∀ r ∈ routes, ∀ p wild values rem, Matches r (segments.drop (start - 1)) p wild values rem →
      ∃ ms, slot wild p root = some ms ∧
        (⟨p, ending wild, .methods ms values (if wild then start + p.length else 0)⟩ : Arrival H) ∈
          reach (segments.drop (start - 1)) start root [] := by
    intro r hr p wild values rem hmatch
    obtain ⟨m, hm⟩ := good_methods (hgood r hr) hmatch.place
    obtain ⟨ms, hslot⟩ := hrep.slot_of hr hm hmatch.place
    exact ⟨ms, hslot, (mem_reach _).mpr (match_arrives hrep hfree hslot hmatch.takes hmatch.whole)⟩
  have hordered := reach_pairwise (segments.drop (start - 1)) start root []
  have hmem : ∀ a ∈ reach (segments.drop (start - 1)) start root [],
      Arrives (segments.drop (start - 1)) start root [] a := fun a => (mem_reach _).mp
  rw [lookup, walk_eq]
  generalize reach (segments.drop (start - 1)) start root [] = arrivals at hreached hordered hmem
  rw [scan, find?_map]
  rcases hfind : arrivals.find? (takes method ∘ Arrival.hit) with _ | a
  · have hnone : ∀ a ∈ arrivals, takes method a.hit = false := by
      intro a ha
      simpa using find?_eq_none.mp hfind a ha
    rcases arrivals with _ | ⟨a, arrivals⟩
    · refine ⟨_, rfl, .missed hfree fun r hr p wild values rem hmatch => ?_⟩
      obtain ⟨ms, -, h⟩ := hreached r hr p wild values rem hmatch
      cases h
    obtain ⟨p, wild, values, rem, ms, rfl, hslot, hcaptured, hwhole⟩ :=
      arrives_route hrep hfree (hmem a mem_cons_self)
    have hanswers : answers ms method = false := hnone _ mem_cons_self
    have hterminal : terminal_for ms method = none := by
      rcases ht : terminal_for ms method with _ | t
      · rfl
      · rw [answers_iff.mpr ⟨t, ht⟩] at hanswers
        cases hanswers
    obtain ⟨m, t, hheld⟩ := hrep.slots wild p (by rw [hslot]; rfl)
    obtain ⟨r, hr, hat⟩ := (hrep.leaves wild p m t).mp hheld
    have htakes : (!takes method (.methods ms values (if wild then start + p.length else 0) : Hit H)) = true := by
      rw [takes, hanswers]
      rfl
    have hfirst : Foremost routes (segments.drop (start - 1)) (fun _ => True) p wild := by
      intro r' hr' p' wild' values' rem' hmatch _
      obtain ⟨ms', -, h⟩ := hreached r' hr' p' wild' values' rem' hmatch
      rcases mem_cons.mp h with h | h
      · obtain ⟨rfl, hending, -⟩ := Arrival.mk.inj h
        rw [hending]
      · exact le_of_lt ((pairwise_cons.mp hordered).1 _ h)
    refine ⟨_, ?_, .refused hfree hr ⟨hat.place.1, hcaptured, hwhole⟩ hfirst (fun r' hr' p' wild' values' rem' hmatch hs => ?_)
      ms.by_method.keys_nodup (hrep.mem_keys hslot)⟩
    · simp only [map_none, none_or, map_cons, head?_cons, filter_some, htakes, if_true, map_some, forget]
      rw [outcome_refused { ctx, routes, miss, mount_path } rfl rfl hterminal]
    · obtain ⟨ms', hslot', h⟩ := hreached r' hr' p' wild' values' rem' hmatch
      have hyes := (answers_serves hrep hslot' method).mpr ⟨r', hr', hmatch.place, hs⟩
      have hno := hnone _ h
      rw [takes, hyes] at hno
      cases hno
  · obtain ⟨p, wild, values, rem, ms, rfl, hslot, hcaptured, hwhole⟩ :=
      arrives_route hrep hfree (hmem a (mem_of_find?_eq_some hfind))
    have hanswers : answers ms method = true := by simpa [takes] using find?_some hfind
    obtain ⟨t, ht⟩ := answers_iff.mp hanswers
    obtain ⟨r, hr, m, hat, hfound⟩ := terminal_at hrep hslot ht
    have hfirst : Foremost routes (segments.drop (start - 1)) (Serves method) p wild := by
      intro r' hr' p' wild' values' rem' hmatch hs
      obtain ⟨ms', hslot', h⟩ := hreached r' hr' p' wild' values' rem' hmatch
      have hpass : (takes method ∘ Arrival.hit)
          (⟨p', ending wild', .methods ms' values' (if wild' then start + p'.length else 0)⟩ : Arrival H) = true :=
        (answers_serves hrep hslot' method).mpr ⟨r', hr', hmatch.place, hs⟩
      exact find_first hordered hfind h hpass
    refine ⟨_, ?_, .route hfree hr ⟨hat.place.1, hcaptured, hwhole⟩ hfirst hat hfound⟩
    simp only [map_some, some_or]
    rw [outcome_route { ctx, routes, miss, mount_path } rfl rfl rfl ht hstart hcaptured hat.names]

mutual

/-- How deep mounts of routes are nested in a route. -/
def depth : Route H M → ℕ
  | .leaf .. => 0
  | .fallback .. => 0
  | .mount _ _ _ routes => depth_all routes + 1

def depth_all : List (Route H M) → ℕ
  | [] => 0
  | route :: routes => max (depth route) (depth_all routes)

end

theorem depth_le (hr : r ∈ routes) : depth r ≤ depth_all routes := by
  induction routes with
  | nil => exact absurd hr not_mem_nil
  | cons r' routes ih =>
    rw [depth_all]
    rcases mem_cons.mp hr with rfl | hr
    · exact le_max_left _ _
    · exact le_max_of_le_right (ih hr)

theorem goodAll_iff : GoodAll ctx routes ↔ ∀ r ∈ routes, Good ctx r := by
  induction routes with
  | nil => exact ⟨nofun, fun _ => trivial⟩
  | cons r routes ih => rw [GoodAll, ih, forall_mem_cons]

theorem compiled_of {tables tables' : Tables}
    (h : compile compose ctx routes (new_node H) tables = .ok (root, tables')) :
    Compiled compose ctx [] routes root tables tables' :=
  compile_ok routes represents_nil (forall_mem_nil _) h

/-- A router compiled from routes answers what its level does. -/
theorem lookup_answered (method : Bytes) (segments : List Bytes) (trailing : Bool) : ∀ (fuel : ℕ) {ctx : Context H M}
    {routes : List (Route H M)} {root : Node H} {tables tables' : Tables},
      compile compose ctx routes (new_node H) tables = .ok (root, tables') → depth_all routes < fuel →
        ∀ (miss : H) (mount_path : Bytes) {start : ℕ}, 1 ≤ start →
          ∃ out, lookup fuel { root, policy := ctx.policy, miss, mount_path } method segments trailing start = some out ∧
            Answered compose method segments trailing { ctx, routes, miss, mount_path } start out := by
  intro fuel
  induction fuel with
  | zero => exact fun _ hdepth => absurd hdepth (Nat.not_lt_zero _)
  | succ fuel ih =>
    intro ctx routes root tables tables' h hdepth miss mount_path start hstart
    have hcompiled := compiled_of h
    have hrep : Represents compose ctx routes root := hcompiled.represents
    by_cases hfree : Unmounted routes (segments.drop (start - 1))
    · exact lookup_routes hrep (goodAll_iff.mp hcompiled.good) method segments trailing hstart hfree fuel miss mount_path
    simp only [Unmounted, not_forall, not_not] at hfree
    obtain ⟨r, hr, texts, hplace, htaken⟩ := hfree
    obtain ⟨r', hr', m, hat, hwalk⟩ := walk_mount hrep hcompiled.compatible hr hplace htaken method start
    rw [lookup, hwalk]
    -- `texts` are the segments of the pattern the mount was read from
    have htexts : ∀ {parsed : Parsed} {pattern : Bytes}, parse pattern true = .ok parsed →
        steps parsed.segments = texts.map .literal → parsed.segments.map Segment.text = texts := by
      intro parsed pattern hparse hsteps
      rw [parse_literal hparse] at hsteps
      exact map_injective_iff.mpr (fun _ _ h => Step.literal.inj h) hsteps
    generalize hpath : texts.map Step.literal = path at hat htexts
    cases hat with
    | fallback hparse hmade =>
      have htexts := htexts hparse rfl
      cases hmade
      exact ⟨_, rfl, .fallback hr' hparse (by rwa [htexts])⟩
    | mount hparse hmade =>
      have htexts := htexts hparse rfl
      have hinner := depth_le hr'
      rw [depth] at hinner
      obtain ⟨out, hout, hanswered⟩ := ih hmade (by omega) _ _ (Nat.le_add_right_of_le hstart)
      refine ⟨out, hout, .mount hr' hparse (by rwa [htexts]) ?_⟩
      rw [← htexts, length_map] at hanswered
      exact hanswered

/-! ## There is one answer -/

theorem Matches.ends_once {p' : List Step} {values' rem' : List Bytes} (h : Matches r rest p wild values rem)
    (h' : Matches r' rest p' wild' values' rem') (hle : key p (ending wild) ≤ key p' (ending wild'))
    (hge : key p' (ending wild') ≤ key p (ending wild)) :
    p = p' ∧ wild = wild' ∧ values = values' ∧ rem = rem' := by
  obtain ⟨rfl, rfl⟩ := key_inj h.takes h'.takes (le_antisymm hle hge)
  obtain ⟨rfl, rfl⟩ := Prod.mk.inj (some.inj (h.takes.symm.trans h'.takes))
  exact ⟨rfl, rfl, rfl, rfl⟩

theorem allow_of_perm {verbs verbs' : List Bytes} (h : verbs.Perm verbs') : allow_of verbs = allow_of verbs' := by
  have hcontains : ∀ m, verbs.contains m = verbs'.contains m := fun m => h.contains_eq
  rw [allow_of, allow_of]
  simp only [hcontains]
  refine congrArg _ (List.Perm.eq_of_pairwise' (pairwise_insertionSort _ _) (pairwise_insertionSort _ _) ?_)
  exact (perm_insertionSort _ _).trans (((h.append_right _).append_right _).trans (perm_insertionSort _ _).symm)

theorem LeafAt.once {p' : List Step} {m' : Bytes} {t' : Terminal H} (h : LeafAt compose ctx r wild p m t)
    (h' : LeafAt compose ctx r wild' p' m' t') : t = t' := by
  cases h with
  | leaf hparse =>
    cases h' with
    | leaf hparse' => rw [ok.inj (hparse.symm.trans hparse')]

theorem LeafAt.serves (h : LeafAt compose ctx r wild p m t) (hfound : FoundUnder routes p wild method m) :
    Serves method r := by
  rcases hfound with rfl | ⟨hhead, rfl, -⟩
  · exact .inl h.place.2
  · exact .inr ⟨hhead, h.place.2⟩

theorem mounts_once (h : routes.Pairwise Compatible) (hr : r ∈ routes) (hr' : r' ∈ routes)
    {texts texts' : List Bytes} (hplace : mount_place r = some (texts.map .literal))
    (hplace' : mount_place r' = some (texts'.map .literal)) (htaken : texts <+: rest) (htaken' : texts' <+: rest) :
    r = r' := by
  by_contra hne
  obtain ⟨hnot, hnot'⟩ := (compatible_of h hr hr' hne).mounts _ _ hplace hplace'
  rcases prefix_or_prefix_of_prefix htaken htaken' with hp | hp
  · exact hnot (hp.map _)
  · exact hnot' (hp.map _)

/-- A level each of whose routes may be registered, beside the others. -/
structure Level.Sound (level : Level H M) : Prop where
  good : ∀ r ∈ level.routes, Good level.ctx r
  compatible : level.routes.Pairwise Compatible

theorem mount_texts (hparse : parse pattern true = .ok parsed) (name : Bytes) (middleware : List M)
    (routes : List (Route H M)) :
    mount_place (.mount pattern name middleware routes) = some ((parsed.segments.map Segment.text).map .literal) := by
  rw [mount_place, hparse, ← parse_literal hparse]
  rfl

theorem fallback_texts (hparse : parse pattern true = .ok parsed) (name : Bytes) (middleware : List M) (handler : H) :
    mount_place (.fallback pattern name middleware handler) = some ((parsed.segments.map Segment.text).map .literal) := by
  rw [mount_place, hparse, ← parse_literal hparse]
  rfl

theorem Level.Sound.inner {level : Level H M} (h : level.Sound) {name : Bytes} {middleware : List M}
    (hr : .mount pattern name middleware routes ∈ level.routes) (hparse : parse pattern true = .ok parsed) :
    (inner_level compose level.ctx parsed.segments name middleware routes).Sound := by
  have hgood := h.good _ hr
  obtain ⟨parsed', hrules, hpairwise, hall⟩ := hgood
  obtain rfl := ok.inj (hparse.symm.trans hrules.1)
  exact ⟨goodAll_iff.mp hall, hpairwise⟩

theorem LeafAt.route_once (hcompatible : routes.Pairwise Compatible) (hr : r ∈ routes) (hr' : r' ∈ routes)
    {m' : Bytes} {t' : Terminal H} (hat : LeafAt compose ctx r wild p m t)
    (hat' : LeafAt compose ctx r' wild p m' t') (hfound : FoundUnder routes p wild method m)
    (hfound' : FoundUnder routes p wild method m') : t = t' := by
  have hmethod : m = m' := by
    rcases hfound with rfl | ⟨hhead, rfl, hnone⟩
    · rcases hfound' with rfl | ⟨hhead, rfl, hnone⟩
      · rfl
      · exact absurd hat.place.2 (hnone r hr hat.place.1)
    · rcases hfound' with rfl | ⟨-, rfl, -⟩
      · exact absurd hat'.place.2 (hnone r' hr' hat'.place.1)
      · rfl
  subst hmethod
  by_cases hsame : r = r'
  · subst hsame
    exact hat.once hat'
  · have hc := compatible_of hcompatible hr hr' hsame
    exact absurd hat'.place.2 (hc.leaves _ hat.place.1 hat'.place.1 m hat.place.2)

/-- A sound level has one answer. -/
theorem Answered.unique {segments : List Bytes} {trailing : Bool} {level : Level H M} {out out' : Outcome H}
    (hsound : level.Sound) (h : Answered compose method segments trailing level start out)
    (h' : Answered compose method segments trailing level start out') : out = out' := by
  induction h with
  | @fallback level start pattern name middleware handler parsed hr hparse htaken =>
    have hplace := fallback_texts hparse name middleware handler
    cases h' with
    | fallback hr' hparse' htaken' =>
      have hsame := mounts_once hsound.compatible hr hr' hplace (fallback_texts hparse' _ _ _) htaken htaken'
      obtain ⟨rfl, rfl, rfl, rfl⟩ := Route.fallback.inj hsame
      rw [ok.inj (hparse.symm.trans hparse')]
    | mount hr' hparse' htaken' =>
      have hsame := mounts_once hsound.compatible hr hr' hplace (mount_texts hparse' _ _ _) htaken htaken'
      cases hsame
    | route hfree => exact absurd htaken (hfree _ hr _ hplace)
    | refused hfree => exact absurd htaken (hfree _ hr _ hplace)
    | missed hfree => exact absurd htaken (hfree _ hr _ hplace)
  | @mount level start pattern name middleware routes parsed out hr hparse htaken hinner ih =>
    have hplace := mount_texts hparse name middleware routes
    cases h' with
    | fallback hr' hparse' htaken' =>
      have hsame := mounts_once hsound.compatible hr hr' hplace (fallback_texts hparse' _ _ _) htaken htaken'
      cases hsame
    | mount hr' hparse' htaken' hinner' =>
      have hsame := mounts_once hsound.compatible hr hr' hplace (mount_texts hparse' _ _ _) htaken htaken'
      obtain ⟨rfl, rfl, rfl, rfl⟩ := Route.mount.inj hsame
      obtain rfl := ok.inj (hparse.symm.trans hparse')
      exact ih (hsound.inner hr hparse) hinner'
    | route hfree => exact absurd htaken (hfree _ hr _ hplace)
    | refused hfree => exact absurd htaken (hfree _ hr _ hplace)
    | missed hfree => exact absurd htaken (hfree _ hr _ hplace)
  | route hfree hr hmatch hfirst hat hfound =>
    have hserves := hat.serves hfound
    cases h' with
    | fallback hr' hparse' htaken' => exact absurd htaken' (hfree _ hr' _ (fallback_texts hparse' _ _ _))
    | mount hr' hparse' htaken' => exact absurd htaken' (hfree _ hr' _ (mount_texts hparse' _ _ _))
    | route hfree' hr' hmatch' hfirst' hat' hfound' =>
      have hserves' := hat'.serves hfound'
      obtain ⟨rfl, rfl, rfl, rfl⟩ := hmatch.ends_once hmatch' (hfirst _ hr' _ _ _ _ hmatch' hserves')
        (hfirst' _ hr _ _ _ _ hmatch hserves)
      rw [hat.route_once hsound.compatible hr hr' hat' hfound hfound']
    | refused hfree' hr' hmatch' hfirst' hnone' => exact absurd hserves (hnone' _ hr _ _ _ _ hmatch)
    | missed hfree' hnone' => exact absurd hmatch (hnone' _ hr _ _ _ _)
  | refused hfree hr hmatch hfirst hnone hverbs hmem =>
    cases h' with
    | fallback hr' hparse' htaken' => exact absurd htaken' (hfree _ hr' _ (fallback_texts hparse' _ _ _))
    | mount hr' hparse' htaken' => exact absurd htaken' (hfree _ hr' _ (mount_texts hparse' _ _ _))
    | route hfree' hr' hmatch' hfirst' hat' hfound' =>
      have hserves' := hat'.serves hfound'
      exact absurd hserves' (hnone _ hr' _ _ _ _ hmatch')
    | refused hfree' hr' hmatch' hfirst' hnone' hverbs' hmem' =>
      obtain ⟨rfl, rfl, rfl, rfl⟩ := hmatch.ends_once hmatch' (hfirst _ hr' _ _ _ _ hmatch' trivial)
        (hfirst' _ hr _ _ _ _ hmatch trivial)
      have hperm := (perm_ext_iff_of_nodup hverbs hverbs').mpr fun m => (hmem m).trans (hmem' m).symm
      rw [refusal, refusal, allow_of_perm hperm]
    | missed hfree' hnone' => exact absurd hmatch (hnone' _ hr _ _ _ _)
  | missed hfree hnone =>
    cases h' with
    | fallback hr' hparse' htaken' => exact absurd htaken' (hfree _ hr' _ (fallback_texts hparse' _ _ _))
    | mount hr' hparse' htaken' => exact absurd htaken' (hfree _ hr' _ (mount_texts hparse' _ _ _))
    | route hfree' hr' hmatch' => exact absurd hmatch' (hnone _ hr' _ _ _ _)
    | refused hfree' hr' hmatch' => exact absurd hmatch' (hnone _ hr' _ _ _ _)
    | missed => rfl

end Cosmic.Web
