/-
The order in which routes are declared does not matter.

The lists of a tree of routes are reordered level by level. What a level answers looks at which
routes it holds and at nothing else, so a tree and its reordering are built together or not at
all, and answer alike.
-/
import Cosmic.Web.RouterAnswer

set_option autoImplicit false

namespace Cosmic.Web

open Cosmic.Base List Except

variable {H M : Type}

/-! ## Reorderings -/

/-- A list of routes, and its own order and those of the mounts' lists in it changed. -/
inductive Reordered : List (Route H M) → List (Route H M) → Prop where
  | nil : Reordered [] []
  | cons (r : Route H M) {routes routes' : List (Route H M)} (h : Reordered routes routes') :
      Reordered (r :: routes) (r :: routes')
  | inside (pattern name : Bytes) (middleware : List M) {inner inner' routes routes' : List (Route H M)}
      (hinner : Reordered inner inner') (h : Reordered routes routes') :
      Reordered (.mount pattern name middleware inner :: routes) (.mount pattern name middleware inner' :: routes')
  | swap (r r' : Route H M) (routes : List (Route H M)) : Reordered (r :: r' :: routes) (r' :: r :: routes)
  | trans {routes routes' routes'' : List (Route H M)} (h : Reordered routes routes') (h' : Reordered routes' routes'') :
      Reordered routes routes''

variable {routes routes' : List (Route H M)}

theorem Reordered.of_perm (h : routes.Perm routes') : Reordered routes routes' := by
  induction h with
  | nil => exact .nil
  | cons r _ ih => exact .cons r ih
  | swap r r' routes => exact .swap r' r routes
  | trans _ _ ih ih' => exact .trans ih ih'

theorem Reordered.refl (routes : List (Route H M)) : Reordered routes routes := .of_perm (List.Perm.refl routes)

theorem Reordered.symm (h : Reordered routes routes') : Reordered routes' routes := by
  induction h with
  | nil => exact .nil
  | cons r _ ih => exact .cons r ih
  | inside pattern name middleware _ _ ihinner ih => exact .inside pattern name middleware ihinner ih
  | swap r r' routes => exact .swap r' r routes
  | trans _ _ ih ih' => exact .trans ih' ih

inductive Alike : Route H M → Route H M → Prop where
  | same (r : Route H M) : Alike r r
  | mount (pattern name : Bytes) (middleware : List M) {inner inner' : List (Route H M)} (h : Reordered inner inner') :
      Alike (.mount pattern name middleware inner) (.mount pattern name middleware inner')

variable {r r' : Route H M}

theorem Alike.trans {r'' : Route H M} (h : Alike r r') (h' : Alike r' r'') : Alike r r'' := by
  cases h with
  | same => exact h'
  | mount pattern name middleware h =>
    cases h' with
    | same => exact .mount pattern name middleware h
    | mount _ _ _ h' => exact .mount pattern name middleware (h.trans h')

theorem Alike.symm (h : Alike r r') : Alike r' r := by
  cases h with
  | same => exact .same r
  | mount pattern name middleware h => exact .mount pattern name middleware h.symm

theorem Alike.leaf_place (h : Alike r r') : leaf_place r = leaf_place r' := by
  cases h <;> rfl

theorem Alike.mount_place (h : Alike r r') : mount_place r = mount_place r' := by
  cases h <;> rfl

theorem Alike.methods_of (h : Alike r r') : methods_of r = methods_of r' := by
  cases h <;> rfl

theorem Alike.eq_of_leaf (h : Alike r r') {place : List Step × Bool} (hplace : Web.leaf_place r = some place) :
    r' = r := by
  cases h with
  | same => rfl
  | mount => cases hplace

theorem Reordered.mem (h : Reordered routes routes') (hr : r ∈ routes) : ∃ r' ∈ routes', Alike r r' := by
  induction h generalizing r with
  | nil => exact absurd hr not_mem_nil
  | cons r₀ _ ih =>
    rcases mem_cons.mp hr with rfl | hr
    · exact ⟨r, mem_cons_self, .same r⟩
    · obtain ⟨r', hr', halike⟩ := ih hr
      exact ⟨r', mem_cons_of_mem _ hr', halike⟩
  | inside pattern name middleware hinner _ _ ih =>
    rcases mem_cons.mp hr with rfl | hr
    · exact ⟨_, mem_cons_self, .mount pattern name middleware hinner⟩
    · obtain ⟨r', hr', halike⟩ := ih hr
      exact ⟨r', mem_cons_of_mem _ hr', halike⟩
  | swap r₀ r₁ routes => exact ⟨r, (List.Perm.swap r₁ r₀ routes).mem_iff.mp hr, .same r⟩
  | trans _ _ ih ih' =>
    obtain ⟨r', hr', halike⟩ := ih hr
    obtain ⟨r'', hr'', halike'⟩ := ih' hr'
    exact ⟨r'', hr'', halike.trans halike'⟩

theorem Reordered.mem_leaf (h : Reordered routes routes') (hr : r ∈ routes) {place : List Step × Bool}
    (hplace : leaf_place r = some place) : r ∈ routes' := by
  obtain ⟨r', hr', halike⟩ := h.mem hr
  rwa [halike.eq_of_leaf hplace] at hr'

/-! ## What a reordering leaves as it was -/

theorem Alike.compatible {s s' : Route H M} (hr : Alike r r') (hs : Alike s s') (h : Compatible r s) :
    Compatible r' s' := by
  obtain ⟨hleaves, hbelow, hbelow', hmounts⟩ := h
  rw [hr.leaf_place, hr.methods_of, hs.leaf_place, hs.methods_of] at hleaves
  rw [hr.mount_place, hs.leaf_place] at hbelow
  rw [hs.mount_place, hr.leaf_place] at hbelow'
  rw [hr.mount_place, hs.mount_place] at hmounts
  exact ⟨hleaves, hbelow, hbelow', hmounts⟩

theorem Reordered.compatible_with (h : Reordered routes routes') (halike : Alike r r')
    (hr : ∀ s ∈ routes, Compatible r s) : ∀ s ∈ routes', Compatible r' s := by
  intro s hs
  obtain ⟨s', hs', hsame⟩ := h.symm.mem hs
  exact halike.compatible hsame.symm (hr s' hs')

theorem Reordered.compatible (h : Reordered routes routes') (hroutes : routes.Pairwise Compatible) :
    routes'.Pairwise Compatible := by
  induction h with
  | nil => exact .nil
  | cons r hrest ih =>
    obtain ⟨hr, hroutes⟩ := pairwise_cons.mp hroutes
    exact pairwise_cons.mpr ⟨hrest.compatible_with (.same r) hr, ih hroutes⟩
  | inside pattern name middleware hinner hrest _ ih =>
    obtain ⟨hr, hroutes⟩ := pairwise_cons.mp hroutes
    exact pairwise_cons.mpr ⟨hrest.compatible_with (.mount pattern name middleware hinner) hr, ih hroutes⟩
  | swap r r' routes =>
    obtain ⟨hr, hroutes⟩ := pairwise_cons.mp hroutes
    obtain ⟨hr', hroutes⟩ := pairwise_cons.mp hroutes
    refine pairwise_cons.mpr ⟨fun s hs => ?_, pairwise_cons.mpr ⟨fun s hs => hr s (mem_cons_of_mem _ hs), hroutes⟩⟩
    rcases mem_cons.mp hs with rfl | hs
    · exact (hr r' mem_cons_self).symm
    · exact hr' s hs
  | trans _ _ ih ih' => exact ih' (ih hroutes)

theorem Reordered.good (h : Reordered routes routes') : ∀ {ctx : Context H M},
    GoodAll ctx routes → GoodAll ctx routes' := by
  induction h with
  | nil => exact id
  | cons r _ ih => exact fun hgood => ⟨hgood.1, ih hgood.2⟩
  | inside pattern name middleware hinner _ ihinner ih =>
    intro ctx hgood
    obtain ⟨hmount, hgood⟩ := hgood
    obtain ⟨parsed, hrules, hpairwise, hall⟩ := hmount
    refine ⟨?_, ih hgood⟩
    rw [Good]
    exact ⟨parsed, hrules, hinner.compatible hpairwise, ihinner hall⟩
  | swap r r' routes => exact fun hgood => ⟨hgood.2.1, hgood.1, hgood.2.2⟩
  | trans _ _ ih ih' => exact fun hgood => ih' (ih hgood)

theorem names_of_mount (ctx : Context H M) (pattern name : Bytes) (middleware : List M) {inner inner' : List (Route H M)}
    (h : ∀ ctx : Context H M, (names_of_all ctx inner).Perm (names_of_all ctx inner')) :
    (names_of ctx (.mount pattern name middleware inner)).Perm (names_of ctx (.mount pattern name middleware inner')) := by
  rw [names_of, names_of]
  cases parse pattern true with
  | ok parsed => exact (h _).append_right _
  | error why => exact List.Perm.refl _

theorem Reordered.names (h : Reordered routes routes') : ∀ ctx : Context H M,
    (names_of_all ctx routes).Perm (names_of_all ctx routes') := by
  induction h with
  | nil => exact fun _ => List.Perm.refl _
  | cons r _ ih =>
    intro ctx
    rw [names_of_all, names_of_all]
    exact (ih ctx).append_left _
  | inside pattern name middleware _ _ ihinner ih =>
    intro ctx
    rw [names_of_all, names_of_all]
    exact (names_of_mount ctx pattern name middleware ihinner).append (ih ctx)
  | swap r r' routes =>
    intro ctx
    rw [names_of_all, names_of_all, names_of_all, names_of_all, ← append_assoc, ← append_assoc]
    exact perm_append_comm.append_right _
  | trans _ _ ih ih' => exact fun ctx => (ih ctx).trans (ih' ctx)

theorem Reordered.verbs (h : Reordered routes routes') : (verbs_of_all routes).Perm (verbs_of_all routes') := by
  induction h with
  | nil => exact List.Perm.refl _
  | cons r _ ih =>
    rw [verbs_of_all, verbs_of_all]
    exact ih.append_left _
  | inside pattern name middleware _ _ ihinner ih =>
    rw [verbs_of_all, verbs_of_all, verbs_of, verbs_of]
    exact ihinner.append ih
  | swap r r' routes =>
    rw [verbs_of_all, verbs_of_all, verbs_of_all, verbs_of_all, ← append_assoc, ← append_assoc]
    exact perm_append_comm.append_right _
  | trans _ _ ih ih' => exact ih.trans ih'

theorem Reordered.depth (h : Reordered routes routes') : depth_all routes = depth_all routes' := by
  induction h with
  | nil => rfl
  | cons r _ ih => rw [depth_all, depth_all, ih]
  | inside pattern name middleware _ _ ihinner ih => rw [depth_all, depth_all, Web.depth, Web.depth, ihinner, ih]
  | swap r r' routes =>
    rw [depth_all, depth_all, depth_all, depth_all]
    omega
  | trans _ _ ih ih' => exact ih.trans ih'

/-! ## What a level answers is the same -/

theorem Reordered.unmounted (h : Reordered routes routes') {rest : List Bytes} (hfree : Unmounted routes rest) :
    Unmounted routes' rest := by
  intro r hr texts hplace
  obtain ⟨r', hr', halike⟩ := h.symm.mem hr
  exact hfree r' hr' texts (halike.mount_place.symm.trans hplace)

theorem Reordered.foremost (h : Reordered routes routes') {rest : List Bytes} {test : Route H M → Prop}
    {p : List Step} {wild : Bool} (hfirst : Foremost routes rest test p wild) :
    Foremost routes' rest test p wild :=
  fun r hr p' wild' values rem hmatch => hfirst r (h.symm.mem_leaf hr hmatch.place) p' wild' values rem hmatch

theorem Reordered.found (h : Reordered routes routes') {p : List Step} {wild : Bool} {method m : Bytes}
    (hfound : FoundUnder routes p wild method m) : FoundUnder routes' p wild method m :=
  hfound.imp_right fun ⟨hhead, hget, hnone⟩ => ⟨hhead, hget, fun r hr hplace => hnone r (h.symm.mem_leaf hr hplace) hplace⟩

variable {compose : List M → H → H}

theorem Answered.reordered {method : Bytes} {segments : List Bytes} {trailing : Bool} {level : Level H M} {start : ℕ}
    {out : Outcome H} (h : Answered compose method segments trailing level start out) :
    ∀ {routes' : List (Route H M)}, Reordered level.routes routes' →
      Answered compose method segments trailing { level with routes := routes' } start out := by
  induction h with
  | fallback hr hparse htaken =>
    intro routes' h
    obtain ⟨r', hr', halike⟩ := h.mem hr
    cases halike with
    | same => exact .fallback hr' hparse htaken
  | mount hr hparse htaken hinner ih =>
    intro routes' h
    obtain ⟨r', hr', halike⟩ := h.mem hr
    cases halike with
    | same => exact .mount hr' hparse htaken hinner
    | mount _ _ _ hreordered => exact .mount hr' hparse htaken (ih hreordered)
  | route hfree hr hmatch hfirst hat hfound =>
    intro routes' h
    exact .route (h.unmounted hfree) (h.mem_leaf hr hmatch.place) hmatch (h.foremost hfirst) hat (h.found hfound)
  | refused hfree hr hmatch hfirst hnone hverbs hmem =>
    intro routes' h
    refine .refused (h.unmounted hfree) (h.mem_leaf hr hmatch.place) hmatch (h.foremost hfirst) ?_ hverbs ?_
    · exact fun r' hr' p' wild' values' rem' hmatch' =>
        hnone r' (h.symm.mem_leaf hr' hmatch'.place) p' wild' values' rem' hmatch'
    intro m
    rw [hmem]
    constructor
    · rintro ⟨r', hr', hplace, hm⟩
      exact ⟨r', h.mem_leaf hr' hplace, hplace, hm⟩
    · rintro ⟨r', hr', hplace, hm⟩
      exact ⟨r', h.symm.mem_leaf hr' hplace, hplace, hm⟩
  | missed hfree hnone =>
    intro routes' h
    exact .missed (h.unmounted hfree) fun r' hr' p wild values rem hmatch =>
      hnone r' (h.symm.mem_leaf hr' hmatch.place) p wild values rem hmatch

/-! ## The router built -/

def top_level (routes : List (Route H M)) (terminal : H) (policy : Option TrailingSlash) (served : Option Bool) : Level H M :=
  { ctx := top_context terminal policy served, routes, miss := terminal, mount_path := [] }

variable {terminal : H} {policy : Option TrailingSlash} {served : Option Bool} {built : Built H}

theorem build_ok (h : build compose routes terminal policy served = .ok built) :
    compile compose (top_context terminal policy served) routes (new_node H) { names := [], verbs := [] } =
        .ok (built.router.root, built.tables) ∧
      built.router.policy = (top_context terminal policy served : Context H M).policy ∧ built.router.miss = terminal ∧
        built.router.mount_path = [] := by
  rw [build] at h
  rcases hc : compile compose (top_context terminal policy served) routes (new_node H) { names := [], verbs := [] } with
    why | ⟨root, tables⟩
  · rw [hc] at h
    cases h
  · rw [hc] at h
    rw [← ok.inj h]
    exact ⟨rfl, rfl, rfl, rfl⟩

theorem build_iff : (∃ built, build compose routes terminal policy served = .ok built) ↔
      GoodAll (top_context terminal policy served) routes ∧ routes.Pairwise Compatible ∧
        (names_of_all (top_context terminal policy served) routes).Nodup := by
  rw [← @compile_iff H M compose]
  constructor
  · rintro ⟨built, h⟩
    exact ⟨_, (build_ok h).1⟩
  · rintro ⟨⟨root, tables⟩, h⟩
    rw [build, h]
    exact ⟨_, rfl⟩

theorem matched_answered (h : build compose routes terminal policy served = .ok built) (method : Bytes)
    {path : Bytes} (hpath : path ≠ lit "*") {canon : Canon} (hcanon : canonical path = .ok canon)
    (hsame : canon.changed = false) (fuel : ℕ) (hfuel : depth_all routes < fuel) :
    ∃ out, matched fuel built method path = some out ∧
      Answered compose method canon.segments canon.trailing (top_level routes terminal policy served) 1 out := by
  obtain ⟨hcompiled, hpolicy, hmiss, hmount⟩ := build_ok h
  obtain ⟨out, hout, hanswered⟩ :=
    lookup_answered method canon.segments canon.trailing fuel hcompiled hfuel terminal [] (Nat.le_refl 1)
  refine ⟨out, ?_, hanswered⟩
  have hrouter : built.router = ⟨built.router.root, (top_context terminal policy served : Context H M).policy, terminal, []⟩ := by
    rw [← hpolicy, ← hmiss, ← hmount]
  rw [matched, if_neg hpath, hcanon, hrouter]
  simp only [hsame, Bool.false_eq_true, if_false]
  exact hout

theorem build_sound (h : build compose routes terminal policy served = .ok built) :
    (top_level routes terminal policy served).Sound :=
  have hcompiled := compiled_of (build_ok h).1
  ⟨goodAll_iff.mp hcompiled.good, hcompiled.compatible⟩

theorem star_eq (hreordered : Reordered routes routes') {built' : Built H}
    (h : build compose routes terminal policy served = .ok built)
    (h' : build compose routes' terminal policy served = .ok built') (method : Bytes) :
    star built method = star built' method := by
  have hcompiled := compiled_of (build_ok h).1
  have hcompiled' := compiled_of (build_ok h').1
  have hperm : built.tables.verbs.Perm built'.tables.verbs := by
    refine (perm_ext_iff_of_nodup (hcompiled.verbs_nodup nodup_nil) (hcompiled'.verbs_nodup nodup_nil)).mpr ?_
    intro m
    rw [hcompiled.mem_verbs, hcompiled'.mem_verbs, hreordered.verbs.mem_iff]
  rw [star, star, allow_of_perm hperm, (build_ok h).2.2.1, (build_ok h').2.2.1]

/-- A tree of routes and its reordering are built together or not at all, and for every method and path they answer
alike: with what is told of the routes, and nothing else, as the only answer there is. -/
theorem build_reordered (compose : List M → H → H) (terminal : H) (policy : Option TrailingSlash) (served : Option Bool)
    {routes routes' : List (Route H M)} (hreordered : Reordered routes routes') :
    ((∃ built, build compose routes terminal policy served = .ok built) ↔
        ∃ built', build compose routes' terminal policy served = .ok built') ∧
      ∀ built built', build compose routes terminal policy served = .ok built →
        build compose routes' terminal policy served = .ok built' → ∀ method path, ∃ out,
          (∀ fuel, depth_all routes < fuel →
            matched fuel built method path = some out ∧ matched fuel built' method path = some out) ∧
          ∀ canon, path ≠ lit "*" → canonical path = .ok canon → canon.changed = false → ∀ out',
            Answered compose method canon.segments canon.trailing (top_level routes terminal policy served) 1 out' ↔
              out' = out := by
  constructor
  · rw [build_iff, build_iff]
    constructor
    · rintro ⟨hgood, hcompatible, hnames⟩
      exact ⟨hreordered.good hgood, hreordered.compatible hcompatible, (hreordered.names _).nodup_iff.mp hnames⟩
    · rintro ⟨hgood, hcompatible, hnames⟩
      exact ⟨hreordered.symm.good hgood, hreordered.symm.compatible hcompatible, (hreordered.names _).nodup_iff.mpr hnames⟩
  · intro built built' h h' method path
    have hmiss : built.router.miss = built'.router.miss := (build_ok h).2.2.1.trans (build_ok h').2.2.1.symm
    by_cases hstar : path = lit "*"
    · refine ⟨star built method, fun fuel _ => ?_, fun _ hne => absurd hstar hne⟩
      rw [matched, matched, if_pos hstar, if_pos hstar, star_eq hreordered h h']
      exact ⟨rfl, rfl⟩
    rcases hcanon : canonical path with why | canon
    · refine ⟨.bad_path why built.router.miss [], fun fuel _ => ?_, nofun⟩
      rw [matched, matched, if_neg hstar, if_neg hstar, hcanon, hmiss]
      exact ⟨rfl, rfl⟩
    rcases hchanged : canon.changed with _ | _
    · -- the answer at one depth is the answer at every greater one, as there is one
      obtain ⟨out, -, hanswered⟩ := matched_answered h method hstar hcanon hchanged _ (Nat.lt_succ_self _)
      have hsound := build_sound h
      refine ⟨out, fun fuel hfuel => ?_, fun canon' _ hcanon' _ out' => ?_⟩
      · obtain ⟨out₁, hout₁, hanswered₁⟩ := matched_answered h method hstar hcanon hchanged fuel hfuel
        obtain ⟨out₂, hout₂, hanswered₂⟩ :=
          matched_answered h' method hstar hcanon hchanged fuel (hreordered.depth ▸ hfuel)
        have hback := hanswered₂.reordered hreordered.symm
        rw [hout₁, hout₂, hanswered.unique hsound hanswered₁, hanswered₁.unique hsound hback]
        exact ⟨rfl, rfl⟩
      · cases hcanon'
        constructor
        · exact fun hother => hother.unique hsound hanswered
        · rintro rfl
          exact hanswered
    · refine ⟨.redirect canon.path built.router.miss [], fun fuel _ => ?_, fun canon' _ h hsame => ?_⟩
      · rw [matched, matched, if_neg hstar, if_neg hstar, hcanon, hmiss]
        simp [hchanged]
      · rw [← ok.inj h, hchanged] at hsame
        cases hsame

/-- A shop: a page for each of its goods, a page of its own for one of them, and a mount of two routes. -/
def shop : List (Route ℕ Unit) :=
  [.leaf [lit "GET"] (lit "/goods/:id") (lit "goods") (some 1) [],
    .leaf [lit "GET"] (lit "/goods/new") [] (some 2) [],
    .mount (lit "/admin") (lit "admin") []
      [.leaf [lit "GET"] (lit "/users/") [] (some 3) [], .leaf [lit "POST"] (lit "/*rest") [] (some 4) []]]

/-- The same, with the two routes of the mount the other way round, and the mount first. -/
def shop' : List (Route ℕ Unit) :=
  [.mount (lit "/admin") (lit "admin") []
      [.leaf [lit "POST"] (lit "/*rest") [] (some 4) [], .leaf [lit "GET"] (lit "/users/") [] (some 3) []],
    .leaf [lit "GET"] (lit "/goods/:id") (lit "goods") (some 1) [],
    .leaf [lit "GET"] (lit "/goods/new") [] (some 2) []]

theorem shop_reordered : Reordered shop shop' :=
  .trans (.of_perm (perm_append_comm : (shop.take 2 ++ shop.drop 2).Perm (shop.drop 2 ++ shop.take 2)))
    (.inside _ _ _ (.swap _ _ _) (.refl _))

theorem build_reordered_shop : (∃ built built', build (fun _ handler => handler) shop 0 none none = .ok built ∧
      build (fun _ handler => handler) shop' 0 none none = .ok built' ∧ ∀ method path, ∃ out, ∀ fuel, 1 < fuel →
        matched fuel built method path = some out ∧ matched fuel built' method path = some out) := by
  obtain ⟨hbuild, halike⟩ := build_reordered (fun _ handler => handler) 0 none none shop_reordered
  have hok : (build (fun _ handler => handler) shop 0 none none).isOk = true := by decide +kernel
  rcases hbuilt : build (fun _ handler => handler) shop 0 none none with why | built
  · rw [hbuilt] at hok
    cases hok
  · obtain ⟨built', hbuilt'⟩ := hbuild.mp ⟨built, hbuilt⟩
    refine ⟨built, built', rfl, hbuilt', fun method path => ?_⟩
    obtain ⟨out, hout, -⟩ := halike built built' hbuilt hbuilt' method path
    exact ⟨out, hout⟩

end Cosmic.Web
