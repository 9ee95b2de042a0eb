/-
The layout of a walk: the walk of a tree as the parser lays it out over its tokens is one of the
layouts of `Base.LexicalFits`, and the uses for which scopes and intervals differ there are those
of `overtaken`.
-/
import Cosmic.Lang.ScopesRun

set_option autoImplicit false

namespace Cosmic.Scopes

open Cosmic.Base Cosmic.Ast List Option Nat
open Cosmic.Base.Lexical (Shape Spot Fits Closed Over Ahead unbound)

/-! ## Closed parts -/

/-- A part of a walk that leaves nothing bound. -/
structure Laid (late : Lates) (lo hi : ℕ) (ts : List (Shape Bytes)) (o : List ℕ) : Prop where
  closed : Closed ts
  fits : Fits late lo hi ts o

theorem Laid.nil (late : Lates) (lo hi : ℕ) : Laid late lo hi [] [] := ⟨Lexical.closed_nil, .nil late lo hi⟩

variable {late : Lates} {lo hi : ℕ} {ts : List (Shape Bytes)} {o : List ℕ}

theorem Laid.weaken {lo' hi' : ℕ} (h : Laid late lo' hi' ts o) (hlo : lo ≤ lo') (hhi : hi' ≤ hi) :
    Laid late lo hi ts o :=
  ⟨h.closed, h.fits.weaken hlo hhi⟩

variable {last : ℕ}

theorem Laid.scope {body : List (Shape Bytes)} (h : Fits late lo last body o) (hlast : last ≤ hi) :
    Laid late lo hi [.scope last body] o :=
  ⟨Lexical.closed_scope last body, h.scope hlast⟩

variable {o' : List ℕ}

theorem Laid.then {m : ℕ} {rest : List (Shape Bytes)} (h : Laid late lo m ts o)
    (hrest : Fits late (m + 1) hi rest o') (hlo : lo ≤ m + 1) (hhi : m ≤ hi) :
    Fits late lo hi (ts ++ rest) (o ++ o') :=
  h.fits.seq h.closed hrest hlo hhi

variable {b : Base} {parts : List Base}

theorem Laid.part {us : List (Shape Bytes)} (hT : Tiled hi lo (b :: parts)) (h : Laid late b.first b.last ts o)
    (h' : Laid late (b.last + 1) hi us o') : Laid late lo hi (ts ++ us) (o ++ o') :=
  ⟨h.closed.append h'.closed, (h.weaken hT.1 le_rfl).then h'.fits (by have := hT.1; have := hT.2.1; omega) hT.last_le⟩

theorem Laid.only (hT : Tiled hi lo [b]) (h : Laid late b.first b.last ts o) : Laid late lo hi ts o :=
  h.weaken hT.1 hT.last_le

theorem Laid.pair {c : Base} {us : List (Shape Bytes)} (hT : Tiled hi lo [b, c]) (h : Laid late b.first b.last ts o)
    (h' : Laid late c.first c.last us o') :
    Laid late lo hi (ts ++ us) (o ++ o') :=
  Laid.part hT h (Laid.only hT.2.2 h')

theorem Laid.all (h : Laid late lo hi (ts ++ []) (o ++ [])) : Laid late lo hi ts o := by
  rwa [append_nil, append_nil] at h

/-! ## Names that are bound late -/

/-- No name that is bound late stands in the tokens `lo` to `hi`. -/
def Clear (late : Lates) (lo hi : ℕ) : Prop := ∀ y ∈ late, y.2 < lo ∨ hi < y.2

theorem clear_nil (lo hi : ℕ) : Clear [] lo hi := nofun

theorem Clear.mono {lo' hi' : ℕ} (h : Clear late lo hi) (hlo : lo ≤ lo') (hhi : hi' ≤ hi) : Clear late lo' hi' := by
  intro y hy
  have := h y hy
  omega

theorem Clear.unbound (h : Clear late lo hi) (bs : List (Spot Bytes)) :
    Clear (unbound bs late) lo hi := fun y hy => h y (mem_of_mem_filter hy)

theorem Clear.part (h : Clear late lo hi) (hT : Tiled hi lo (b :: parts)) :
    Clear late b.first b.last := h.mono hT.1 hT.last_le

theorem Clear.rest (h : Clear late lo hi) (hT : Tiled hi lo (b :: parts)) : Clear late (b.last + 1) hi :=
  h.mono (by have := hT.1; have := hT.2.1; omega) le_rfl

/-! ## Type parameters -/

variable {typeparams : List TypeParam} {rest : List (Shape Bytes)}

theorem shapes_declare_typeparams (h : ∀ p ∈ typeparams, p.Placed) :
    shapes (declare_typeparams typeparams) = (spots typeparams).map Spot.bind := by
  induction typeparams with
  | nil => rfl
  | cons p typeparams ih =>
    have hlist := ih fun q hq => h q (mem_cons_of_mem _ hq)
    obtain ⟨b, name, constraint⟩ := p
    have hname : name.name ≠ [] := by
      have hp := h _ mem_cons_self
      match constraint, hp with
      | none, hp => exact hp.1.1
      | some (.TypeName _ _ []), hp => exact hp.1.1
    unfold declare_typeparams spots at hlist ⊢
    rw [map_cons, map_cons, map_cons, shapes, hlist]
    unfold Act.shape
    rw [if_neg hname]
    rfl

theorem shapes_constraints (h : ∀ p ∈ typeparams, p.Placed) :
    shapes (constraints typeparams) = (heads typeparams).map Spot.use := by
  induction typeparams with
  | nil => rfl
  | cons p typeparams ih =>
    have hlist := ih fun q hq => h q (mem_cons_of_mem _ hq)
    have hp := h p mem_cons_self
    match p, hp with
    | .mk b name none, _ => exact hlist
    | .mk b name (some (.TypeName c path [])), _ =>
      unfold heads at hlist ⊢
      rw [filterMap_cons]
      dsimp only [constraints, ty, walk_types, append_nil, cons_append, nil_append, shapes, Act.shape]
      cases head_of path with
      | none => exact hlist
      | some head => exact congrArg _ hlist

theorem spot_first (h : ∀ p ∈ typeparams, p.Placed) {b : Spot Bytes} (hb : b ∈ spots typeparams) :
    ∃ p ∈ typeparams, b.at_ = p.base.first ∧ p.base.first ≤ p.base.last := by
  obtain ⟨p, hp, rfl⟩ := mem_map.mp hb
  refine ⟨p, hp, ?_⟩
  have hplaced := h p hp
  match p, hplaced with
  | .mk b name none, hplaced => exact ⟨hplaced.2.1, hplaced.2.2⟩
  | .mk b name (some (.TypeName c path [])), hplaced =>
    exact ⟨hplaced.2.1, hplaced.2.2.1.le.trans hplaced.2.2.2⟩

theorem head_first (h : ∀ p ∈ typeparams, p.Placed) {u : Spot Bytes} (hu : u ∈ heads typeparams) :
    ∃ p ∈ typeparams, p.base.first ≤ u.at_ ∧ u.at_ ≤ p.base.last := by
  obtain ⟨p, hp, hmem⟩ := mem_filterMap.mp hu
  refine ⟨p, hp, ?_⟩
  have hplaced := h p hp
  match p, hplaced, hmem with
  | .mk b name (some (.TypeName c path [])), hplaced, hmem =>
    obtain ⟨head, -, rfl⟩ := map_eq_some_iff.mp hmem
    exact ⟨hplaced.2.2.1.le, hplaced.2.2.2⟩

theorem spots_sorted (h : ∀ p ∈ typeparams, p.Placed) (hT : Tiled hi lo (typeparams.map TypeParam.base ++ parts)) :
    (spots typeparams).Pairwise fun a b => a.at_ ≤ b.at_ := by
  induction typeparams generalizing lo with
  | nil => exact List.Pairwise.nil
  | cons p typeparams ih =>
    have hlist : ∀ q ∈ typeparams, q.Placed := fun q hq => h q (mem_cons_of_mem _ hq)
    refine pairwise_cons.mpr ⟨fun b hb => ?_, ih hlist hT.2.2⟩
    obtain ⟨q, hq, hat, -⟩ := spot_first hlist hb
    have hp : ∀ q ∈ [p], q.Placed := by simpa using h p mem_cons_self
    obtain ⟨p', hp', hat', hle⟩ := spot_first hp mem_cons_self
    rw [mem_singleton.mp hp'] at hat' hle
    have := (hT.2.2.part (mem_append_left _ (mem_map_of_mem hq))).1
    omega

theorem typeparams_fits (h : ∀ p ∈ typeparams, p.Placed) (hclear : Clear late lo hi)
    (hT : Tiled hi lo (typeparams.map TypeParam.base ++ parts))
    (hrest : ∀ m, lo ≤ m → Tiled hi m parts → Fits (unbound (spots typeparams) late) m hi rest o) :
    Fits late lo hi (shapes (walk_typeparams typeparams) ++ rest) (overtaken_typeparams late typeparams ++ o) := by
  cases typeparams with
  | nil =>
    have hfits := hrest lo le_rfl hT
    have hlate : unbound (spots []) late = late := by
      refine List.filter_eq_self.mpr fun y _ => ?_
      simp [spots]
    rwa [hlate] at hfits
  | cons p typeparams =>
    obtain ⟨m, hparts, hhi, htail⟩ := Tiled.cut hT
    have hlo := hparts.le
    have hin : ∀ q ∈ p :: typeparams, lo ≤ q.base.first ∧ q.base.last ≤ m := fun q hq =>
      hparts.part (mem_map_of_mem hq)
    unfold walk_typeparams
    rw [shapes_append, shapes_declare_typeparams h, shapes_constraints h]
    refine Fits.early (fun b hb => ?_) (spots_sorted h hT) (fun u hu => ?_) (hrest (m + 1) hlo htail) hclear hlo hhi
    · obtain ⟨q, hq, hat, hle⟩ := spot_first h hb
      have := hin q hq
      omega
    · obtain ⟨q, hq, hfirst, hlast⟩ := head_first h hu
      have := hin q hq
      omega

/-! ## Types -/

theorem head_laid (late : Lates) (b : Base) (path : List Bytes) :
    Laid late b.first b.first (Act.use_type b path).shape (match head_of path with
        | some head => if Over late b.first head then [b.id] else []
        | none => []) := by
  unfold Act.shape
  cases head_of path with
  | none => exact Laid.nil late b.first b.first
  | some head =>
    exact ⟨Lexical.closed_use _ _ _, Fits.use (u := ⟨head, b.first, b.id⟩) (Nat.le_refl _) (Nat.le_refl _)⟩

mutual

theorem ty_laid : ∀ (t : Ty) {late : Lates}, t.Placed → Clear late t.base.first t.base.last →
    Laid late t.base.first t.base.last (shapes (ty t)) (overtaken_type late t)
  | .TypeName b path args, late, h, hclear => by
    have hT : Tiled b.last b.first (⟨b.first, b.first, 0⟩ :: args.map Ty.base) := ⟨Nat.le_refl _, le_succ _, h.1⟩
    have hargs := types_laid args h.2 (hclear.rest hT) h.1.all fun m _ _ => Laid.nil late m b.last
    exact Laid.part hT (head_laid late b path) hargs.all
  | .TypeBool b _, late, _, _ | .TypeNil b, late, _, _ => Laid.nil late b.first b.last
  | .TypeArray b element, late, h, hclear => Laid.only h.1 (ty_laid element h.2 (hclear.part h.1))
  | .TypeMap b key value, late, h, hclear => by
    unfold ty
    rw [shapes_append]
    exact Laid.pair h.1 (ty_laid key h.2.1 (hclear.part h.1)) (ty_laid value h.2.2 ((hclear.rest h.1).part h.1.2.2))
  | .TypeUnion b members, late, h, hclear =>
    (types_laid members h.2 hclear h.1.all fun m _ _ => Laid.nil late m b.last).all
  | .TypeOptional b inner, late, h, hclear | .TypeMut b inner, late, h, hclear =>
    Laid.only h.1 (ty_laid inner h.2 (hclear.part h.1))
  | .TypeFunction b typeparams params rets, late, h, hclear => by
    have hfits := typeparams_fits h.2.1 hclear h.1 fun m hm hT =>
      (ptypes_laid params h.2.2.1 ((hclear.mono hm le_rfl).unbound _) hT fun m' hm' hT' =>
        rets_laid rets (ptype_names params) h.2.2.2 ((hclear.mono (hm.trans hm') le_rfl).unbound _) hT').fits
    unfold ty overtaken_type
    unfold walk_typeparams at hfits
    simp only [shapes, Act.shape, shapes_append, append_nil, append_assoc] at hfits ⊢
    exact Laid.scope hfits le_rfl

theorem types_laid : ∀ (list : List Ty) {late : Lates} {lo hi : ℕ} {parts : List Base} {rest : List (Shape Bytes)}
    {o : List ℕ}, placed_types list → Clear late lo hi → Tiled hi lo (list.map Ty.base ++ parts) →
    (∀ m, lo ≤ m → Tiled hi m parts → Laid late m hi rest o) →
    Laid late lo hi (shapes (walk_types list) ++ rest) (overtaken_types late list ++ o)
  | [], _, lo, _, _, _, _, _, _, hT, hrest => hrest lo le_rfl hT
  | t :: list, late, lo, hi, parts, rest, o, h, hclear, hT, hrest => by
    have hlist := types_laid list h.2 (hclear.rest hT) hT.2.2 fun m hm => hrest m (hT.rest_le.trans hm)
    unfold walk_types overtaken_types
    rw [shapes_append, append_assoc, append_assoc]
    exact Laid.part hT (ty_laid t h.1 (hclear.part hT)) hlist

theorem ptypes_laid : ∀ (list : List PType) {late : Lates} {lo hi : ℕ} {parts : List Base}
    {rest : List (Shape Bytes)} {o : List ℕ}, placed_ptypes list → Clear late lo hi →
    Tiled hi lo (list.map PType.base ++ parts) → (∀ m, lo ≤ m → Tiled hi m parts → Laid late m hi rest o) →
    Laid late lo hi (shapes (ptypes list) ++ rest) (overtaken_ptypes late list ++ o)
  | [], _, lo, _, _, _, _, _, _, hT, hrest => hrest lo le_rfl hT
  | .mk b name optional variadic type :: list, late, lo, hi, parts, rest, o, h, hclear, hT, hrest => by
    have hlist := ptypes_laid list h.2 (hclear.rest hT) hT.2.2 fun m hm => hrest m (hT.rest_le.trans hm)
    have htype := Laid.only h.1.1 (ty_laid type h.1.2 ((hclear.part hT).part h.1.1))
    unfold ptypes overtaken_ptypes
    rw [shapes_append, append_assoc, append_assoc]
    exact Laid.part hT htype hlist

theorem rets_laid : ∀ (rets : Option Rets) (params : Bytes → Option ℕ) {late : Lates} {lo hi : ℕ},
    placed_rets rets → Clear late lo hi → Tiled hi lo (rets.map Rets.base).toList →
    Laid late lo hi (shapes (walk_rets params rets)) (overtaken_rets late params rets)
  | none, _, late, lo, hi, _, _, _ => Laid.nil late lo hi
  | some (.mk _ lists _), params, _, _, _, h, hclear, hT =>
    Laid.only hT (lists_laid lists params h.2 (hclear.part hT) h.1)

theorem lists_laid : ∀ (lists : List (List RType)) (params : Bytes → Option ℕ) {late : Lates} {lo hi : ℕ},
    placed_lists lists → Clear late lo hi → Tiled hi lo (lists.flatten.map RType.base) →
    Laid late lo hi (shapes (rets_lists params lists)) (overtaken_lists late params lists)
  | [], _, late, lo, hi, _, _, _ => Laid.nil late lo hi
  | list :: lists, params, late, lo, hi, h, hclear, hT => by
    rw [flatten_cons, map_append] at hT
    unfold rets_lists overtaken_lists
    rw [shapes_append]
    exact rtypes_laid list params h.1 hclear hT fun m hm hT' =>
      lists_laid lists params h.2 (hclear.mono hm le_rfl) hT'

theorem rtypes_laid : ∀ (list : List RType) (params : Bytes → Option ℕ) {late : Lates} {lo hi : ℕ}
    {parts : List Base} {rest : List (Shape Bytes)} {o : List ℕ}, placed_rtypes list → Clear late lo hi →
    Tiled hi lo (list.map RType.base ++ parts) → (∀ m, lo ≤ m → Tiled hi m parts → Laid late m hi rest o) →
    Laid late lo hi (shapes (rets_items params list) ++ rest) (overtaken_rtypes late params list ++ o)
  | [], _, _, lo, _, _, _, _, _, _, hT, hrest => hrest lo le_rfl hT
  | .type t :: list, params, late, lo, hi, parts, rest, o, h, hclear, hT, hrest => by
    have hlist := rtypes_laid list params h.2 (hclear.rest hT) hT.2.2 fun m hm => hrest m (hT.rest_le.trans hm)
    unfold rets_items overtaken_rtypes
    rw [shapes_append, append_assoc, append_assoc]
    exact Laid.part hT (ty_laid t h.1 (hclear.part hT)) hlist
  | .Narrows b param type asserts :: list, params, late, lo, hi, parts, rest, o, h, hclear, hT, hrest => by
    have hlist := rtypes_laid list params h.2 (hclear.rest hT) hT.2.2 fun m hm => hrest m (hT.rest_le.trans hm)
    have htype := Laid.only h.1.1 (ty_laid type h.1.2 ((hclear.part hT).part h.1.1))
    unfold rets_items overtaken_rtypes
    rw [shapes_append, append_assoc, append_assoc]
    refine Laid.part hT ?_ hlist
    unfold narrows
    cases params param with
    | none => exact Laid.nil late b.first b.last
    | some bound =>
      rw [shapes_append]
      split
      · exact htype
      · exact htype

end

/-! ## Signatures -/

variable {params : List Param}

theorem shapes_declare_params (h : ∀ p ∈ params, p.Placed) :
    shapes (declare_params params) = (param_spots params).map Spot.bind := by
  induction params with
  | nil => rfl
  | cons p params ih =>
    have hlist := ih fun q hq => h q (mem_cons_of_mem _ hq)
    have hp := (h p mem_cons_self).1
    unfold param_spots at hlist ⊢
    unfold declare_params
    rw [filterMap_cons]
    cases hname : p.name with
    | none => exact hlist
    | some name =>
      have hne : name.name ≠ [] := (hp name hname).1.1
      dsimp only [map_some, map_cons, shapes, Act.shape]
      rw [if_neg hne, hlist]
      rfl

theorem param_first (h : ∀ p ∈ params, p.Placed) {b : Spot Bytes} (hb : b ∈ param_spots params) :
    ∃ p ∈ params, b.at_ = p.first ∧ p.first ≤ p.last := by
  obtain ⟨p, hp, hmem⟩ := mem_filterMap.mp hb
  obtain ⟨name, hname, rfl⟩ := map_eq_some_iff.mp hmem
  obtain ⟨hnames, hle, -⟩ := h p hp
  exact ⟨p, hp, (hnames name hname).2, hle⟩

theorem params_sorted (h : ∀ p ∈ params, p.Placed) (hT : Tiled hi lo (params.map Param.toBase)) :
    (param_spots params).Pairwise fun a b => a.at_ ≤ b.at_ := by
  induction params generalizing lo with
  | nil => exact List.Pairwise.nil
  | cons p params ih =>
    have hlist : ∀ q ∈ params, q.Placed := fun q hq => h q (mem_cons_of_mem _ hq)
    have hsorted := ih hlist hT.2.2
    unfold param_spots at hsorted ⊢
    rw [filterMap_cons]
    cases hname : p.name with
    | none => exact hsorted
    | some name =>
      refine pairwise_cons.mpr ⟨fun b hb => ?_, hsorted⟩
      obtain ⟨q, hq, hat, -⟩ := param_first hlist hb
      have hfirst := ((h p mem_cons_self).1 name hname).2
      have := (hT.2.2.part (mem_map_of_mem hq)).1
      have := hT.2.1
      dsimp only
      omega

theorem params_laid {list : List Param} (h : ∀ p ∈ list, p.Placed)
    (hclear : ∀ p ∈ list, Clear late (p.first + 1) p.last) (hT : Tiled hi lo (list.map Param.toBase ++ parts))
    (hrest : ∀ m, lo ≤ m → Tiled hi m parts → Laid late m hi rest o) :
    Laid late lo hi (shapes (param_types list) ++ rest) (overtaken_params late list ++ o) := by
  induction list generalizing lo with
  | nil => exact hrest lo le_rfl hT
  | cons p list ih =>
    have hlist := ih (fun q hq => h q (mem_cons_of_mem _ hq)) (fun q hq => hclear q (mem_cons_of_mem _ hq))
      hT.2.2 fun m hm => hrest m (hT.rest_le.trans hm)
    have htype := (h p mem_cons_self).2.2
    unfold param_types overtaken_params
    rw [shapes_append, append_assoc, append_assoc]
    refine Laid.part hT ?_ hlist
    cases ht : p.type with
    | none => exact Laid.nil late p.first p.last
    | some t =>
      obtain ⟨hone, hplaced⟩ := htype t ht
      have := Laid.only hone (ty_laid t hplaced ((hclear p mem_cons_self).part hone))
      exact this.weaken (le_succ _) le_rfl

theorem params_clear (h : ∀ p ∈ params, p.Placed) (hT : Tiled hi lo (params.map Param.toBase)) {p : Param}
    (hp : p ∈ params) :
    Clear (lates (param_spots params)) (p.first + 1) p.last := by
  intro y hy
  obtain ⟨b, hb, rfl⟩ := mem_map.mp hy
  obtain ⟨q, hq, hat, -⟩ := param_first h hb
  have := hT.apart (mem_map_of_mem hp) (mem_map_of_mem hq)
  omega

variable {acts : List Act}

theorem function_laid {rets : Option Rets} {body : Block} (h : signature_placed b params rets body)
    (hbody : Fits [] body.base.first b.last (shapes acts) o) :
    Laid [] b.first b.last (shapes (walk_function b.id b.last params rets acts none))
      (overtaken_signature params rets ++ o) := by
  obtain ⟨hT, hparams, hrets, hlast⟩ := h
  have hmem : body.base ∈ params.map Param.toBase ++ ((rets.map Rets.base).toList ++ [body.base]) :=
    mem_append_right _ (mem_append_right _ (mem_singleton_self _))
  have hstart := hT.part hmem
  have hle := hT.part_le hmem
  obtain ⟨m, hm⟩ : ∃ m, body.base.first = m + 1 := ⟨body.base.first - 1, by omega⟩
  -- The types of the signature stand before the body.
  rw [← append_assoc] at hT
  have htypes := hT.before hm
  have hnames := htypes.left
  have hlaid : Laid (lates (param_spots params)) (b.first + 1) m
      (shapes (param_types params) ++ shapes (walk_rets (param_names params) rets)) (overtaken_signature params rets) := by
    refine params_laid hparams (fun p hp => params_clear hparams hnames hp) htypes fun m' hm' hT' => ?_
    cases rets with
    | none => exact Laid.nil _ m' m
    | some r =>
      refine (rets_laid (some r) (param_names params) hrets (fun y hy => ?_) ⟨Nat.le_refl _, hT'.2.1, Nat.le_refl _⟩).weaken
        hT'.1 hT'.last_le
      obtain ⟨c, hc, rfl⟩ := mem_map.mp hy
      obtain ⟨q, hq, hat, hle⟩ := param_first hparams hc
      have := htypes.ordered (mem_map_of_mem hq) (mem_singleton_self r.base)
      omega
  have hfits : Fits [] b.first b.last (shapes (param_types params) ++ shapes (walk_rets (param_names params) rets) ++
        (param_spots params).map Spot.bind ++ shapes acts) (overtaken_signature params rets ++ o) := by
    rw [hm] at hbody
    refine Fits.late (hlaid.weaken (le_succ _) le_rfl).fits hlaid.closed (fun c hc => ?_)
      (params_sorted hparams hnames) hbody (by omega) (by omega)
    obtain ⟨q, hq, hat, hle⟩ := param_first hparams hc
    have := hnames.part (mem_map_of_mem hq)
    omega
  unfold walk_function implicit_self
  simp only [shapes, Act.shape, shapes_append, shapes_declare_params hparams, append_nil, append_assoc] at hfits ⊢
  exact Laid.scope hfits le_rfl

theorem fn_parts_laid {rets : Option Rets} {body : Block} (hT : Tiled hi lo (typeparams.map TypeParam.base ++ [b]))
    (htypeparams : ∀ p ∈ typeparams, p.Placed) (h : signature_placed b params rets body)
    (hbody : Fits [] body.base.first b.last (shapes acts) o) :
    Laid [] lo hi (shapes (walk_fn b typeparams params rets acts none))
      (overtaken_typeparams [] typeparams ++ (overtaken_signature params rets ++ o)) := by
  have hfits := typeparams_fits htypeparams (clear_nil lo b.last) hT.close fun m hm hT' =>
    (Laid.only hT' (function_laid h hbody)).fits
  unfold walk_fn
  simp only [shapes, Act.shape, append_nil] at hfits ⊢
  exact Laid.scope hfits (hT.part (mem_append_right _ (mem_singleton_self b))).2

theorem fits_types {list : List Ty} (h : placed_types list)
    (hT : Tiled hi lo (list.map Ty.base ++ parts)) (hrest : ∀ m, lo ≤ m → Tiled hi m parts → Fits [] m hi rest o) :
    Fits [] lo hi (shapes (walk_types list) ++ rest) (overtaken_types [] list ++ o) := by
  induction list generalizing lo with
  | nil => exact hrest lo le_rfl hT
  | cons t list ih =>
    have hlist := ih h.2 hT.2.2 fun m hm => hrest m (hT.rest_le.trans hm)
    unfold walk_types overtaken_types
    rw [shapes_append, append_assoc, append_assoc]
    exact ((ty_laid t h.1 (clear_nil _ _)).then hlist hT.2.1 hT.last_le).weaken hT.1 le_rfl

/-! ## Names bound in order -/

theorem fits_declare_loops (hlo : lo ≤ hi) (hrest : Fits [] lo hi rest o)
    {vars : List (Binding × Bool)} (h : ∀ v ∈ vars, v.1.name ≠ []) :
    Fits [] lo hi (shapes (declare_loops lo vars) ++ rest) o := by
  induction vars with
  | nil => exact hrest
  | cons v vars ih =>
    have hlist := ih fun w hw => h w (mem_cons_of_mem _ hw)
    unfold declare_loops
    rw [shapes, append_assoc, Act.shape, if_neg (h v mem_cons_self)]
    exact Fits.bind (b := ⟨v.1.name, lo, v.1.id⟩) (Nat.le_refl _) (Nat.le_refl _) hlo hlist

theorem loop_laid {vars : List (Binding × Bool)} (id : ℕ) (hle : b.first ≤ b.last) (h : ∀ v ∈ vars, v.1.name ≠ [])
    (hbody : Fits [] b.first b.last (shapes acts) o) :
    Laid [] b.first b.last (shapes [.loop id [.scope b.last (declare_loops b.first vars ++ acts)]]) o := by
  have hfits := fits_declare_loops hle hbody h
  simp only [shapes, Act.shape, shapes_append, append_nil]
  exact Laid.scope hfits le_rfl

theorem fits_declare_pats {pats : List PatItem} (h : ∀ p ∈ pats, p.Placed)
    (hT : Tiled hi lo (pats.map PatItem.base ++ parts))
    (hrest : ∀ m, lo ≤ m → Tiled hi m parts → Fits [] m hi rest o) :
    Fits [] lo hi (shapes (declare_pats pats) ++ rest) o := by
  induction pats generalizing lo with
  | nil => exact hrest lo (Nat.le_refl _) hT
  | cons p pats ih =>
    have hlist := ih (fun q hq => h q (mem_cons_of_mem _ hq)) hT.2.2 fun m hm => hrest m (hT.rest_le.trans hm)
    cases p with
    | PatBool b value => exact hlist.weaken hT.rest_le (Nat.le_refl _)
    | PatBind b name =>
      obtain ⟨⟨hname, -⟩, hfirst, hle⟩ := h _ mem_cons_self
      have hlast := hT.last_le
      have hlo := hT.1
      change lo ≤ b.first at hlo
      change b.last ≤ hi at hlast
      unfold declare_pats
      rw [shapes, append_assoc, Act.shape, if_neg hname]
      exact Fits.bind (b := ⟨name.name, name.first, name.id⟩) (m := b.last + 1) (by dsimp only; omega)
        (by dsimp only; omega) (by dsimp only; omega) hlist

theorem fits_declare_locals {is_global single : Bool} (hlast : last + 1 ≤ hi)
    (hrest : Fits [] (last + 1) hi rest o) {bindings : List Binding} (h : ∀ name ∈ bindings, name.Placed)
    (values : List Exp) :
    Fits [] (last + 1) hi (shapes (declare_locals last is_global single bindings values) ++ rest) o := by
  induction bindings generalizing values with
  | nil => exact hrest
  | cons b bindings ih =>
    have hlist := ih (fun c hc => h c (mem_cons_of_mem _ hc)) values.tail
    unfold declare_locals
    rw [shapes, append_assoc, Act.shape, if_neg (h b mem_cons_self).1]
    exact Fits.bind (b := ⟨b.name, last + 1, b.id⟩) (Nat.le_refl _) (Nat.le_refl _) hlast hlist

/-! ## Declarations -/

variable {name : Binding}

theorem declare_type_shape (h : name.Placed) (kind : Kind) (scope : Option Scope) (nested : Bool)
    (module : Option Bytes) :
    (declare_type kind name scope nested module).shape = [.bind name.name name.first name.id] := by
  unfold declare_type
  rw [Act.shape, if_neg h.1]

theorem fits_name (h : name.Placed) (hlo : lo ≤ name.first) (hhi : name.last ≤ hi)
    (hrest : Fits [] (name.last + 1) hi rest o) :
    Fits [] lo hi (.bind name.name name.first name.id :: rest) o :=
  Fits.bind (b := ⟨name.name, name.first, name.id⟩) hlo (h.2.trans (le_succ _)) (h.2.trans hhi) hrest

theorem type_body_laid (h : ∀ p ∈ typeparams, p.Placed) (hclear : Clear late lo last)
    (hT : Tiled last lo (typeparams.map TypeParam.base ++ parts))
    (hbody : ∀ m, lo ≤ m → Tiled last m parts → Fits (unbound (spots typeparams) late) m last (shapes acts) o)
    (hlast : last ≤ hi) :
    Laid late lo hi (shapes (type_body last typeparams acts)) (overtaken_typeparams late typeparams ++ o) := by
  have hfits := typeparams_fits h hclear hT hbody
  unfold type_body
  simp only [shapes, Act.shape, shapes_append, append_nil] at hfits ⊢
  exact Laid.scope hfits hlast

theorem fits_declaration (h : head_placed b name typeparams parts)
    (hbody : ∀ m, Tiled b.last m parts → Fits [] m b.last (shapes acts) o) (hhi : b.last ≤ hi)
    (hrest : Fits [] (b.last + 1) hi rest o') (kind : Kind) (scope : Option Scope) (nested : Bool)
    (module : Option Bytes) :
    Fits [] b.first hi (shapes (declare_type kind name scope nested module :: type_body b.last typeparams acts) ++ rest)
      (overtaken_typeparams [] typeparams ++ o ++ o') := by
  obtain ⟨hT, hname, htypeparams⟩ := h
  have hbodylaid := type_body_laid htypeparams (clear_nil _ _) hT.2.2 (fun m _ hm => hbody m hm) le_rfl
  have hle : name.last ≤ b.last := hT.last_le
  rw [shapes, declare_type_shape hname]
  exact fits_name hname ((le_succ _).trans hT.1) (hle.trans hhi) (hbodylaid.then hrest (succ_le_succ hle) hhi)

/-! ## Expressions, statements and declarations -/

theorem shapes_targets (tokens : ℕ → Bytes) (last : ℕ) (list : List Exp) :
    shapes (targets tokens last list) = shapes (walk_exps tokens list) := by
  induction list with
  | nil => rfl
  | cons e list ih =>
    unfold walk_exps
    rw [shapes_append, ← ih]
    cases e with
    | Name n => rfl
    | _ => exact shapes_append _ _

/-- The calls of the body of a `for`. -/
def loop_acts (tokens : ℕ → Bytes) (id : ℕ) (vars : List (Binding × Bool)) : Block → List Act
  | .mk b list close => [.loop id [.scope close (declare_loops b.first vars ++ stats tokens list)]]

theorem for_vars_named {vars : List Binding} (h : ∀ name ∈ vars, name.Placed) :
    ∀ v ∈ for_vars vars, v.1.name ≠ [] := by
  intro v hv
  cases vars with
  | nil => exact absurd hv not_mem_nil
  | cons b vars =>
    rcases mem_cons.mp hv with rfl | hv
    · exact (h b mem_cons_self).1
    · obtain ⟨c, hc, rfl⟩ := mem_map.mp hv
      exact (h c (mem_cons_of_mem _ hc)).1

variable (tokens : ℕ → Bytes)

mutual

theorem exp_laid : ∀ (e : Exp), e.Placed tokens →
    Laid [] e.base.first e.base.last (shapes (exp tokens e)) (overtaken_exp e)
  | .Name n, h => ⟨Lexical.closed_use _ _ _, Fits.use (u := ⟨n.text, n.first, n.id⟩) (Nat.le_refl _) h⟩
  | .Nil b, _ | .Boolean b _, _ | .Integer b, _ | .Float b, _ | .String b _ _, _ | .Vararg b, _ =>
    Laid.nil [] b.first b.last
  | .Paren _ inner, h | .Unary _ _ inner, h | .Field _ inner _, h => Laid.only h.1 (exp_laid inner h.2)
  | .FunctionLit b fn, h => @fn_laid fn _ _ [] h.1 nofun h.2
  | .Table b items, h => items_laid items h.2 h.1
  | .IfExp b arms else_value, h => by
    unfold exp
    rw [shapes_append]
    exact exp_arms_laid arms h.2.1 h.1 fun m hm hT => Laid.only hT (exp_laid else_value h.2.2)
  | .Binary _ _ left right, h | .Index _ left right, h => by
    unfold exp
    rw [shapes_append]
    exact Laid.pair h.1 (exp_laid left h.2.1) (exp_laid right h.2.2)
  | .Call _ callee args, h | .MethodCall _ callee _ args, h => by
    unfold exp
    rw [shapes_append]
    exact Laid.part h.1 (exp_laid callee h.2.1) (exps_laid args h.2.2 h.1.2.2.all fun m _ _ => Laid.nil [] m _).all
  | .IsTest _ value type, h | .Cast _ value type, h => by
    unfold exp
    rw [shapes_append]
    exact Laid.pair h.1 (exp_laid value h.2.1) (ty_laid type h.2.2 (clear_nil _ _))

theorem exps_laid : ∀ (list : List Exp) {lo hi : ℕ} {parts : List Base} {rest : List (Shape Bytes)} {o : List ℕ},
    placed_exps tokens list → Tiled hi lo (list.map Exp.base ++ parts) →
    (∀ m, lo ≤ m → Tiled hi m parts → Laid [] m hi rest o) →
    Laid [] lo hi (shapes (walk_exps tokens list) ++ rest) (overtaken_exps list ++ o)
  | [], lo, _, _, _, _, _, hT, hrest => hrest lo le_rfl hT
  | e :: list, lo, hi, parts, rest, o, h, hT, hrest => by
    have hlist := exps_laid list h.2 hT.2.2 fun m hm => hrest m (hT.rest_le.trans hm)
    unfold walk_exps overtaken_exps
    rw [shapes_append, append_assoc, append_assoc]
    exact Laid.part hT (exp_laid e h.1) hlist

theorem items_laid : ∀ (list : List Item) {lo hi : ℕ}, placed_items tokens list → Tiled hi lo (list.map Item.base) →
    Laid [] lo hi (shapes (walk_items tokens list)) (overtaken_items list)
  | [], lo, hi, _, _ => Laid.nil [] lo hi
  | .Positional _ value :: list, lo, hi, h, hT | .Spread _ value :: list, lo, hi, h, hT
  | .Named _ _ value :: list, lo, hi, h, hT => by
    unfold walk_items
    rw [shapes_append]
    exact Laid.part hT (Laid.only h.1.1 (exp_laid value h.1.2)) (items_laid list h.2 hT.2.2)
  | .Keyed _ key value :: list, lo, hi, h, hT => by
    unfold walk_items
    rw [shapes_append, shapes_append]
    exact Laid.part hT (Laid.pair h.1.1 (exp_laid key h.1.2.1) (exp_laid value h.1.2.2)) (items_laid list h.2 hT.2.2)

theorem exp_arms_laid : ∀ (list : List ExpArm) {lo hi : ℕ} {parts : List Base} {rest : List (Shape Bytes)} {o : List ℕ},
    placed_exp_arms tokens list → Tiled hi lo (list.map ExpArm.base ++ parts) →
    (∀ m, lo ≤ m → Tiled hi m parts → Laid [] m hi rest o) →
    Laid [] lo hi (shapes (exp_arms tokens list) ++ rest) (overtaken_exp_arms list ++ o)
  | [], lo, hi, parts, rest, o, _, hT, hrest => hrest lo le_rfl hT
  | .mk _ cond value :: list, lo, hi, parts, rest, o, h, hT, hrest => by
    have hlist := exp_arms_laid list h.2 hT.2.2 fun m hm => hrest m (hT.rest_le.trans hm)
    have harm := Laid.pair h.1.1 (exp_laid cond h.1.2.1) (exp_laid value h.1.2.2)
    unfold exp_arms overtaken_exp_arms
    rw [shapes_append, shapes_append, append_assoc _ _ rest, append_assoc _ _ o]
    exact Laid.part hT harm hlist

theorem fn_laid : ∀ (fn : Fn) {lo hi : ℕ} {typeparams : List TypeParam},
    Tiled hi lo (typeparams.map TypeParam.base ++ [fn.base]) → (∀ p ∈ typeparams, p.Placed) → fn.Placed tokens →
    Laid [] lo hi (shapes (fn_ tokens typeparams none fn)) (overtaken_fn typeparams fn)
  | .mk b params rets body, lo, hi, typeparams, hT, htypeparams, h => by
    have hbody := block_rest body h.2 h.1.2.2.2.le fun m _ _ => Fits.nil [] m b.last
    rw [append_nil, append_nil] at hbody
    exact fn_parts_laid hT htypeparams h.1 hbody

theorem block_rest : ∀ (body : Block) {hi : ℕ} {rest : List (Shape Bytes)} {o : List ℕ}, body.Placed tokens →
    body.base.last ≤ hi → (∀ m, body.base.first ≤ m → m ≤ body.base.last → Fits [] m hi rest o) →
    Fits [] body.base.first hi (shapes (block_stats tokens body) ++ rest) (overtaken_block body ++ o)
  | .mk b list close, hi, rest, o, ⟨hclose, hT, h⟩, hhi, hrest => by
    change b.last ≤ hi at hhi
    refine stats_fits list h hT (by omega) fun m hlo hm => hrest m hlo ?_
    change m ≤ b.last
    omega

theorem stats_fits : ∀ (list : List Stat) {lo close hi : ℕ} {rest : List (Shape Bytes)} {o : List ℕ},
    placed_stats tokens list → Tiled close lo (list.map Stat.base ++ [⟨close, close, 0⟩]) → close ≤ hi →
    (∀ m, lo ≤ m → m ≤ close → Fits [] m hi rest o) →
    Fits [] lo hi (shapes (stats tokens list) ++ rest) (overtaken_stats list ++ o)
  | [], lo, _, _, _, _, _, hT, _, hrest => hrest lo le_rfl hT.1
  | s :: list, lo, close, hi, rest, o, h, hT, hhi, hrest => by
    have hlist := stats_fits list h.2 hT.2.2 hhi fun m hm => hrest m (hT.rest_le.trans hm)
    have hlast : s.base.last < close := hT.2.2.part (mem_append_right _ (mem_singleton_self _)) |>.1
    have hstat := stat_fits s h.1 hT.2.1 (hlast.trans_le hhi) hlist
    unfold stats overtaken_stats
    rw [shapes_append, append_assoc, append_assoc]
    exact hstat.weaken hT.1 le_rfl

theorem block_laid : ∀ (body : Block), body.Placed tokens →
    Laid [] body.base.first body.base.last (shapes (walk_block tokens body)) (overtaken_block body)
  | .mk _ list close, ⟨hclose, hT, h⟩ => by
    have hfits := stats_fits list h hT le_rfl fun m _ _ => Fits.nil [] m close
    rw [append_nil, append_nil] at hfits
    exact Laid.scope hfits hclose.ge

theorem for_laid : ∀ (body : Block) (id : ℕ) (vars : List (Binding × Bool)), body.Placed tokens →
    (∀ v ∈ vars, v.1.name ≠ []) →
    Laid [] body.base.first body.base.last (shapes (loop_acts tokens id vars body)) (overtaken_block body)
  | .mk b list close, id, vars, ⟨hclose, hT, h⟩, hnames => by
    have hbody := stats_fits list h hT le_rfl fun m _ _ => Fits.nil [] m close
    rw [append_nil, append_nil] at hbody
    subst hclose
    exact loop_laid id (hT.part (mem_append_right _ (mem_singleton_self _))).1 hnames hbody

theorem stat_fits : ∀ (s : Stat) {hi : ℕ} {rest : List (Shape Bytes)} {o : List ℕ}, s.Placed tokens →
    s.base.first ≤ s.base.last + 1 → s.base.last < hi → Fits [] (s.base.last + 1) hi rest o →
    Fits [] s.base.first hi (shapes (stat tokens s) ++ rest) (overtaken_stat s ++ o)
  | .Local b scope bindings types values, hi, rest, o, ⟨hT, hnames, htypes, hvalues⟩, hle, hlast, hrest => by
    have hlaid := types_laid types htypes (clear_nil _ _) hT.after fun m _ hm => 
      (exps_laid values hvalues hm.all fun m _ _ => Laid.nil [] m _).all
    unfold stat overtaken_stat
    rw [shapes_append, shapes_append, append_assoc _ _ rest]
    exact hlaid.then (fits_declare_locals hlast hrest hnames values) hle hlast.le
  | .LocalFunction b name typeparams fn, hi, rest, o, ⟨⟨hT, hname, htypeparams⟩, h⟩, hle, hlast, hrest => by
    have hfn := fn_laid fn hT.2.2 htypeparams h
    cases fn with
    | mk fb params rets body =>
      have hrest' := fits_name hname ((le_succ _).trans hT.1) (hT.last_le.trans hlast.le)
        (hfn.then hrest (succ_le_succ hT.last_le) hlast.le)
      unfold stat
      rwa [shapes, shapes_append, Act.shape, if_neg hname.1, shapes, Act.shape, shapes, append_nil, append_nil]
  | .Function b [first, second] typeparams fn, hi, rest, o, ⟨hT, ⟨hdot, hfirst⟩, htypeparams, h⟩, hle, hlast, hrest => by
    have huse : Laid [] first.first first.last (shapes [.use_name first false]) [] :=
      ⟨Lexical.closed_use _ _ _, Fits.use (u := ⟨first.text, first.first, first.id⟩) (Nat.le_refl _) hfirst⟩
    have hfn := (fn_laid fn hT.2.2.2.2 htypeparams h).weaken hT.2.2.rest_le le_rfl
    have hlaid := Laid.part hT huse hfn
    have hpath : function_path tokens b [first, second] = ([.use_name first false], none) := by
      unfold function_path
      dsimp only
      rw [if_neg hdot]
    unfold stat
    rw [hpath, shapes_append]
    exact hlaid.then hrest hle hlast.le
  | .Function _ [] _ _, _, _, _, h, _, _, _ | .Function _ [_] _ _, _, _, _, h, _, _, _
  | .Function _ (_ :: _ :: _ :: _) _ _, _, _, _, h, _, _, _ => h.elim
  | .Assign b targets values, hi, rest, o, ⟨hT, htargets, hvalues⟩, hle, hlast, hrest => by
    unfold stat overtaken_stat
    rw [shapes_append, shapes_targets]
    refine Laid.then ?_ hrest hle hlast.le
    cases targets with
    | nil =>
      have hlaid := (exps_laid values hvalues hT.all fun m _ _ => Laid.nil [] m _).all
      have hshapes : shapes (walk_exps tokens []) = [] := rfl
      have hover : overtaken_exps [] = [] := rfl
      rwa [hshapes, hover, append_nil, append_nil]
    | cons e list =>
      -- The values stand after the targets and are walked before them.
      obtain ⟨m, hm, hmlast, hT'⟩ := Tiled.cut hT
      have hfirst := (exps_laid (e :: list) htargets hm.all fun m' _ _ => Laid.nil [] m' m).all
      have hsecond := (exps_laid values hvalues hT'.all fun m' _ _ => Laid.nil [] m' _).all
      exact ⟨hsecond.closed.append hfirst.closed,
        hsecond.fits.swap hsecond.closed hfirst.fits hfirst.closed hm.le hmlast⟩
  | .CallStat b call, hi, rest, o, h, hle, hlast, hrest =>
    (Laid.only h.1 (exp_laid call h.2)).then hrest hle hlast.le
  | .Return b values, hi, rest, o, h, hle, hlast, hrest => 
    (exps_laid values h.2 h.1.all fun m _ _ => Laid.nil [] m _).all.then hrest hle hlast.le
  | .Do b body, hi, rest, o, h, hle, hlast, hrest => (Laid.only h.1 (block_laid body h.2)).then hrest hle hlast.le
  | .Break b, hi, rest, o, _, hle, hlast, hrest | .Continue b, hi, rest, o, _, hle, hlast, hrest =>
    (Laid.nil [] b.first b.last).then hrest hle hlast.le
  | .While b cond body, hi, rest, o, h, hle, hlast, hrest => by
    have hlaid := Laid.pair h.1 (exp_laid cond h.2.1) (block_laid body h.2.2)
    unfold stat
    simp only [shapes, Act.shape, shapes_append, append_nil]
    exact hlaid.then hrest hle hlast.le
  | .Repeat b body cond, hi, rest, o, h, hle, hlast, hrest => by
    have hcond := Laid.only h.1.2.2 (exp_laid cond h.2.2)
    have hbody := block_rest body h.2.1 h.1.last_le fun m _ hm =>
      (hcond.weaken (hm.trans (le_succ _)) le_rfl).fits
    unfold stat
    simp only [shapes, Act.shape, shapes_append, append_nil]
    exact (Laid.scope (hbody.weaken h.1.1 le_rfl) le_rfl).then hrest hle hlast.le
  | .If b arms none, hi, rest, o, h, hle, hlast, hrest =>
    (arms_laid arms h.2.1 h.1 fun m _ _ => Laid.nil [] m b.last).all.then hrest hle hlast.le
  | .If b arms (some else_body), hi, rest, o, h, hle, hlast, hrest => by
    have hlaid := arms_laid arms h.2.1 h.1 fun m _ hT => Laid.only hT (block_laid else_body h.2.2)
    unfold stat
    rw [shapes_append]
    exact hlaid.then hrest hle hlast.le
  | .Match b scrutinee arms, hi, rest, o, h, hle, hlast, hrest => by
    have hlaid := Laid.part h.1 (exp_laid scrutinee h.2.1) (match_arms_laid arms h.2.2 h.1.2.2)
    unfold stat
    rw [shapes_append]
    exact hlaid.then hrest hle hlast.le
  | .ForNum b var from_ to_ none body, hi, rest, o, ⟨hT, hvar, hfrom, hto, h⟩, hle, hlast, hrest => by
    have hbody := for_laid body b.id [(var, true)] h (by simpa using hvar.1)
    have hlaid := (Laid.part hT (exp_laid from_ hfrom) (Laid.pair hT.2.2 (exp_laid to_ hto) hbody)).then hrest hle hlast.le
    cases body
    unfold stat overtaken_stat
    simp only [shapes_append, append_assoc] at hlaid ⊢
    exact hlaid
  | .ForNum b var from_ to_ (some step) body, hi, rest, o, ⟨hT, hvar, hfrom, hto, hstep, h⟩, hle, hlast, hrest => by
    have hbody := for_laid body b.id [(var, true)] h (by simpa using hvar.1)
    have hlaid := (Laid.part hT (exp_laid from_ hfrom) (Laid.part hT.2.2 (exp_laid to_ hto)
      (Laid.pair hT.2.2.2.2 (exp_laid step hstep) hbody))).then hrest hle hlast.le
    cases body
    unfold stat overtaken_stat
    simp only [shapes_append, append_assoc] at hlaid ⊢
    exact hlaid
  | .ForIn b vars iterators body, hi, rest, o, ⟨hT, hvars, hiterators, h⟩, hle, hlast, hrest => by
    have hbody := for_laid body b.id (for_vars vars) h (for_vars_named hvars)
    have hlaid := exps_laid iterators hiterators hT fun m _ hm => Laid.only hm hbody
    cases body
    unfold stat overtaken_stat
    rw [shapes_append]
    exact hlaid.then hrest hle hlast.le
  | .Decl d, hi, rest, o, h, hle, hlast, hrest => typedecl_fits d false h hlast.le hrest

theorem arms_laid : ∀ (list : List Arm) {lo hi : ℕ} {parts : List Base} {rest : List (Shape Bytes)} {o : List ℕ},
    placed_arms tokens list → Tiled hi lo (list.map Arm.base ++ parts) →
    (∀ m, lo ≤ m → Tiled hi m parts → Laid [] m hi rest o) →
    Laid [] lo hi (shapes (if_arms tokens list) ++ rest) (overtaken_arms list ++ o)
  | [], lo, _, _, _, _, _, hT, hrest => hrest lo le_rfl hT
  | .mk _ cond body :: list, lo, hi, parts, rest, o, h, hT, hrest => by
    have hlist := arms_laid list h.2 hT.2.2 fun m hm => hrest m (hT.rest_le.trans hm)
    have harm := Laid.pair h.1.1 (exp_laid cond h.1.2.1) (block_laid body h.1.2.2)
    unfold if_arms overtaken_arms
    rw [shapes_append, shapes_append, append_assoc _ _ rest, append_assoc _ _ o]
    exact Laid.part hT harm hlist

theorem match_arms_laid : ∀ (list : List MatchArm) {lo hi : ℕ}, placed_match_arms tokens list →
    Tiled hi lo (list.map MatchArm.base) →
    Laid [] lo hi (shapes (match_arms tokens list)) (overtaken_match_arms list)
  | [], lo, hi, _, _ => Laid.nil [] lo hi
  | .mk b pats (.mk body stats close) :: list, lo, hi, ⟨⟨hparts, hpats, hclose, hstats, hplaced⟩, h⟩, hT => by
    have hbody := stats_fits stats hplaced hstats le_rfl fun m _ _ => Fits.nil [] m close
    rw [append_nil, append_nil] at hbody
    have hlast : close ≤ b.last := hclose ▸ (hparts.part (mem_append_right _ (mem_singleton_self _))).2
    have hscope : Tiled close b.first (pats.map PatItem.base ++ [body]) := hclose ▸ hparts.close
    have harm := fits_declare_pats hpats hscope fun m _ hm => hbody.weaken hm.1 le_rfl
    unfold match_arms
    rw [shapes, Act.shape, shapes_append]
    exact Laid.part hT (Laid.scope harm hlast) (match_arms_laid list h hT.2.2)

theorem typedecl_fits : ∀ (d : Decl) {hi : ℕ} {rest : List (Shape Bytes)} {o : List ℕ} (nested : Bool),
    d.Placed tokens → d.base.last ≤ hi → Fits [] (d.base.last + 1) hi rest o →
    Fits [] d.base.first hi (shapes (typedecl tokens nested d) ++ rest) (overtaken_decl d ++ o)
  | .Record b scope name typeparams supers array list, hi, rest, o, nested, ⟨hhead, hsupers, harray, h⟩, hhi, hrest => by
    refine fits_declaration hhead (fun m hT => ?_) hhi hrest .Record scope nested none
    rw [shapes_append, shapes_append, append_assoc]
    refine fits_types hsupers hT fun m' _ hT' => ?_
    cases array with
    | none => exact members_fits list h hT'
    | some t =>
      have ht := ty_laid t (harray t rfl) (clear_nil _ _)
      exact (ht.then (members_fits list h hT'.2.2) hT'.2.1 hT'.last_le).weaken hT'.1 le_rfl
  | .Interface b scope name typeparams supers list, hi, rest, o, nested, ⟨hhead, hsupers, h⟩, hhi, hrest => by
    unfold typedecl overtaken_decl
    refine fits_declaration hhead (fun m hT => ?_) hhi hrest .Interface scope nested none
    rw [shapes_append]
    exact fits_types hsupers hT fun m' _ hT' => members_fits list h hT'
  | .Class b scope name typeparams supers list, hi, rest, o, nested, ⟨hhead, hsupers, h⟩, hhi, hrest => by
    refine fits_declaration hhead (fun m hT => ?_) hhi hrest .Class scope nested none
    rw [shapes_append]
    exact fits_types hsupers hT fun m' _ hT' => members_fits list h hT'
  | .Enum b scope name _, hi, rest, o, nested, ⟨hT, hname⟩, hhi, hrest => by
    unfold typedecl
    rw [shapes, declare_type_shape hname]
    exact fits_name hname ((le_succ _).trans hT.1) (hT.last_le.trans hhi)
      (hrest.weaken (succ_le_succ hT.last_le) le_rfl)
  | .Import b scope name module, hi, rest, o, nested, ⟨hT, hname⟩, hhi, hrest => by
    unfold typedecl
    rw [shapes, declare_type_shape hname]
    exact fits_name hname ((le_succ _).trans hT.1) (hT.last_le.trans hhi)
      (hrest.weaken (succ_le_succ hT.last_le) le_rfl)
  | .Alias b scope name typeparams type, hi, rest, o, nested, ⟨⟨hT, hname, htypeparams⟩, htype⟩, hhi, hrest => by
    have hclear : Clear [(name.name, name.first)] (name.last + 1) b.last := fun y hy => by
      rw [mem_singleton.mp hy]
      exact .inl (lt_succ_of_le hname.2)
    have hbody := type_body_laid htypeparams hclear hT.2.2 (fun m hm hT' =>
      (Laid.only hT' (ty_laid type htype
        (((hclear.mono hm le_rfl).unbound (spots typeparams)).part hT'))).fits) le_rfl
    unfold typedecl
    rw [shapes_append, shapes, declare_type_shape hname]
    have hlo : b.first ≤ name.last + 1 := (le_succ _).trans hT.rest_le
    have hfits : Fits ([(⟨name.name, name.first, name.id⟩ : Spot Bytes)].map fun c => (c.name, c.at_)) b.first b.last
        (shapes (type_body b.last typeparams (ty type))) _ := (hbody.weaken hlo le_rfl).fits
    refine hfits.late hbody.closed ?_ (pairwise_singleton _ _) hrest (hlo.trans (succ_le_succ hT.last_le)) hhi
    intro c hc
    rw [mem_singleton.mp hc]
    exact ⟨hT.1, hname.2.trans hT.last_le⟩

theorem members_fits : ∀ (list : List Member) {lo hi : ℕ}, placed_members tokens list →
    Tiled hi lo (list.map Member.base) →
    Fits [] lo hi (shapes (members tokens list)) (overtaken_members list)
  | [], lo, hi, _, _ => Fits.nil [] lo hi
  | .FieldDecl _ _ _ _ type :: list, lo, hi, h, hT => by
    have hlist := members_fits list h.2 hT.2.2
    have htype := Laid.only h.1.1 (ty_laid type h.1.2 (clear_nil _ _))
    unfold members
    rw [shapes_append]
    exact (htype.then hlist hT.2.1 hT.last_le).weaken hT.1 le_rfl
  | .Decl d :: list, lo, hi, h, hT => by
    have hdecl := typedecl_fits d true h.1 hT.last_le (members_fits list h.2 hT.2.2)
    unfold members
    rw [shapes_append]
    exact hdecl.weaken hT.1 le_rfl
  | .Method b _ params rets body :: list, lo, hi, h, hT => by
    have hlist := members_fits list h.2 hT.2.2
    have hbody := block_rest body h.1.2 h.1.1.2.2.2.le fun m _ _ => Fits.nil [] m b.last
    rw [append_nil, append_nil] at hbody
    unfold members
    rw [shapes_append]
    exact ((function_laid h.1.1 hbody).then hlist hT.2.1 hT.last_le).weaken hT.1 le_rfl
  | .Userdata _ :: list, lo, hi, h, hT => (members_fits list h hT.2.2).weaken hT.rest_le le_rfl
  | .Error _ :: _, _, _, h, _ => h.elim

end

end Cosmic.Scopes
