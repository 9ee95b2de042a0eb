/-
What the operations that make types and declarations do: a run of steps from the store they are
given, whichever way they end, and a live type or declaration when they answer one.
-/
import Cosmic.Lang.TypesSound
import Mathlib.Data.List.TakeWhile

set_option autoImplicit false

namespace Cosmic.Types

open Cosmic.Base List
open Cosmic.Base.Raise

/-! ## Runs that make types, and runs of steps -/

/-- The run of `m` from `s` makes types alone, and its answer and the store it leaves are of `Q`. -/
abbrev Growing {α : Type} (o : Outside) (m : M α) (s : Store) (Q : α → Store → Prop) : Prop :=
  Goes (Grows o) (Grows o) m s Q

/-- The run of `m` from `s` is of steps, and its answer and the store it leaves are of `Q`. -/
abbrev Stepping {α : Type} (o : Outside) (m : M α) (s : Store) (Q : α → Store → Prop) : Prop :=
  Goes (Steps o) (Steps o) m s Q

theorem Growing.stepping {α : Type} {o : Outside} {m : M α} {s : Store} {Q : α → Store → Prop}
    (h : Growing o m s Q) : Stepping o m s Q :=
  Ends.mono h (fun _ _ h' => ⟨h'.1.steps, h'.2⟩) fun _ _ h' => h'.steps

theorem forall_of_forall₂ {γ δ : Type} {P : γ → Prop} {l : List γ} {l' : List δ}
    (h : Forall₂ (fun a _ => P a) l l') : ∀ a ∈ l, P a := by
  induction h with
  | nil => exact nofun
  | cons hP _ ih =>
    intro a ha
    rcases mem_cons.mp ha with rfl | ha
    · exact hP
    · exact ih a ha

/-- A run that makes types alone is of steps, and is still known to have made types alone. -/
theorem Growing.with_grows {α : Type} {o : Outside} {m : M α} {s : Store} {Q : α → Store → Prop}
    (h : Growing o m s Q) : Stepping o m s fun a s' => Grows o s s' ∧ Q a s' :=
  Ends.mono h (fun _ _ h' => ⟨h'.1.steps, h'⟩) fun _ _ h' => h'.steps

/-! ## Reading without changing -/

theorem quiet_owned (s : Store) (t : ℕ) : Quiet (owned t) s fun _ => s.alive t = true := by
  apply goes_read_bind
  exact goes_refuse fun ht => by simpa using ht

theorem quiet_owned_each (s : Store) (ts : List ℕ) : Quiet (each owned ts) s fun _ => ∀ t ∈ ts, s.alive t = true := by
  apply (quiet_each ts fun t _ => quiet_owned s t).mono
  intro us s' _ h
  exact forall_of_forall₂ h

theorem quiet_declared (s : Store) (d : ℕ) :
    Quiet (declared_here d) s fun decl => s.decl d = some decl ∧ decl.dead = false := by
  apply goes_read_bind
  apply goes_need
  intro decl hd
  obtain ⟨hd, hdead⟩ := Option.filter_eq_some_iff.mp hd
  exact ⟨hd, by simpa using hdead⟩

theorem quiet_bound_ok (o : Outside) (s : Store) (b : ℕ) :
    Quiet (bound_ok o b) s fun _ => s.alive b = true ∧ is_bound s b = true := by
  apply goes_quiet_bind (quiet_owned s b)
  intro _ hb
  apply goes_read_bind
  exact goes_refuse fun h => ⟨hb, by simpa using h⟩

/-! ## Making types -/

section

variable {o : Outside} {s : Store} (hs : Sound o s)

include hs

theorem growing_intern (form : Form ℕ) (hp : ∀ p ∈ form.parts, s.alive p = true)
    (hd : ∀ d ∈ form.names, s.decl_alive d = true) (hn : NormalForm s form) (hk : Known s form) :
    Growing o (intern o form) s fun t s' => s'.alive t = true ∧ s'.form t = some form := by
  apply goes_read_bind
  cases hfound : s.interned (s.key_of form) with
  | some t => exact goes_pure (hs.interned_form hd hn.alts hfound)
  | none =>
    apply goes_read_bind
    apply goes_refuse_bind
    intro hheight
    have hm : Makes s form := ⟨hfound, hp, hd, Nat.le_of_not_gt hheight, hn⟩
    apply goes_change_bind (.single (.type hm hk))
    have hnew : (s.add o form).cell (s.add o form).count = some (s.cell_of o form) := by
      apply add_cell.mpr
      exact .inr ⟨by show s.count + 1 = _; rw [hs.types.count], rfl⟩
    apply goes_read
    exact ⟨alive_iff.mpr ⟨_, hnew, rfl⟩, form_iff.mpr ⟨_, hnew, rfl⟩⟩

omit hs in
theorem known_of_names {form : Form ℕ} (h : form.names = none) : Known s form := by
  rintro d args value rfl
  cases h

theorem growing_array (element : ℕ) (mutable : Bool) : Growing o (array o element mutable) s fun t s' =>
      s'.alive t = true ∧ s'.form t = some (.array element mutable) := by
  apply goes_quiet_bind (quiet_owned s element)
  intro _ he
  apply growing_intern hs (.array element mutable) ?_ (fun d hd => absurd hd (by simp [Form.names])) trivial
    (known_of_names rfl)
  intro p hp
  rwa [mem_singleton.mp hp]

theorem growing_map (key value : ℕ) (mutable : Bool) : Growing o (map o key value mutable) s fun t s' =>
      s'.alive t = true ∧ s'.form t = some (.map key value mutable) := by
  apply goes_quiet_bind (quiet_owned s key)
  intro _ hkey
  apply goes_quiet_bind (quiet_owned s value)
  intro _ hvalue
  apply growing_intern hs (.map key value mutable) ?_ (fun d hd => absurd hd (by simp [Form.names])) trivial
    (known_of_names rfl)
  intro p hp
  simp only [Form.parts, mem_cons, not_mem_nil, or_false] at hp
  rcases hp with rfl | rfl
  · exact hkey
  · exact hvalue

theorem growing_var (depth index : ℤ) : Growing o (var o depth index) s fun t s' => s'.alive t = true := by
  apply goes_refuse_bind
  intro _
  apply (growing_intern hs (.var depth.toNat index.toNat) (fun p hp => absurd hp not_mem_nil)
    (fun d hd => absurd hd (by simp [Form.names])) trivial (known_of_names rfl)).mono
  exact fun _ _ _ h => h.1

omit hs in
theorem gather_nilable (levels : ℕ) : ∀ {g : Gathered} {m : ℕ}, g.nilable = true →
    (gather s levels g m).nilable = true := by
  induction levels with
  | zero => exact fun h => h
  | succ levels ih =>
    intro g m h
    have hall : ∀ (ms : List ℕ) (g : Gathered), g.nilable = true → (ms.foldl (gather s levels) g).nilable = true := by
      intro ms
      induction ms with
      | nil => exact fun g h => h
      | cons p ms ihms => exact fun g h => ihms _ (ih h)
    unfold gather
    split
    · next members nilable _ =>
      split
      · rfl
      · exact hall members g h
    · rfl
    · exact h
    · exact h
    · exact h
    · split
      · exact h
      · exact h

omit hs in
theorem foldl_nilable (ha : HasAtoms s) {ms : List ℕ} {g : Gathered} (h : g.nilable = true ∨ atom_of .nil ∈ ms) :
    (ms.foldl (fun g m => gather s (m + 1) g m) g).nilable = true := by
  induction ms generalizing g with
  | nil =>
    rcases h with h | h
    · exact h
    · cases h
  | cons m ms ih =>
    apply ih
    rcases h with h | h
    · exact .inl (gather_nilable (m + 1) h)
    rcases mem_cons.mp h with rfl | h
    · refine .inl ?_
      show (gather s (atom_of .nil + 1) g (atom_of .nil)).nilable = true
      unfold gather
      rw [ha.form .nil]
    · exact .inr h

omit hs in
theorem normal_union_nilable {g : Gathered} (h : g.nilable = true) :
    match normal_union s g with
    | .type t => t = atom_of .nil ∨ t = atom_of .any ∨ t = atom_of .invalid
    | .union _ nilable => nilable = true := by
  unfold normal_union
  rw [h]
  by_cases hi : g.invalid = true
  · rw [if_pos hi]
    exact .inr (.inr rfl)
  rw [if_neg hi]
  by_cases ha : g.any = true
  · rw [if_pos ha]
    exact .inr (.inl rfl)
  rw [if_neg ha]
  dsimp only
  generalize List.filter _ _ = kept
  rcases kept with _ | ⟨m, _ | ⟨m', kept⟩⟩
  · exact .inl rfl
  · rfl
  · rfl

theorem growing_union_of (members : List ℕ) : Growing o (union_of o members) s fun t s' =>
      s'.alive t = true ∧ (atom_of .nil ∈ members → Nilable s' t) := by
  apply goes_quiet_bind (quiet_owned_each s members)
  intro _ hm
  apply goes_read_bind
  have hg := gathers_foldl hs.types.closed hm (gathers_none s)
  have hfits := normal_union_fits hs.types.atoms hg
  have hnil := fun h => normal_union_nilable (s := s)
    (foldl_nilable hs.types.atoms (show (Gathered.nilable {}) = true ∨ _ ∈ members from .inr h))
  cases hn : normal_union s (members.foldl (fun g m => gather s (m + 1) g m) {}) with
  | type t =>
    rw [hn] at hfits hnil
    exact goes_pure ⟨hfits, fun h => .inr (hnil h)⟩
  | union kept nilable =>
    rw [hn] at hfits hnil
    apply (growing_intern hs (.union kept nilable) hfits.2 (fun d hd => absurd hd (by simp [Form.names])) hfits.1
      (known_of_names rfl)).mono
    rintro t s' - ⟨ht, hform⟩
    refine ⟨ht, fun h => .inl ⟨kept, ?_⟩⟩
    rw [hform, show nilable = true from hnil h]

theorem growing_optional (t : ℕ) : Growing o (optional o t) s fun r s' => s'.alive r = true ∧ Nilable s' r := by
  apply goes_quiet_bind (quiet_owned s t)
  intro _ ht
  apply goes_read_bind
  have hunion : Growing o (union_of o [t, atom_of .nil]) s fun r s' =>
      s'.alive r = true ∧ Nilable s' r :=
    (growing_union_of hs [t, atom_of .nil]).mono fun _ _ _ h => ⟨h.1, h.2 (by simp)⟩
  split
  · next members hform => exact goes_pure ⟨ht, .inl ⟨members, hform⟩⟩
  · exact hunion

theorem growing_non_nil (t : ℕ) : Growing o (non_nil o t) s fun r s' => s'.alive r = true := by
  apply goes_quiet_bind (quiet_owned s t)
  intro _ ht
  apply goes_read_bind
  split
  · exact goes_pure (hs.types.atoms.alive .never)
  · exact (growing_union_of hs _).mono fun _ _ _ h => h.1
  · exact goes_pure ht

theorem stepping_named (d : ℕ) (args : List ℕ) (value : Bool) : Stepping o (named o d args value) s fun t s' =>
      s'.alive t = true ∧ s'.form t = some (.named d args value) := by
  apply goes_quiet_bind (quiet_declared s d)
  rintro decl ⟨hd, hdead⟩
  apply goes_quiet_bind (quiet_owned_each s args)
  intro _ hargs
  have hnames : ∀ d' ∈ (Form.named d args value).names, s.decl_alive d' = true := by
    intro d' hd'
    cases hd'
    exact decl_alive_iff.mpr ⟨decl, hd, hdead⟩
  cases harity : decl.arity with
  | some n =>
    apply goes_refuse_bind
    intro hn
    apply Growing.stepping
    apply growing_intern hs (.named d args value) hargs hnames trivial
    intro d' args' value' heq
    cases heq
    exact ⟨decl, hd, by rw [harity, not_not.mp hn]⟩
  | none =>
    apply goes_read_bind
    -- told apart as the source does, by whether the type is new
    unfold intern
    cases hfound : s.interned (s.key_of (.named d args value)) with
    | some t =>
      have ht := hs.interned_form hnames trivial hfound
      have hle : t ≤ s.count := by
        obtain ⟨c, hc, -⟩ := alive_iff.mp ht.1
        rw [hs.types.count]
        exact cell_le hc
      unfold Goes
      simp only [ends_bind, ends_read, hfound, ends_pure]
      rw [if_neg (by omega)]
      exact ⟨.refl, ht⟩
    | none =>
      unfold Goes
      simp only [ends_bind, ends_read, hfound, ends_refuse, ends_change]
      refine ⟨fun _ => .refl, fun hheight => ?_⟩
      have hm : Makes s (.named d args value) := ⟨hfound, hargs, hnames, Nat.le_of_not_gt hheight, trivial⟩
      rw [if_pos (show (s.add o (.named d args value)).count = s.count + 1 from rfl)]
      simp only [ends_change, ends_bind, ends_pure]
      refine ⟨.single (.use hm hd harity), ?_⟩
      have hnew : (s.add o (.named d args value)).cell (s.count + 1) = some (s.cell_of o (.named d args value)) := by
        apply add_cell.mpr
        exact .inr ⟨by rw [hs.types.count], rfl⟩
      exact ⟨alive_iff.mpr ⟨_, hnew, rfl⟩, form_iff.mpr ⟨_, hnew, rfl⟩⟩

/-- What `normal_alt` answers: an alternative as the store keeps it, of live types. -/
structure KeptAlt (s : Store) (given alt : Alt ℕ) : Prop where
  normal : alt.Normal
  alive : ∀ p ∈ alt.parts, s.alive p = true
  narrows : alt.narrows = given.narrows

theorem quiet_normal_alt (alt : Alt ℕ) : Quiet (normal_alt alt) s fun r => ∀ kept ∈ r, KeptAlt s alt kept := by
  obtain ⟨items, tail, narrows⟩ := alt
  cases narrows with
  | some narrows =>
    apply goes_quiet_bind (quiet_owned s narrows.to_)
    intro _ hto
    apply goes_refuse_bind
    intro hparam
    apply goes_pure
    rintro kept ⟨⟩
    refine ⟨⟨rfl, rfl, by omega⟩, ?_, rfl⟩
    intro p hp
    simp only [Alt.parts, Option.toList_none, append_nil, Option.map_some,
      Option.toList_some, mem_append, mem_singleton] at hp
    rcases hp with hp | rfl
    · split at hp
      · cases hp
      · rw [mem_singleton.mp hp]
        exact hs.types.atoms.alive .boolean
    · exact hto
  | none =>
    apply goes_quiet_bind (quiet_owned_each s _)
    intro _ hbefore
    dsimp only
    split
    · apply goes_quiet_bind (quiet_owned s _)
      intro _ _
      exact goes_pure (by rintro _ ⟨⟩)
    next heq =>
    have heq' := not_not.mp heq
    apply goes_quiet_bind (quiet_owned_each s _)
    intro _ htail
    apply goes_pure
    rintro kept ⟨⟩
    refine ⟨⟨?_, ?_⟩, ?_, rfl⟩
    · intro hmem
      rw [← heq'] at hmem
      have hne := mem_takeWhile_imp hmem
      cases hne
    · intro hmem
      have hne := (Option.filter_eq_some_iff.mp hmem).2
      cases hne
    · intro p hp
      simp only [Alt.parts, Option.map_none, Option.toList_none, append_nil, mem_append, Option.mem_toList] at hp
      rcases hp with hp | hp
      · rw [← heq'] at hp
        exact hbefore p hp
      · exact htail p (Option.mem_toList.mpr (Option.filter_eq_some_iff.mp hp).1)

theorem growing_param (p : Param ℕ) : Growing o (do
      owned p.type
      if p.omittable then
        let t ← optional o p.type
        return (⟨t, true⟩ : Param ℕ)
      return p) s fun q s' =>
        s'.alive q.type = true ∧ q.omittable = p.omittable ∧ (q.omittable = true → Nilable s' q.type) := by
  apply goes_quiet_bind (quiet_owned s p.type)
  intro _ hp
  by_cases ho : p.omittable = true
  · rw [if_pos ho]
    apply goes_bind (growing_optional hs p.type)
    rintro t s' - ⟨ht, hnil⟩
    exact goes_pure ⟨ht, ho.symm, fun _ => hnil⟩
  · rw [if_neg ho]
    exact goes_pure ⟨hp, rfl, fun h => absurd h ho⟩

end

/-- An alternative that `fn` keeps, with its text. -/
structure Keyed (s : Store) (given params : ℕ) (keyed : Bytes × Alt ℕ) : Prop where
  key : keyed.1 = render_alt s.digest_text keyed.2
  normal : keyed.2.Normal
  alive : ∀ p ∈ keyed.2.parts, s.alive p = true
  narrows : ∀ narrows ∈ keyed.2.narrows, given ≤ 1 ∧ narrows.param ≤ params

section

variable {o : Outside} {s s' : Store}

theorem render_alt_shows (hs : Shows s s') {alt : Alt ℕ} (h : ∀ p ∈ alt.parts, s.alive p = true) :
    render_alt s'.digest_text alt = render_alt s.digest_text alt :=
  render_alt_congr fun p hp => hs.digest_text (h p hp)

theorem Keyed.shows {given params : ℕ} {keyed : Bytes × Alt ℕ} (hs : Shows s s')
    (h : Keyed s given params keyed) : Keyed s' given params keyed where
  key := h.key.trans (render_alt_shows hs h.alive).symm
  normal := h.normal
  alive p hp := hs.alive (h.alive p hp)
  narrows := h.narrows

theorem order_alts_normal {given params : ℕ} {keyed : List (Option (Bytes × Alt ℕ))}
    (hlen : keyed.length = given) (h : ∀ r ∈ keyed, ∀ k ∈ r, Keyed s given params k) :
    (∀ alt ∈ order_alts keyed.reduceOption, alt.Normal ∧ ∀ p ∈ alt.parts, s.alive p = true) ∧
      (∀ alt ∈ order_alts keyed.reduceOption, ∀ narrows ∈ alt.narrows,
        (order_alts keyed.reduceOption).length = 1 ∧ narrows.param ≤ params) ∧
      ((order_alts keyed.reduceOption).map (render_alt s.digest_text)).Pairwise (· < ·) := by
  obtain ⟨kept, hkept, hmem, hlen', hordered⟩ := order_alts_ordered keyed.reduceOption
  have hk : ∀ k ∈ kept, Keyed s given params k := by
    intro k hmemk
    have hsome := reduceOption_mem_iff.mp (hmem k hmemk)
    exact h (some k) hsome k rfl
  rw [hkept]
  refine ⟨?_, ?_, ?_⟩
  · intro alt halt
    obtain ⟨k, hkmem, rfl⟩ := mem_map.mp halt
    exact ⟨(hk k hkmem).normal, (hk k hkmem).alive⟩
  · intro alt halt narrows hn
    obtain ⟨k, hkmem, rfl⟩ := mem_map.mp halt
    obtain ⟨hone, hparam⟩ := (hk k hkmem).narrows narrows hn
    refine ⟨?_, hparam⟩
    have hle := reduceOption_length_le keyed
    have hpos := length_pos_of_mem hkmem
    rw [length_map]
    omega
  · have hkeys : (kept.map Prod.snd).map (render_alt s.digest_text) = kept.map Prod.fst := by
      rw [map_map]
      exact map_congr_left fun k hkmem => (hk k hkmem).key.symm
    rwa [hkeys]

theorem growing_fn (hs : Sound o s) (spec : FnSpec) : Growing o (fn o spec) s fun t s' => s'.alive t = true := by
  have hbounds := quiet_each spec.tparams.reduceOption fun b _ => quiet_bound_ok o s b
  apply goes_quiet_bind hbounds
  intro _ hb
  have hb := forall_of_forall₂ hb
  -- the parameters
  apply goes_bind (goes_each (K := fun (_ : Param ℕ) (q : Param ℕ) s => s.alive q.type = true ∧
      (q.omittable = true → Nilable s q.type)) ?_ spec.params ?_)
  · intro params s₁ hs₁ hparams
    have hsound₁ := hs₁.steps.sound hs
    have hshows₁ := hs₁.steps.shows
    apply goes_quiet_bind (quiet_owned_each s₁ _)
    intro _ hrest
    -- the alternatives
    apply goes_bind (goes_each (K := fun (_ : Alt ℕ) (r : Option (Bytes × Alt ℕ)) s =>
        ∀ k ∈ r, Keyed s (spec.rets.getD [{}]).length params.length k) ?_ (spec.rets.getD [{}]) ?_)
    · intro keyed s₂ hs₂ hkeyed
      have hsound₂ := hs₂.steps.sound hsound₁
      have hshows₂ := hs₂.steps.shows
      have hall : ∀ r ∈ keyed, ∀ k ∈ r, Keyed s₂ (spec.rets.getD [{}]).length params.length k := by
        have hflip := hkeyed.flip
        exact forall_of_forall₂ hflip
      obtain ⟨hnormal, halone, hordered⟩ := order_alts_normal hkeyed.length_eq.symm hall
      apply goes_read_bind
      generalize hrets : order_alts keyed.reduceOption = rets at hnormal halone hordered ⊢
      have hparams' : ∀ q ∈ params, s₂.alive q.type = true ∧ (q.omittable = true → Nilable s₂ q.type) := by
        intro q hq
        obtain ⟨hqa, hqn⟩ := forall_of_forall₂ hparams.flip q hq
        exact ⟨hshows₂.alive hqa, fun ho => nilable_shows hshows₂ hqa (hqn ho)⟩
      have hparts : ∀ p ∈ (Form.fn spec.tparams params spec.rest rets).parts, s₂.alive p = true := by
        intro p hp
        simp only [Form.parts, mem_append, or_assoc] at hp
        rcases hp with hp | hp | hp | hp
        · exact hshows₂.alive (hshows₁.alive (hb p hp).1)
        · obtain ⟨q, hq, rfl⟩ := mem_map.mp hp
          exact (hparams' q hq).1
        · exact hshows₂.alive (hrest p hp)
        · obtain ⟨alt, halt, hp⟩ := mem_flatMap.mp hp
          exact (hnormal alt halt).2 p hp
      cases hwhy : (if spec.tparams = [] then none
          else (Form.fn spec.tparams params spec.rest rets).parts.findSome? fun t =>
            unbound s₂ spec.tparams.length (t + 1) 0 t) with
      | some why => exact goes_raise _
      | none =>
        apply (growing_intern hsound₂ _ hparts (fun d hd => absurd hd (by simp [Form.names])) ?_
          (known_of_names rfl)).mono
        · exact fun _ _ _ h => h.1
        refine ⟨?_, fun q hq => (hparams' q hq).2, fun alt halt => (hnormal alt halt).1, halone, hordered, ?_⟩
        · intro b hbmem
          have h₁ := is_bound_shows hshows₁ hs.types.closed (hb b hbmem).1
          have h₂ := is_bound_shows hshows₂ hsound₁.types.closed (hshows₁.alive (hb b hbmem).1)
          rw [h₂, h₁]
          exact (hb b hbmem).2
        · intro hne t ht
          rw [if_neg hne] at hwhy
          exact findSome?_eq_none_iff.mp hwhy t ht
    · intro _ r a b hab h k hk
      exact (h k hk).shows hab.steps.shows
    · intro alt halt s₂ hs₂
      have hsound₂ := hs₂.steps.sound hsound₁
      -- whatever it narrows, the alternative is made normal once that is checked
      have hnext : (∀ narrows ∈ alt.narrows, (spec.rets.getD [{}]).length ≤ 1 ∧ narrows.param ≤ params.length) →
          Growing o (do
            let normal ← normal_alt alt
            Raise.read fun s => normal.map (fun alt => (render_alt s.digest_text alt, alt))) s₂
            fun r s => ∀ k ∈ r, Keyed s (spec.rets.getD [{}]).length params.length k := by
        intro hn
        apply goes_quiet_bind (quiet_normal_alt hsound₂ alt)
        intro normal hnormal
        apply goes_read
        intro k hk
        obtain ⟨kept, hkept, rfl⟩ := Option.map_eq_some_iff.mp hk
        obtain ⟨h₁, h₂, h₃⟩ := hnormal kept hkept
        exact ⟨rfl, h₁, h₂, fun n hn' => hn n (h₃ ▸ hn')⟩
      cases hn : alt.narrows with
      | some narrows =>
        apply goes_refuse_bind
        intro hlen
        apply goes_refuse_bind
        intro hparam
        apply hnext
        intro n hn'
        rw [hn] at hn'
        rw [← Option.some.inj hn']
        exact ⟨by omega, by omega⟩
      | none =>
        apply hnext
        intro n hn'
        rw [hn] at hn'
        cases hn'
  · intro _ q a b hab h
    exact ⟨hab.steps.shows.alive h.1, fun ho => nilable_shows hab.steps.shows h.1 (h.2 ho)⟩
  · intro p _ s₁ hs₁
    exact (growing_param (hs₁.steps.sound hs) p).mono fun _ _ _ h => ⟨h.1, h.2.2⟩

end

end Cosmic.Types
