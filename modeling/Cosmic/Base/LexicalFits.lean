/-
Walks laid out over the places of a text, for which scopes and intervals agree.
-/
import Cosmic.Base.Lexical

set_option autoImplicit false

namespace Cosmic.Base.Lexical

open List

variable {N : Type}

/-! ## Closed walks -/

/-- A walk that leaves no binding open. -/
def Closed (ts : List (Shape N)) : Prop := ∀ e, binds e ts = []

theorem closed_nil : Closed ([] : List (Shape N)) := fun _ => rfl

theorem closed_scope (last : ℕ) (body : List (Shape N)) : Closed [.scope last body] := fun _ => rfl

theorem closed_use (p : ℕ) (x : N) (i : ℕ) : Closed [.use p x i] := fun _ => rfl

variable {as bs : List (Shape N)}

theorem Closed.append (ha : Closed as) (hb : Closed bs) : Closed (as ++ bs) := fun e => by
  rw [binds_append, ha e, hb e, append_nil]

/-- A name with the place it is at. -/
structure Spot (N : Type) where
  name : N
  at_ : ℕ
  id : ℕ

def Spot.bind (s : Spot N) : Shape N := .bind s.name s.at_ s.id

def Spot.use (s : Spot N) : Shape N := .use s.at_ s.name s.id

def Spot.key (e : ℕ) (s : Spot N) : Key N := Lexical.key e s.name s.at_ s.id

/-! ## Spots -/

theorem binds_map (e : ℕ) (bs : List (Spot N)) : binds e (bs.map Spot.bind) = bs.map (Spot.key e) := by
  induction bs with
  | nil => rfl
  | cons b bs ih => exact congrArg (b.key e :: ·) ih

theorem keys_map (e : ℕ) (bs : List (Spot N)) : keys e (bs.map Spot.bind) = bs.map (Spot.key e) := by
  induction bs with
  | nil => rfl
  | cons b bs ih => exact congrArg (b.key e :: ·) ih

theorem keys_uses (e : ℕ) (us : List (Spot N)) : keys e (us.map Spot.use) = [] := by
  induction us with
  | nil => rfl
  | cons u us ih => exact ih

theorem binds_uses (e : ℕ) (us : List (Spot N)) : binds e (us.map Spot.use) = [] := by
  induction us with
  | nil => rfl
  | cons u us ih => exact ih

theorem ids_uses (us : List (Spot N)) : ids (us.map Spot.use) = us.map Spot.id := by
  induction us with
  | nil => rfl
  | cons u us ih => exact congrArg (u.id :: ·) ih

theorem ids_map (bs : List (Spot N)) : ids (bs.map Spot.bind) = [] := by
  induction bs with
  | nil => rfl
  | cons b bs ih => exact ih

/-! ## Names bound late -/

/-- Whether a name that will be bound is, by its interval, visible at `p` already. -/
def Over (late : List (N × ℕ)) (p : ℕ) (x : N) : Prop := ∃ y ∈ late, y.1 = x ∧ y.2 ≤ p

/-! ## Where a binding of a layout is -/

/-- A binding made in the layout of a walk `ts` in a scope that ends at `e`: it begins in the layout,
and ends in it or stays open. -/
def Within (lo hi e : ℕ) (ts : List (Shape N)) (k : Key N) : Prop :=
  lo ≤ k.first ∧ k.first ≤ hi ∧ (k.last ≤ hi ∨ k ∈ binds e ts ∧ k.last = e)

variable {lo hi e : ℕ} {ts : List (Shape N)} {k : Key N}

theorem Within.closed (h : Within lo hi e ts k) (hclosed : Closed ts) : k.last ≤ hi := by
  rcases h.2.2 with h | ⟨h, -⟩
  · exact h
  · rw [hclosed e] at h
    cases h

theorem Within.mono {lo' hi' : ℕ} {ts' : List (Shape N)} (h : Within lo' hi' e ts k) (hlo : lo ≤ lo')
    (hhi : hi' ≤ hi) (hts : binds e ts ⊆ binds e ts') : Within lo hi e ts' k := by
  obtain ⟨hfirst, hle, hlast⟩ := h
  refine ⟨by omega, by omega, hlast.imp (by omega) fun ⟨hmem, hlast⟩ => ⟨hts hmem, hlast⟩⟩

theorem Spot.within {b : Spot N} (hlo : lo ≤ b.at_) (hhi : b.at_ ≤ hi) (he : hi ≤ e) (hts : b.key e ∈ binds e ts) :
    Within lo hi e ts (b.key e) :=
  ⟨hlo, hhi, .inr ⟨hts, max_eq_right (by omega)⟩⟩

/-! ## Layouts -/

variable [DecidableEq N]

instance (late : List (N × ℕ)) (p : ℕ) (x : N) : Decidable (Over late p x) :=
  inferInstanceAs (Decidable (∃ y ∈ late, _ ∧ _))

/-- The names of `late` that none of `bs` hides. -/
def unbound (bs : List (Spot N)) (late : List (N × ℕ)) : List (N × ℕ) := late.filter fun y => ¬ ∃ b ∈ bs, b.name = y.1

/-- A use among the names bound together with it: it is walked when they are bound, and one of its
name may begin after it. -/
def Ahead (bs : List (Spot N)) (late : List (N × ℕ)) (u : Spot N) : Prop :=
  Over (unbound bs late) u.at_ u.name ∨ ∃ b ∈ bs, b.name = u.name ∧ u.at_ < b.at_

instance (bs : List (Spot N)) (late : List (N × ℕ)) (u : Spot N) : Decidable (Ahead bs late u) :=
  inferInstanceAs (Decidable (_ ∨ ∃ b ∈ bs, _ ∧ _))

/-- A walk laid out over the places `lo` to `hi`, where the names of `late` are bound after it
though their intervals begin at the places given. The last list has the uses for which scopes
and intervals differ. -/
inductive Fits : List (N × ℕ) → ℕ → ℕ → List (Shape N) → List ℕ → Prop
  | nil (late : List (N × ℕ)) (lo hi : ℕ) : Fits late lo hi [] []
  | use {late : List (N × ℕ)} {lo hi : ℕ} {u : Spot N} (h₁ : lo ≤ u.at_) (h₂ : u.at_ ≤ hi) :
      Fits late lo hi [u.use] (if Over late u.at_ u.name then [u.id] else [])
  | scope {late : List (N × ℕ)} {lo hi last : ℕ} {body : List (Shape N)} {o : List ℕ}
      (h : Fits late lo last body o) (hlast : last ≤ hi) : Fits late lo hi [.scope last body] o
  /-- One part after another. -/
  | seq {late : List (N × ℕ)} {lo m hi : ℕ} {as bs : List (Shape N)} {o o' : List ℕ}
      (ha : Fits late lo m as o) (hclosed : Closed as) (hb : Fits late (m + 1) hi bs o')
      (hlo : lo ≤ m + 1) (hhi : m ≤ hi) : Fits late lo hi (as ++ bs) (o ++ o')
  /-- Two parts, the one that stands second walked first. -/
  | swap {late : List (N × ℕ)} {lo m hi : ℕ} {as bs : List (Shape N)} {o o' : List ℕ}
      (ha : Fits late (m + 1) hi as o) (hclosed : Closed as) (hb : Fits late lo m bs o') (hclosed' : Closed bs)
      (hlo : lo ≤ m + 1) (hhi : m ≤ hi) : Fits late lo hi (as ++ bs) (o ++ o')
  /-- A name bound from its place on. -/
  | bind {lo m hi : ℕ} {b : Spot N} {bs : List (Shape N)} {o : List ℕ} (hlo : lo ≤ b.at_) (hm : b.at_ ≤ m)
      (hhi : b.at_ ≤ hi) (h : Fits [] m hi bs o) : Fits [] lo hi (b.bind :: bs) o
  /-- Names bound after a part that their intervals reach into. -/
  | late {lo m hi : ℕ} {body rest : List (Shape N)} {bs : List (Spot N)} {o o' : List ℕ}
      (h : Fits (bs.map fun b => (b.name, b.at_)) lo m body o) (hclosed : Closed body)
      (hstarts : ∀ b ∈ bs, lo < b.at_ ∧ b.at_ ≤ m) (hsorted : bs.Pairwise fun a b => a.at_ ≤ b.at_)
      (hrest : Fits [] (m + 1) hi rest o') (hlo : lo ≤ m + 1) (hhi : m ≤ hi) :
      Fits [] lo hi (body ++ bs.map Spot.bind ++ rest) (o ++ o')
  /-- Names bound together before the uses that stand among them. -/
  | early {late : List (N × ℕ)} {lo m hi : ℕ} {rest : List (Shape N)} {bs us : List (Spot N)} {o : List ℕ}
      (hstarts : ∀ b ∈ bs, lo ≤ b.at_ ∧ b.at_ ≤ m) (hsorted : bs.Pairwise fun a b => a.at_ ≤ b.at_)
      (huses : ∀ u ∈ us, lo ≤ u.at_ ∧ u.at_ ≤ m) (hrest : Fits (unbound bs late) (m + 1) hi rest o)
      (hlate : ∀ y ∈ late, y.2 < lo ∨ hi < y.2) (hlo : lo ≤ m + 1) (hhi : m ≤ hi) :
      Fits late lo hi (bs.map Spot.bind ++ us.map Spot.use ++ rest)
        ((us.filter fun u => Ahead bs late u).map Spot.id ++ o)
  | weaken {late : List (N × ℕ)} {lo hi lo' hi' : ℕ} {ts : List (Shape N)} {o : List ℕ} (h : Fits late lo' hi' ts o)
      (hlo : lo ≤ lo') (hhi : hi' ≤ hi) : Fits late lo hi ts o
  | marked {late : List (N × ℕ)} {lo hi : ℕ} {ts : List (Shape N)} {o o' : List ℕ} (h : Fits late lo hi ts o)
      (ho : ∀ i, i ∈ o ↔ i ∈ o') : Fits late lo hi ts o'

/-! ## The bindings and the uses of a layout -/

theorem sites_map (e : ℕ) (env : List (Key N)) (bs : List (Spot N)) : sites e env (bs.map Spot.bind) = [] := by
  induction bs generalizing env with
  | nil => rfl
  | cons b bs ih => exact ih _

variable {env : List (Key N)}

theorem mem_sites_uses {us : List (Spot N)} {s : Site N} (h : s ∈ sites e env (us.map Spot.use)) :
    ∃ u ∈ us, s = ⟨u.at_, u.name, u.id, see env u.name⟩ := by
  induction us with
  | nil => exact absurd h not_mem_nil
  | cons u us ih =>
    rw [map_cons, sites, mem_append] at h
    rcases h with h | h
    · exact ⟨u, mem_cons_self, mem_singleton.mp h⟩
    · obtain ⟨u', hu', hs⟩ := ih h
      exact ⟨u', mem_cons_of_mem _ hu', hs⟩

variable {o : List ℕ}

theorem Fits.within {late : List (N × ℕ)} (h : Fits late lo hi ts o) (he : hi ≤ e) (hk : k ∈ keys e ts) :
    Within lo hi e ts k := by
  induction h generalizing e k with
  | nil => exact absurd hk not_mem_nil
  | use => exact absurd hk not_mem_nil
  | @scope late lo hi last body o h hlast ih =>
    have hk' : k ∈ keys last body := by simpa only [keys, Shape.keys, append_nil] using hk
    obtain ⟨hfirst, hle, hend⟩ := ih le_rfl hk'
    exact ⟨hfirst, by omega, .inl (by omega)⟩
  | seq ha hclosed hb hlo hhi iha ihb =>
    rw [keys_append] at hk
    rcases mem_append.mp hk with hk | hk
    · exact (iha (by omega) hk).mono le_rfl hhi (by rw [binds_append]; exact subset_append_left _ _)
    · exact (ihb he hk).mono hlo le_rfl (by rw [binds_append]; exact subset_append_right _ _)
  | swap ha hclosed hb hclosed' hlo hhi iha ihb =>
    rw [keys_append] at hk
    rcases mem_append.mp hk with hk | hk
    · exact (iha he hk).mono hlo le_rfl (by rw [binds_append]; exact subset_append_left _ _)
    · exact (ihb (by omega) hk).mono le_rfl hhi (by rw [binds_append]; exact subset_append_right _ _)
  | @bind lo m hi b bs o hlo hm hhi h ih =>
    have hbinds : binds e (b.bind :: bs) = b.key e :: binds e bs := rfl
    rcases mem_cons.mp hk with rfl | hk
    · exact Spot.within hlo hhi he (by rw [hbinds]; exact mem_cons_self)
    · exact (ih he hk).mono (by omega) le_rfl (by rw [hbinds]; exact subset_cons_self _ _)
  | @late lo m hi body rest bs o o' h hclosed hstarts hsorted hrest hlo hhi ih ihrest =>
    rw [keys_append, keys_append, keys_map] at hk
    rcases mem_append.mp hk with hk | hk
    · rcases mem_append.mp hk with hk | hk
      · have hw := ih (by omega) hk
        have := hw.closed hclosed
        exact ⟨hw.1, hw.2.1.trans hhi, .inl (by omega)⟩
      · obtain ⟨b, hb, rfl⟩ := mem_map.mp hk
        obtain ⟨h₁, h₂⟩ := hstarts b hb
        refine Spot.within h₁.le (by omega) he ?_
        rw [binds_append, binds_append, binds_map]
        exact mem_append_left _ (mem_append_right _ (mem_map_of_mem hb))
    · exact (ihrest he hk).mono hlo le_rfl (by rw [binds_append]; exact subset_append_right _ _)
  | @early late lo m hi rest bs us o hstarts hsorted huses hrest hlate hlo hhi ih =>
    rw [keys_append, keys_append, keys_map, keys_uses, append_nil] at hk
    rcases mem_append.mp hk with hk | hk
    · obtain ⟨b, hb, rfl⟩ := mem_map.mp hk
      obtain ⟨h₁, h₂⟩ := hstarts b hb
      refine Spot.within h₁ (by omega) he ?_
      rw [binds_append, binds_append, binds_map]
      exact mem_append_left _ (mem_append_left _ (mem_map_of_mem hb))
    · exact (ih he hk).mono hlo le_rfl (by rw [binds_append]; exact subset_append_right _ _)
  | weaken h hlo hhi ih => exact (ih (by omega) hk).mono hlo hhi (List.Subset.refl _)
  | marked h ho ih => exact ih he hk

variable {i : ℕ}

theorem Fits.over_ids {late : List (N × ℕ)} (h : Fits late lo hi ts o) (hi' : i ∈ o) : i ∈ ids ts := by
  induction h with
  | nil => exact absurd hi' not_mem_nil
  | @use late lo hi u =>
    split at hi'
    · exact hi'
    · cases hi'
  | scope h hlast ih => simpa only [ids, Shape.ids, append_nil] using ih hi'
  | seq ha hclosed hb hlo hhi iha ihb =>
    rw [ids_append]
    exact mem_append.mpr ((mem_append.mp hi').imp iha ihb)
  | swap ha hclosed hb hclosed' hlo hhi iha ihb =>
    rw [ids_append]
    exact mem_append.mpr ((mem_append.mp hi').imp iha ihb)
  | bind hlo hm hhi h ih => exact ih hi'
  | late h hclosed hstarts hsorted hrest hlo hhi ih ihrest =>
    rw [ids_append, ids_append, ids_map, append_nil]
    exact mem_append.mpr ((mem_append.mp hi').imp ih ihrest)
  | early hstarts hsorted huses hrest hlate hlo hhi ih =>
    rw [ids_append, ids_append, ids_map, ids_uses, nil_append]
    rcases mem_append.mp hi' with hi' | hi'
    · exact mem_append_left _ ((filter_sublist.map _).subset hi')
    · exact mem_append_right _ (ih hi')
  | weaken h hlo hhi ih => exact ih hi'
  | marked h ho ih => exact ih ((ho _).mpr hi')

/-! ## One use -/

/-- How the bindings stand to a use at `p`: `env` are open, `past` were made before it and `future`
are made after it. -/
structure At (late : List (N × ℕ)) (p : ℕ) (env past future : List (Key N)) : Prop where
  order : env.reverse.Sublist past
  stops : ∀ k ∈ env, p ≤ k.last
  sorted : env.Pairwise fun a b => b.first ≤ a.first
  gone : ∀ k ∈ past, k ∉ env → ¬ k.Covers p
  ahead : ∀ k ∈ future, k.Covers p → (k.name, k.first) ∈ late ∨ ∃ v ∈ env, v.name = k.name ∧ k.first < v.first
  lates : ∀ y ∈ late, y.2 ≤ p →
    (∃ k ∈ future, k.name = y.1 ∧ k.first = y.2 ∧ k.Covers p) ∧ ∀ v ∈ env, v.name = y.1 → v.first < y.2

variable {x : N}

theorem see_spec {v : Key N} (hsorted : env.Pairwise fun a b => b.first ≤ a.first) (h : see env x = some v) :
    v ∈ env ∧ v.name = x ∧ ∀ w ∈ env, w.name = x → w.first ≤ v.first := by
  obtain ⟨hname, as, bs, rfl, has⟩ := find?_eq_some_iff_append.mp h
  refine ⟨by simp, by simpa using hname, fun w hw hwname => ?_⟩
  rcases mem_append.mp hw with hw | hw
  · exact absurd hwname (by simpa using has w hw)
  · rcases mem_cons.mp hw with rfl | hw
    · exact le_rfl
    · exact (pairwise_cons.mp (pairwise_append.mp hsorted).2.1).1 w hw

theorem see_none (h : see env x = none) : ∀ v ∈ env, v.name ≠ x := by
  intro v hv
  simpa using find?_eq_none.mp h v hv

/-- Whether a use of `x` at `p` is one for which scopes and intervals differ. -/
def Differs (late : List (N × ℕ)) (env : List (Key N)) (p : ℕ) (x : N) : Prop :=
  Over late p x ∨ ∃ k ∈ env, k.name = x ∧ p < k.first

variable {p : ℕ} {past future ks : List (Key N)}

theorem At.agrees {late : List (N × ℕ)} (h : At late p env past future) (hnodup : (past ++ future).Nodup)
    (hx : ¬ Differs late env p x) :
    pick (past ++ future) p x = see env x := by
  have hfuture : ∀ w ∈ future, w.name = x → w.Covers p → ∃ v ∈ env, v.name = x ∧ w.first < v.first := by
    intro w hw hname hcovers
    rcases h.ahead w hw hcovers with hlate | ⟨v, hv, hvname, hlt⟩
    · exact absurd (.inl ⟨_, hlate, hname, hcovers.1⟩) hx
    · exact ⟨v, hv, hvname.trans hname, hlt⟩
  cases hsee : see env x with
  | none =>
    have hnone : ∀ v ∈ env, v.name ≠ x := see_none hsee
    refine pick_none fun k hk hname => ?_
    rcases mem_append.mp hk with hk | hk
    · exact h.gone k hk fun hmem => hnone k hmem hname
    · intro hcovers
      obtain ⟨v, hv, hvname, -⟩ := hfuture k hk hname hcovers
      exact hnone v hv hvname
  | some v =>
    obtain ⟨hmem, hname, hmax⟩ := see_spec h.sorted hsee
    have hcovers : v.Covers p := by
      refine ⟨?_, h.stops v hmem⟩
      by_contra hlt
      exact hx (.inr ⟨v, hmem, hname, by omega⟩)
    -- Of its name, the open ones that are not `v` were made before it.
    obtain ⟨-, as, bs, henv, has⟩ := find?_eq_some_iff_append.mp hsee
    have horder : (bs.reverse ++ v :: as.reverse).Sublist past := by
      have := h.order
      rw [henv] at this
      simpa using this
    obtain ⟨pre, rest, hpast, hpre, hrest⟩ := append_sublist_iff.mp horder
    obtain ⟨mid, post, hrest', hmid, hpost⟩ := cons_sublist_iff.mp hrest
    obtain ⟨m₁, m₂, rfl⟩ := append_of_mem hmid
    have hsplit : past ++ future = (pre ++ m₁) ++ v :: (m₂ ++ post ++ future) := by
      rw [hpast, hrest']
      simp
    rw [hsplit, ← hname]
    rw [hsplit] at hnodup
    have hopen : ∀ w ∈ past, w.name = x → w.Covers p → w ∈ env := by
      intro w hw _ hwcovers
      by_contra hout
      exact h.gone w hw hout hwcovers
    refine pick_eq hcovers (fun w hw hwname hwcovers => ?_) fun w hw hwname hwcovers => ?_
    · refine hmax w (hopen w ?_ (hwname.trans hname) hwcovers) (hwname.trans hname)
      rw [hpast, hrest']
      rcases mem_append.mp hw with hw | hw
      · exact mem_append_left _ hw
      · exact mem_append_right _ (mem_append_left _ (mem_append_left _ hw))
    · rcases mem_append.mp hw with hw | hw
      · -- Made after `v` and before the use: it would be open, and before `v` in `env`.
        exfalso
        have hpast' : w ∈ past := by
          rw [hpast, hrest']
          rcases mem_append.mp hw with hw | hw
          · exact mem_append_right _ (mem_append_left _ (mem_append_right _ (mem_cons_of_mem _ hw)))
          · exact mem_append_right _ (mem_append_right _ hw)
        have hwenv : w ∈ env := hopen w hpast' (hwname.trans hname) hwcovers
        have hdisjoint := disjoint_of_nodup_append hnodup
        rw [henv] at hwenv
        rcases mem_append.mp hwenv with hwenv | hwenv
        · exact absurd (hwname.trans hname) (by simpa using has w hwenv)
        · rcases mem_cons.mp hwenv with rfl | hwenv
          · have hv := (nodup_cons.mp (List.Nodup.of_append_right hnodup)).1
            exact hv (mem_append_left _ hw)
          · exact hdisjoint (mem_append_left _ (hpre.subset (mem_reverse.mpr hwenv)))
              (mem_cons_of_mem _ (mem_append_left _ hw))
      · obtain ⟨v', hv', hvname', hlt⟩ := hfuture w hw (hwname.trans hname) hwcovers
        exact hlt.trans_le (hmax v' hv' hvname')

theorem At.differs {late : List (N × ℕ)} (h : At late p env past future) (hx : Differs late env p x) {v : Key N}
    (hv : see env x = some v) :
    pick (past ++ future) p x ≠ some v := by
  intro hpick
  obtain ⟨hmem, hname, hmax⟩ := see_spec h.sorted hv
  rcases hx with ⟨y, hy, hyname, hle⟩ | ⟨k, hk, hkname, hlt⟩
  · obtain ⟨⟨k, hk, hkname, hkfirst, hcovers⟩, hbefore⟩ := h.lates y hy hle
    have h₁ : k.first ≤ v.first := le_pick hpick (mem_append_right _ hk) (hkname.trans hyname) hcovers
    have h₂ : v.first < y.2 := hbefore v hmem (hname.trans hyname.symm)
    omega
  · have h₁ : k.first ≤ v.first := hmax k hk hkname
    have h₂ : v.first ≤ p := (pick_covers hpick).1
    omega

/-! ## Bindings made around a use -/

omit [DecidableEq N] in
theorem At.more_future {late : List (N × ℕ)} (h : At late p env past future)
    (hks : ∀ k ∈ ks, ¬ k.Covers p) : At late p env past (ks ++ future) where
  order := h.order
  stops := h.stops
  sorted := h.sorted
  gone := h.gone
  ahead k hk hcovers := by
    rcases mem_append.mp hk with hk | hk
    · exact absurd hcovers (hks k hk)
    · exact h.ahead k hk hcovers
  lates y hy hle := by
    obtain ⟨⟨k, hk, hk'⟩, hbefore⟩ := h.lates y hy hle
    exact ⟨⟨k, mem_append_right _ hk, hk'⟩, hbefore⟩

omit [DecidableEq N] in
theorem At.more_past {late : List (N × ℕ)} (h : At late p env past future)
    (hks : ∀ k ∈ ks, ¬ k.Covers p) : At late p env (past ++ ks) future where
  order := h.order.trans (sublist_append_left _ _)
  stops := h.stops
  sorted := h.sorted
  gone k hk hout := by
    rcases mem_append.mp hk with hk | hk
    · exact h.gone k hk hout
    · exact hks k hk
  ahead := h.ahead
  lates := h.lates

theorem At.bound {late : List (N × ℕ)} {bs : List (Spot N)} (h : At late p env past future)
    (henv : ∀ k ∈ env, k.first ≤ lo) (hstarts : ∀ b ∈ bs, lo ≤ b.at_)
    (hsorted : bs.Pairwise fun a b => a.at_ ≤ b.at_) (hlate : ∀ y ∈ late, y.2 < lo ∨ p < y.2) (he : p ≤ e) :
    At (unbound bs late) p ((bs.map (Spot.key e)).reverse ++ env) (past ++ bs.map (Spot.key e)) future where
  order := by
    rw [reverse_append, reverse_reverse]
    exact h.order.append (List.Sublist.refl _)
  stops k hk := by
    rcases mem_append.mp hk with hk | hk
    · obtain ⟨b, -, rfl⟩ := mem_map.mp (mem_reverse.mp hk)
      exact he.trans (le_max_right _ _)
    · exact h.stops k hk
  sorted := by
    refine pairwise_append.mpr ⟨?_, h.sorted, fun a ha b hb => ?_⟩
    · rwa [pairwise_reverse, pairwise_map]
    · obtain ⟨c, hc, rfl⟩ := mem_map.mp (mem_reverse.mp ha)
      exact (henv b hb).trans (hstarts c hc)
  gone k hk hout := by
    rcases mem_append.mp hk with hk | hk
    · exact h.gone k hk fun hmem => hout (mem_append_right _ hmem)
    · exact absurd (mem_append_left _ (mem_reverse.mpr hk)) hout
  ahead k hk hcovers := by
    rcases h.ahead k hk hcovers with hmem | ⟨v, hv, hname, hlt⟩
    · by_cases hb : ∃ b ∈ bs, b.name = k.name
      · -- The name is hidden by one that starts later.
        obtain ⟨b, hb, hname⟩ := hb
        refine .inr ⟨b.key e, mem_append_left _ (mem_reverse.mpr (mem_map_of_mem hb)), hname, ?_⟩
        have hle : lo ≤ b.at_ := hstarts b hb
        rcases hlate _ hmem with hlt | hlt
        · exact hlt.trans_le hle
        · exact absurd hcovers.1 (by omega)
      · exact .inl (List.mem_filter.mpr ⟨hmem, by simpa using hb⟩)
    · exact .inr ⟨v, mem_append_right _ hv, hname, hlt⟩
  lates y hy hle := by
    obtain ⟨hy, hout⟩ := List.mem_filter.mp hy
    obtain ⟨hfuture, hbefore⟩ := h.lates y hy hle
    refine ⟨hfuture, fun v hv hname => ?_⟩
    rcases mem_append.mp hv with hv | hv
    · obtain ⟨b, hb, rfl⟩ := mem_map.mp (mem_reverse.mp hv)
      have hout : ∀ b ∈ bs, b.name ≠ y.1 := by simpa using hout
      exact absurd hname (hout b hb)
    · exact hbefore v hv hname

omit [DecidableEq N] in
theorem At.late {bs : List (Spot N)} (h : At [] p env past future) (henv : ∀ k ∈ env, k.first ≤ lo)
    (hstarts : ∀ b ∈ bs, lo < b.at_) (he : p ≤ e) :
    At (bs.map fun b => (b.name, b.at_)) p env past (bs.map (Spot.key e) ++ future) where
  order := h.order
  stops := h.stops
  sorted := h.sorted
  gone := h.gone
  ahead k hk hcovers := by
    rcases mem_append.mp hk with hk | hk
    · obtain ⟨b, hb, rfl⟩ := mem_map.mp hk
      exact .inl (mem_map.mpr ⟨b, hb, rfl⟩)
    · exact (h.ahead k hk hcovers).imp_left nofun
  lates y hy hle := by
    obtain ⟨b, hb, rfl⟩ := mem_map.mp hy
    refine ⟨⟨b.key e, mem_append_left _ (mem_map_of_mem hb), rfl, rfl, hle, ?_⟩, fun v hv _ => ?_⟩
    · exact he.trans (le_max_right _ _)
    · exact (henv v hv).trans_lt (hstarts b hb)

/-! ## Every use of a layout -/

/-- How the bindings stand to the uses between `lo` and `hi`. -/
def Around (late : List (N × ℕ)) (lo hi : ℕ) (env past future : List (Key N)) : Prop :=
  (∀ k ∈ env, k.first ≤ lo) ∧ ∀ p, lo ≤ p → p ≤ hi → At late p env past future

omit [DecidableEq N] in
theorem Around.mono {late : List (N × ℕ)} {lo' hi' : ℕ} (h : Around late lo hi env past future) (hlo : lo ≤ lo')
    (hhi : hi' ≤ hi) : Around late lo' hi' env past future :=
  ⟨fun k hk => (h.1 k hk).trans hlo, fun p h₁ h₂ => h.2 p (hlo.trans h₁) (h₂.trans hhi)⟩

omit [DecidableEq N] in
theorem Around.more_future {late : List (N × ℕ)}
    (h : Around late lo hi env past future) (hks : ∀ k ∈ ks, ∀ p, lo ≤ p → p ≤ hi → ¬ k.Covers p) :
    Around late lo hi env past (ks ++ future) :=
  ⟨h.1, fun p h₁ h₂ => (h.2 p h₁ h₂).more_future fun k hk => hks k hk p h₁ h₂⟩

omit [DecidableEq N] in
theorem Around.more_past {late : List (N × ℕ)}
    (h : Around late lo hi env past future) (hks : ∀ k ∈ ks, ∀ p, lo ≤ p → p ≤ hi → ¬ k.Covers p) :
    Around late lo hi env (past ++ ks) future :=
  ⟨h.1, fun p h₁ h₂ => (h.2 p h₁ h₂).more_past fun k hk => hks k hk p h₁ h₂⟩

theorem Around.bound {late : List (N × ℕ)} {m : ℕ} {bs : List (Spot N)} (h : Around late lo hi env past future)
    (hstarts : ∀ b ∈ bs, lo ≤ b.at_ ∧ b.at_ ≤ m) (hsorted : bs.Pairwise fun a b => a.at_ ≤ b.at_)
    (hlate : ∀ y ∈ late, y.2 < lo ∨ hi < y.2) (hlo : lo ≤ m) (he : hi ≤ e) :
    Around (unbound bs late) m hi ((bs.map (Spot.key e)).reverse ++ env) (past ++ bs.map (Spot.key e)) future := by
  refine ⟨fun k hk => ?_, fun p h₁ h₂ => ?_⟩
  · rcases mem_append.mp hk with hk | hk
    · obtain ⟨b, hb, rfl⟩ := mem_map.mp (mem_reverse.mp hk)
      exact (hstarts b hb).2
    · exact (h.1 k hk).trans hlo
  · exact (h.2 p (hlo.trans h₁) h₂).bound h.1 (fun b hb => (hstarts b hb).1) hsorted
      (fun y hy => (hlate y hy).imp_right (by omega)) (h₂.trans he)

/-- What is picked at a use is what it sees, but for the uses of `o`. -/
def Exact (ks : List (Key N)) (o : List ℕ) (s : Site N) : Prop :=
  (s.id ∉ o → pick ks s.place s.name = s.seen) ∧ (s.id ∈ o → ∀ v, s.seen = some v → pick ks s.place s.name ≠ some v)

theorem Exact.congr {ks : List (Key N)} {o o' : List ℕ} {s : Site N} (h : Exact ks o s) (ho : s.id ∈ o ↔ s.id ∈ o') :
    Exact ks o' s :=
  ⟨fun hs => h.1 (ho.not.mpr hs), fun hs => h.2 (ho.mpr hs)⟩

theorem At.exact {late : List (N × ℕ)} (h : At late p env past future) (hnodup : (past ++ future).Nodup)
    (ho : i ∈ o ↔ Differs late env p x) :
    Exact (past ++ future) o ⟨p, x, i, see env x⟩ :=
  ⟨fun hs => h.agrees hnodup (ho.not.mp hs), fun hs _ hv => h.differs (ho.mp hs) hv⟩

omit [DecidableEq N] in
theorem mem_left {o' : List ℕ} (hids : (ids (as ++ bs)).Nodup) (ho' : ∀ i ∈ o', i ∈ ids bs) (hi : i ∈ ids as) :
    i ∈ o ↔ i ∈ o ++ o' := by
  rw [ids_append] at hids
  refine ⟨mem_append_left _, fun h => (mem_append.mp h).resolve_right fun h => ?_⟩
  exact disjoint_of_nodup_append hids hi (ho' i h)

omit [DecidableEq N] in
theorem mem_right {o' : List ℕ} (hids : (ids (as ++ bs)).Nodup) (ho : ∀ i ∈ o, i ∈ ids as) (hi : i ∈ ids bs) :
    i ∈ o' ↔ i ∈ o ++ o' := by
  rw [ids_append] at hids
  refine ⟨mem_append_right _, fun h => (mem_append.mp h).resolve_left fun h => ?_⟩
  exact disjoint_of_nodup_append hids (ho i h) hi

theorem Fits.exact {late : List (N × ℕ)} {lo hi : ℕ} {ts : List (Shape N)} {o : List ℕ} (h : Fits late lo hi ts o)
    (hids : (ids ts).Nodup) {e : ℕ} {env past future : List (Key N)} (he : hi ≤ e)
    (haround : Around late lo hi env past future) (hnodup : (past ++ keys e ts ++ future).Nodup) :
    ∀ s ∈ sites e env ts, Exact (past ++ keys e ts ++ future) o s := by
  induction h generalizing e env past future with
  | nil => exact nofun
  | @use late lo hi u h₁ h₂ =>
    intro s hs
    rw [mem_singleton.mp hs]
    simp only [keys, Spot.use, Shape.keys, append_nil] at hnodup ⊢
    refine (haround.2 u.at_ h₁ h₂).exact hnodup ?_
    have hnone : ¬ ∃ k ∈ env, k.name = u.name ∧ u.at_ < k.first := by
      rintro ⟨k, hk, -, hlt⟩
      have := haround.1 k hk
      omega
    rw [Differs, or_iff_left hnone]
    split
    · next hover => exact ⟨fun _ => hover, fun _ => mem_singleton_self _⟩
    · next hover => exact ⟨nofun, fun h => absurd h hover⟩
  | @scope late lo hi last body o h hlast ih =>
    intro s hs
    simp only [sites, Shape.sites, append_nil] at hs
    simp only [ids, Shape.ids, append_nil] at hids
    simp only [keys, Shape.keys, append_nil] at hnodup ⊢
    exact ih hids le_rfl (haround.mono le_rfl hlast) hnodup s hs
  | @seq late lo m hi as bs o o' ha hclosed hb hlo hhi iha ihb =>
    intro s hs
    have hids' := hids
    rw [ids_append] at hids'
    rw [sites_append, hclosed e] at hs
    have hkeys : past ++ keys e (as ++ bs) ++ future = past ++ keys e as ++ (keys e bs ++ future) := by simp
    rcases mem_append.mp hs with hs | hs
    · refine Exact.congr ?_ (mem_left hids (fun i => hb.over_ids) (site_id hs))
      rw [hkeys] at hnodup ⊢
      refine iha hids'.of_append_left (by omega) ?_ hnodup s hs
      refine (haround.mono le_rfl hhi).more_future fun k hk p _ h₂ hcovers => ?_
      have := (hb.within he hk).1
      have := hcovers.1
      omega
    · refine Exact.congr ?_ (mem_right hids (fun i => ha.over_ids) (site_id hs))
      have hkeys' : past ++ keys e (as ++ bs) ++ future = past ++ keys e as ++ keys e bs ++ future := by simp
      rw [hkeys'] at hnodup ⊢
      refine ihb hids'.of_append_right he ?_ hnodup s hs
      refine (haround.mono hlo le_rfl).more_past fun k hk p h₁ _ hcovers => ?_
      have := (ha.within (by omega) hk).closed hclosed
      have := hcovers.2
      omega
  | @swap late lo m hi as bs o o' ha hclosed hb hclosed' hlo hhi iha ihb =>
    intro s hs
    have hids' := hids
    rw [ids_append] at hids'
    rw [sites_append, hclosed e] at hs
    rcases mem_append.mp hs with hs | hs
    · refine Exact.congr ?_ (mem_left hids (fun i => hb.over_ids) (site_id hs))
      have hkeys : past ++ keys e (as ++ bs) ++ future = past ++ keys e as ++ (keys e bs ++ future) := by simp
      rw [hkeys] at hnodup ⊢
      refine iha hids'.of_append_left he ?_ hnodup s hs
      refine (haround.mono hlo le_rfl).more_future fun k hk p h₁ _ hcovers => ?_
      have := (hb.within (by omega) hk).closed hclosed'
      have := hcovers.2
      omega
    · refine Exact.congr ?_ (mem_right hids (fun i => ha.over_ids) (site_id hs))
      have hkeys : past ++ keys e (as ++ bs) ++ future = past ++ keys e as ++ keys e bs ++ future := by simp
      rw [hkeys] at hnodup ⊢
      refine ihb hids'.of_append_right (by omega) ?_ hnodup s hs
      refine (haround.mono le_rfl hhi).more_past fun k hk p _ h₂ hcovers => ?_
      have := (ha.within he hk).1
      have := hcovers.1
      omega
  | @bind lo m hi b bs o hlo hm hhi h ih =>
    intro s hs
    have hkeys : past ++ keys e (b.bind :: bs) ++ future = past ++ [b.key e] ++ keys e bs ++ future := by
      simp [keys, Shape.keys, Spot.bind, Spot.key]
    rw [hkeys] at hnodup ⊢
    refine ih hids he ?_ hnodup s hs
    have hstarts : ∀ b' ∈ [b], lo ≤ b'.at_ ∧ b'.at_ ≤ m := by simpa using ⟨hlo, hm⟩
    exact haround.bound hstarts (pairwise_singleton _ _) nofun (by omega) he
  | @late lo m hi body rest bs o o' h hclosed hstarts hsorted hrest hlo hhi ih ihrest =>
    intro s hs
    have hids' := hids
    rw [ids_append, ids_append, ids_map, append_nil] at hids'
    rw [sites_append, sites_append, sites_map, append_nil, binds_append, hclosed e, binds_map, nil_append] at hs
    have hbody : ∀ k ∈ keys e body, k.last ≤ m := fun k hk => (h.within (by omega) hk).closed hclosed
    rcases mem_append.mp hs with hs | hs
    · have hleft : s.id ∈ o ↔ s.id ∈ o ++ o' := by
        refine mem_left hids (fun i => hrest.over_ids) ?_
        rw [ids_append]
        exact mem_append_left _ (site_id hs)
      refine Exact.congr ?_ hleft
      have hkeys : past ++ keys e (body ++ bs.map Spot.bind ++ rest) ++ future =
          past ++ keys e body ++ (bs.map (Spot.key e) ++ (keys e rest ++ future)) := by
        simp [keys_map]
      rw [hkeys] at hnodup ⊢
      refine ih hids'.of_append_left (by omega) ?_ hnodup s hs
      refine ⟨haround.1, fun p h₁ h₂ => ?_⟩
      refine At.late ?_ haround.1 (fun b hb => (hstarts b hb).1) (by omega)
      refine (haround.2 p h₁ (by omega)).more_future fun k hk hcovers => ?_
      have := (hrest.within he hk).1
      have := hcovers.1
      omega
    · have hright : s.id ∈ o' ↔ s.id ∈ o ++ o' := by
        refine mem_right hids (fun i hi => ?_) (site_id hs)
        rw [ids_append]
        exact mem_append_left _ (h.over_ids hi)
      refine Exact.congr ?_ hright
      have hkeys : past ++ keys e (body ++ bs.map Spot.bind ++ rest) ++ future =
          past ++ keys e body ++ bs.map (Spot.key e) ++ keys e rest ++ future := by
        simp [keys_map]
      rw [hkeys] at hnodup ⊢
      refine ihrest hids'.of_append_right he ?_ hnodup s hs
      refine ⟨fun k hk => ?_, fun p h₁ h₂ => ?_⟩
      · rcases mem_append.mp hk with hk | hk
        · obtain ⟨b, hb, rfl⟩ := mem_map.mp (mem_reverse.mp hk)
          exact (hstarts b hb).2.trans (Nat.le_succ _)
        · exact (haround.1 k hk).trans hlo
      · have hat : At [] p env (past ++ keys e body) future := by
          refine (haround.2 p (hlo.trans h₁) h₂).more_past fun k hk hcovers => ?_
          have := hbody k hk
          have := hcovers.2
          omega
        exact hat.bound haround.1 (fun b hb => (hstarts b hb).1.le) hsorted nofun (h₂.trans he)
  | @early late lo m hi rest bs us o hstarts hsorted huses hrest hlate hlo hhi ih =>
    intro s hs
    have hids' := hids
    rw [ids_append, ids_append, ids_map, nil_append] at hids'
    rw [sites_append, sites_append, sites_map, nil_append, binds_append, binds_map, binds_uses, append_nil] at hs
    have hkeys : past ++ keys e (bs.map Spot.bind ++ us.map Spot.use ++ rest) ++ future =
        past ++ bs.map (Spot.key e) ++ (keys e rest ++ future) := by
      simp [keys_map, keys_uses]
    rcases mem_append.mp hs with hs | hs
    · -- A use among the names: those bound after its place are open all the same.
      have hleft : s.id ∈ (us.filter fun u => Ahead bs late u).map Spot.id ↔
          s.id ∈ (us.filter fun u => Ahead bs late u).map Spot.id ++ o := by
        refine mem_left hids (fun i => hrest.over_ids) ?_
        rw [ids_append]
        exact mem_append_right _ (site_id hs)
      refine Exact.congr ?_ hleft
      obtain ⟨u, hu, rfl⟩ := mem_sites_uses hs
      obtain ⟨h₁, h₂⟩ := huses u hu
      rw [hkeys] at hnodup ⊢
      have hat : At (unbound bs late) u.at_ ((bs.map (Spot.key e)).reverse ++ env) (past ++ bs.map (Spot.key e))
          (keys e rest ++ future) := by
        refine (At.bound (haround.2 u.at_ h₁ (by omega)) haround.1 (fun b hb => (hstarts b hb).1) hsorted
          (fun y hy => (hlate y hy).imp_right (by omega)) (by omega)).more_future fun k hk hcovers => ?_
        have := (hrest.within he hk).1
        have := hcovers.1
        omega
      refine hat.exact hnodup ?_
      rw [ids_uses] at hids'
      have hover : u.id ∈ (us.filter fun u => Ahead bs late u).map Spot.id ↔ Ahead bs late u := by
        refine ⟨fun h => ?_, fun h => mem_map_of_mem (List.mem_filter.mpr ⟨hu, by simpa using h⟩)⟩
        obtain ⟨u', hu', hid⟩ := mem_map.mp h
        obtain ⟨hmem, hahead⟩ := List.mem_filter.mp hu'
        have : u' = u := inj_on_of_nodup_map hids'.of_append_left hmem hu hid
        exact this ▸ by simpa using hahead
      rw [hover, Differs, Ahead]
      refine or_congr_right ⟨fun ⟨b, hb, hname, hlt⟩ => ?_, fun ⟨k, hk, hname, hlt⟩ => ?_⟩
      · exact ⟨b.key e, mem_append_left _ (mem_reverse.mpr (mem_map_of_mem hb)), hname, hlt⟩
      · rcases mem_append.mp hk with hk | hk
        · obtain ⟨b, hb, rfl⟩ := mem_map.mp (mem_reverse.mp hk)
          exact ⟨b, hb, hname, hlt⟩
        · have := haround.1 k hk
          omega
    · have hright : s.id ∈ o ↔ s.id ∈ (us.filter fun u => Ahead bs late u).map Spot.id ++ o := by
        refine mem_right hids (fun i hi => ?_) (site_id hs)
        rw [ids_append, ids_map, nil_append, ids_uses]
        exact (filter_sublist.map _).subset hi
      refine Exact.congr ?_ hright
      have hkeys' : past ++ keys e (bs.map Spot.bind ++ us.map Spot.use ++ rest) ++ future =
          past ++ bs.map (Spot.key e) ++ keys e rest ++ future := by
        simp [keys_map, keys_uses]
      rw [hkeys'] at hnodup ⊢
      refine ih hids'.of_append_right he ?_ hnodup s hs
      exact haround.bound (fun b hb => ⟨(hstarts b hb).1, (hstarts b hb).2.trans (Nat.le_succ _)⟩) hsorted hlate hlo he
  | weaken h hlo hhi ih =>
    exact ih hids (by omega) (haround.mono hlo hhi) hnodup
  | marked h ho ih => exact fun s hs => (ih hids he haround hnodup s hs).congr (ho _)

end Cosmic.Base.Lexical
