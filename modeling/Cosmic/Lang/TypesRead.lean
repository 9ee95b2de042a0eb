/-
What reading does to a store.

A reader that answers has taken steps. One that raises has taken steps too, and has left open what
it was reading; `attempt` takes all of it back. The levels of readers are an induction: what a
loader asks for is read by the readers of the level below, so the spec of the one is used for the
other.
-/
import Cosmic.Lang.TypesUndo

set_option autoImplicit false

namespace Cosmic.Types

open Cosmic.Base List
open Cosmic.Base.Raise

/-! ## Steps beside what a reader notes -/

/-- The store `s` with what a reader notes of itself as it is in `s₀`. -/
def Store.noting (s₀ s : Store) : Store :=
  { s with building := s₀.building, building_order := s₀.building_order, depth := s₀.depth }

/-- The store `s` when `n` decodes are open. -/
def Store.closing (n : ℕ) (s : Store) : Store :=
  { s with transactions := n, journal := if n = 0 then [] else s.journal }

/-- A change to a store that the steps of an open decode do not see. -/
structure Frame (φ : Store → Store) : Prop where
  count : ∀ s, (φ s).count = s.count
  types : ∀ s, (φ s).types = s.types
  interned : ∀ s, (φ s).interned = s.interned
  decls : ∀ s, (φ s).decls = s.decls
  declared : ∀ s, (φ s).declared = s.declared
  pending : ∀ s, (φ s).pending = s.pending
  add : ∀ o s form, φ (s.add o form) = (φ s).add o form
  add_decl : ∀ s key decl, φ (s.add_decl key decl) = (φ s).add_decl key decl
  set_decl : ∀ s d f, φ (s.set_decl d f) = (φ s).set_decl d f
  add_use : ∀ s key use, 0 < s.transactions → φ (s.add_use key use) = (φ s).add_use key use
  note : ∀ s d decl, 0 < s.transactions → φ (s.note d decl) = (φ s).note d decl
  settle : ∀ s key, 0 < s.transactions → φ (s.settle key) = (φ s).settle key

theorem noting_frame (s₀ : Store) : Frame (Store.noting s₀) where
  count _ := rfl
  types _ := rfl
  interned _ := rfl
  decls _ := rfl
  declared _ := rfl
  pending _ := rfl
  add _ _ _ := rfl
  add_decl _ _ _ := rfl
  set_decl _ _ _ := rfl
  add_use _ _ _ _ := rfl
  note _ _ _ _ := rfl
  settle s key _ := by
    have hpending : (Store.noting s₀ s).pending key = s.pending key := rfl
    unfold Store.settle
    rw [hpending]
    cases s.pending key with
    | none => rfl
    | some list => rfl

theorem closing_frame (n : ℕ) : Frame (Store.closing n) := by
  -- an entry in the journal, while a decode is open and when `n` are
  have hlog : ∀ (s : Store) (u : Undo), 0 < s.transactions →
      (if n = 0 then [] else if s.transactions > 0 then s.journal ++ [u] else s.journal) =
        if n > 0 then (if n = 0 then [] else s.journal) ++ [u] else if n = 0 then [] else s.journal := by
    intro s u ht
    rw [if_pos ht]
    by_cases hn : n = 0
    · rw [if_pos hn, if_neg (by omega), if_pos hn]
    · rw [if_neg hn, if_pos (by omega), if_neg hn]
  constructor
  · exact fun _ => rfl
  · exact fun _ => rfl
  · exact fun _ => rfl
  · exact fun _ => rfl
  · exact fun _ => rfl
  · exact fun _ => rfl
  · exact fun _ _ _ => rfl
  · exact fun _ _ _ => rfl
  · exact fun _ _ _ => rfl
  · intro s key use ht
    unfold Store.add_use Store.closing
    rw [hlog s (.use key) ht]
  · intro s d decl ht
    unfold Store.note Store.closing
    dsimp only
    rw [hlog s (.decl d decl.arity) ht]
  · intro s key ht
    have hpending : (Store.closing n s).pending key = s.pending key := rfl
    unfold Store.settle
    rw [hpending]
    cases s.pending key with
    | none => rfl
    | some list =>
      unfold Store.closing
      rw [hlog s (.pending key list) ht]

section

variable {o : Outside} {s s' : Store} {φ : Store → Store}

theorem Frame.decl (hφ : Frame φ) (s : Store) (d : ℕ) : (φ s).decl d = s.decl d := by
  unfold Store.decl
  rw [hφ.decls]

theorem Frame.shows (hφ : Frame φ) (s : Store) : Shows s (φ s) := by
  constructor
  · intro t _
    unfold Store.cell
    rw [hφ.types]
  · intro d decl hd _
    exact ⟨decl, (hφ.decl s d).trans hd, rfl⟩

theorem Makes.frame (hφ : Frame φ) (hs : Sound o s) {form : Form ℕ} (h : Makes s form) : Makes (φ s) form := by
  have hshows := hφ.shows s
  constructor
  · rw [key_of_shows hshows h.names, hφ.interned]
    exact h.new
  · exact fun p hp => hshows.alive (h.parts p hp)
  · exact fun d hd => hshows.decl_alive (h.names d hd)
  · rw [measure_shows hshows h.parts]
    exact h.height
  · exact h.normal.shows hshows hs.types.closed h.parts

theorem Agree.frame (hφ : Frame φ) {decl : Decl} {n : ℕ} (h : Agree s decl n) : Agree (φ s) decl n := by
  intro use huse
  rw [hφ.pending] at huse
  have hargs : (φ s).use_args use = s.use_args use := by
    unfold Store.use_args Store.form Store.cell
    rw [hφ.types]
  rw [hargs]
  exact h use huse

theorem Step.frame (hφ : Frame φ) (h : Step o s s') (hs : Sound o s) (ht : 0 < s.transactions) :
    Step o (φ s) (φ s') := by
  cases h with
  | type h =>
    cases h with
    | type hm hk =>
      rw [hφ.add]
      refine .type (.type (hm.frame hφ hs) ?_)
      intro d args value heq
      obtain ⟨decl, hd, harity⟩ := hk d args value heq
      exact ⟨decl, (hφ.decl s d).trans hd, harity⟩
  | use hm hd harity =>
    rw [hφ.add_use (s.add o _) _ _ ht, hφ.add, ← hφ.count s]
    exact .use (hm.frame hφ hs) ((hφ.decl s _).trans hd) harity
  | decl hkey hdead hbody hproper =>
    rw [hφ.add_decl]
    exact .decl (by rw [hφ.declared]; exact hkey) hdead hbody hproper
  | arity hd hdead harity huses =>
    rw [hφ.set_decl, hφ.note _ _ _ ht]
    exact .arity ((hφ.decl s _).trans hd) hdead harity (huses.frame hφ)
  | @body d decl body hd hdead hnone harity huses hbodied =>
    have hset : (s.settle decl.key).transactions = s.transactions := by
      unfold Store.settle
      cases s.pending decl.key with
      | none => rfl
      | some list => rfl
    rw [hφ.set_decl, hφ.note _ _ _ (by omega), hφ.settle _ _ ht]
    exact .body ((hφ.decl s _).trans hd) hdead hnone harity (huses.frame hφ)
      (hbodied.shows (hφ.shows s) hs.types.closed)

theorem Steps.frame (hφ : Frame φ) (h : Steps o s s') (hs : Sound o s) (ht : 0 < s.transactions) :
    Steps o (φ s) (φ s') := by
  have hopen : ∀ {s''}, Steps o s s'' → s''.transactions = s.transactions := by
    intro s'' h
    induction h with
    | refl => rfl
    | tail _ h ih => exact h.transactions.trans ih
  induction h with
  | refl => exact .refl
  | tail h₁ h₂ ih =>
    apply ih.tail
    apply h₂.frame hφ (Steps.sound h₁ hs)
    rwa [hopen h₁]

theorem Steps.transactions (h : Steps o s s') : s'.transactions = s.transactions := by
  induction h with
  | refl => rfl
  | tail _ h ih => exact h.transactions.trans ih

theorem Step.noted (h : Step o s s') : Store.noting s s' = s' := by
  cases h with
  | type h =>
    cases h with
    | type _ _ => rfl
  | @body d decl body _ _ _ _ _ _ => rw [set_body_eq]; rfl
  | _ => rfl

theorem Steps.noted (h : Steps o s s') : Store.noting s s' = s' := by
  induction h with
  | refl => rfl
  | @tail s₁ s₂ h₁ h₂ ih =>
    rw [← h₂.noted, ← ih]
    rfl

end

/-! ## What a reader that raises leaves -/

/-- From `s` a reader has taken steps, and has left open what it was reading. -/
structure Reads (o : Outside) (s s' : Store) : Prop where
  steps : Steps o s (Store.noting s s')
  opened : ∃ opened, s'.building_order = s.building_order ++ opened ∧ (∀ path ∈ opened, s.building path = false) ∧
    ∀ path, s'.building path = (s.building path || opened.contains path)

section

variable {o : Outside} {s s' s'' : Store}

theorem Steps.reads (h : Steps o s s') : Reads o s s' := by
  have hn := h.noted
  refine ⟨?_, [], ?_, nofun, ?_⟩
  · rwa [hn]
  · rw [← hn, append_nil]
    rfl
  · intro path
    rw [← hn, contains_nil, Bool.or_false]
    rfl

theorem Reads.after (h : Steps o s s') (h' : Reads o s' s'') : Reads o s s'' := by
  obtain ⟨hsteps, opened, horder, hnew, hbuilding⟩ := h'
  have hn := h.noted
  have heq : Store.noting s s'' = Store.noting s' s'' := by
    rw [← hn]
    rfl
  have hb : s'.building = s.building := by rw [← hn]; rfl
  have ho : s'.building_order = s.building_order := by rw [← hn]; rfl
  refine ⟨?_, opened, ?_, ?_, ?_⟩
  · rw [heq]
    exact h.trans hsteps
  · rw [horder, ho]
  · rwa [← hb]
  · rwa [← hb]

instance store_track (o : Outside) : Track (Steps o) (Reads o) where
  refl _ := .refl
  trans h h' := h.trans h'
  bad_refl _ := Steps.reads .refl
  bad_trans := .after

/-- A change to a store that taking back does not see. -/
structure Beside (φ : Store → Store) : Prop where
  types : ∀ s, (φ s).types = s.types
  list : ∀ s, (φ s).list = s.list
  journal : ∀ s, (φ s).journal = s.journal
  undo : ∀ s e, (φ s).undo e = φ (s.undo e)
  drop_decl : ∀ s d, (φ s).drop_decl d = φ (s.drop_decl d)
  drop_type : ∀ s form, (φ s).drop_type form = φ (s.drop_type form)

theorem Beside.unmade {φ : Store → Store} (hφ : Beside φ) (s : Store) (mark : Mark) :
    (φ s).unmade mark = φ (s.unmade mark) := by
  have hundone : (φ s).undone mark = φ (s.undone mark) := by
    unfold Store.undone
    rw [hφ.journal]
    exact (foldl_frame (I := fun _ => True) (fun e _ x _ => hφ.undo x e) (fun _ _ _ _ => trivial) trivial).1
  have hundeclared : (φ s).undeclared mark = φ (s.undeclared mark) := by
    unfold Store.undeclared
    rw [hφ.list, hundone]
    exact (foldl_frame (I := fun _ => True) (fun d _ x _ => hφ.drop_decl x d) (fun _ _ _ _ => trivial) trivial).1
  unfold Store.unmade
  rw [hφ.types, hundeclared]
  exact (foldl_frame (I := fun _ => True) (fun form _ x _ => hφ.drop_type x form) (fun _ _ _ _ => trivial) trivial).1

theorem noting_beside (s₀ : Store) : Beside (Store.noting s₀) where
  types _ := rfl
  list _ := rfl
  journal _ := rfl
  undo s e := by
    cases e with
    | decl d arity => rfl
    | use key =>
      rw [undo_use, undo_use]
      rfl
    | pending key list => rfl
  drop_decl s d := by
    rw [drop_decl_eq, drop_decl_eq]
    rfl
  drop_type _ _ := rfl

/-- The store `s` with `n` decodes open and the journal it has. -/
def Store.counting (n : ℕ) (s : Store) : Store := { s with transactions := n }

theorem counting_beside (n : ℕ) : Beside (Store.counting n) where
  types _ := rfl
  list _ := rfl
  journal _ := rfl
  undo s e := by
    cases e with
    | decl d arity => rfl
    | use key =>
      rw [undo_use, undo_use]
      rfl
    | pending key list => rfl
  drop_decl s d := by
    rw [drop_decl_eq, drop_decl_eq]
    rfl
  drop_type _ _ := rfl

theorem Reads.roll_back (hs : Sound o s) (h : Reads o s s') (ht : 0 < s.transactions) : roll_back s' s.mark = s := by
  obtain ⟨hsteps, opened, horder, hnew, hbuilding⟩ := h
  have hw : Within s.mark s := ⟨hs.types.count.le, Nat.le_refl _, Nat.le_refl _, Nat.le_refl _⟩
  have hcut := (hsteps.cut hs hw ht).1
  have hsound := hsteps.sound hs
  have hmark := roll_back_mark hs.journal.made hs.types.count
  rw [roll_back_eq hs.journal.made] at hmark
  rw [hmark] at hcut
  have hlogged : Logged s' := hsound.journal.made
  rw [roll_back_eq hlogged]
  -- what the reader noted is all that differs from where its steps led
  have hunmade : s'.unmade s.mark = Store.noting s' (Store.noting s ((Store.noting s s').unmade s.mark)) := by
    rw [← (noting_beside s).unmade, ← (noting_beside s').unmade]
    rfl
  have hnoted : Store.noting s ((Store.noting s s').unmade s.mark) = (Store.noting s s').unmade s.mark := by
    rw [← (noting_beside s).unmade]
    rfl
  rw [hunmade, hnoted]
  generalize hx : (Store.noting s s').unmade s.mark = x at hcut hnoted
  have hdrop : s'.building_order.drop s.mark.building = opened := by
    rw [horder]
    exact drop_left
  have htake : s'.building_order.take s.mark.building = s.building_order := by
    rw [horder]
    exact take_left
  have hback : (fun path => s'.building path &&
      !(s'.building_order.drop s.mark.building).contains path) = s.building := by
    funext path
    rw [hdrop, hbuilding]
    by_cases hp : path ∈ opened
    · rw [hnew path hp]
      simp [hp]
    · simp [hp]
  calc (Store.noting s' x).cut s.mark = { x.cut s.mark with
          building := fun path => s'.building path && !(s'.building_order.drop s.mark.building).contains path
          building_order := s'.building_order.take s.mark.building } := rfl
    _ = { x.cut s.mark with building := s.building, building_order := s.building_order } := by
        rw [hback, htake]
    _ = s := by rw [hcut]

/-! ## Attempts -/

def Store.opening (s : Store) : Store := Store.counting (s.transactions + 1) s

theorem Sound.opening (hs : Sound o s) : Sound o s.opening := by
  refine ⟨hs.types.of_decls ⟨fun _ => rfl, fun {_ decl} hd _ => ⟨decl, hd, rfl⟩⟩ rfl rfl rfl
    fun _ h => h, ?_, hs.journal.made, fun h => absurd h (Nat.succ_ne_zero _)⟩
  exact ⟨hs.decls.proper, hs.decls.declared, hs.decls.listed, hs.decls.arity, hs.decls.args,
    hs.decls.uses, hs.decls.waiting⟩

theorem ends_attempt (hs : Sound o s) {α : Type} {work : M α} {Q : α → Store → Prop}
    (hwork : Goes (Steps o) (Reads o) work s.opening Q) :
    Ends (attempt work) s (fun r s' =>
      match r with
      | .ok a => ∃ s₁, s' = Store.closing s.transactions s₁ ∧ Q a s₁ ∧ Steps o s.opening s₁ ∧
          Steps o s s'
      | .error _ => s' = s) fun _ _ => False := by
  have hsound := hs.opening
  have hclosed : Store.closing s.transactions s.opening = s := by
    unfold Store.closing Store.opening
    by_cases ht : s.transactions = 0
    · rw [if_pos ht, ← hs.journal.idle ht]
      rfl
    · rw [if_neg ht]
      rfl
  unfold Goes Ends at hwork
  unfold Ends
  cases hrun : work s.opening with
  | ok a s₁ =>
    rw [hrun] at hwork
    obtain ⟨hsteps, hQ⟩ := hwork
    have ht : s₁.transactions = s.transactions + 1 := hsteps.transactions
    have hattempt : attempt work s = .ok (.ok a) (Store.closing s.transactions s₁) := by
      unfold attempt
      rw [show work { s with transactions := s.transactions + 1 } = .ok a s₁ from hrun]
      dsimp only
      rw [ht, Nat.add_sub_cancel]
      unfold Store.closing
      by_cases hn : s.transactions = 0
      · rw [if_pos hn, if_pos hn]
      · rw [if_neg hn, if_neg hn]
    rw [hattempt]
    refine ⟨s₁, rfl, hQ, hsteps, ?_⟩
    have hframe := hsteps.frame (closing_frame s.transactions) hsound (Nat.succ_pos _)
    rwa [hclosed] at hframe
  | raised e s₁ =>
    rw [hrun] at hwork
    have hback := hwork.roll_back hsound (Nat.succ_pos _)
    have ht : s₁.transactions = s.transactions + 1 := hwork.steps.transactions
    have hattempt : attempt work s = .ok (.error (refusal e))
        (roll_back (Store.counting s.transactions s₁) s.mark) := by
      unfold attempt
      rw [show work { s with transactions := s.transactions + 1 } = .raised e s₁ from hrun]
      dsimp only
      rw [ht, Nat.add_sub_cancel]
      rfl
    rw [hattempt]
    have hlogged : Logged s₁ := (hwork.steps.sound hsound).journal.made
    have hlogged' : Logged (Store.counting s.transactions s₁) := hlogged
    have hrolled : roll_back (Store.counting s.transactions s₁) s.mark =
        Store.counting s.transactions (roll_back s₁ s.mark) := by
      rw [roll_back_eq hlogged', roll_back_eq hlogged, (counting_beside _).unmade]
      rfl
    rw [hrolled]
    show Store.counting s.transactions (roll_back s₁ s.opening.mark) = s
    rw [hback]
    rfl

end

/-!
What every reader does, at every level of nesting.

Whatever a loader does with a store, and whatever texts it answers, a reader that answers has taken
steps and has what it noted as it was; one that raises leaves what `attempt` can take back.
-/

/-! ## Readers -/

structure Ready (o : Outside) (s : Store) : Prop where
  sound : Sound o s
  pending : 0 < s.transactions

theorem Ready.steps {o : Outside} {s s' : Store} (h : Ready o s) (hs : Steps o s s') : Ready o s' :=
  ⟨hs.sound h.sound, by rw [hs.transactions]; exact h.pending⟩

def Took (o : Outside) (r r' : Reading) : Prop := Steps o r.store r'.store

def Left (o : Outside) (r r' : Reading) : Prop := Reads o r.store r'.store

instance reading_track (o : Outside) : Track (Took o) (Left o) where
  refl _ := .refl
  trans h h' := Relation.ReflTransGen.trans h h'
  bad_refl _ := Steps.reads .refl
  bad_trans h h' := Reads.after h h'

/-- The program reads: its answer and the store it leaves are of `K`. -/
def Reader {α : Type} (o : Outside) (m : R α) (K : α → Store → Prop) : Prop :=
  ∀ r, Ready o r.store → Goes (Took o) (Left o) m r fun a r' => K a r'.store

section

variable {o : Outside} {α β : Type} {m : R α} {K : α → Store → Prop} {L : β → Store → Prop}

theorem Reader.bind {f : α → R β} (hm : Reader o m K) (hf : ∀ a, Reader o (f a) L) : Reader o (m >>= f) L := by
  intro r hr
  apply goes_bind (hm r hr)
  intro a r' hs _
  exact hf a r' (hr.steps hs)

theorem Reader.weaken (hm : Reader o m K) : Reader o m fun _ _ => True :=
  fun r hr => (hm r hr).mono fun _ _ _ _ => trivial

theorem reader_pure (a : α) : Reader o (pure a : R α) fun _ _ => True :=
  fun _ _ => goes_pure trivial

theorem reader_fail (message : Bytes) : Reader o (fail message : R α) K :=
  fun _ _ => Steps.reads .refl

theorem reader_ite {p : Prop} [Decidable p] {m m' : R α} (hm : Reader o m K) (hm' : Reader o m' K) :
    Reader o (if p then m else m') K := by
  split
  · exact hm
  · exact hm'

theorem reader_on_store {m : M α} (hm : ∀ s, Ready o s → Goes (Steps o) (Reads o) m s K) :
    Reader o (on_store m) K := by
  intro r hr
  have h := hm r.store hr
  unfold Goes Ends at h ⊢
  unfold on_store
  cases hrun : m r.store with
  | ok a s =>
    rwa [hrun] at h
  | raised e s =>
    rwa [hrun] at h

theorem Stepping.reads {m : M α} {s : Store} {Q : α → Store → Prop} (h : Stepping o m s Q) :
    Goes (Steps o) (Reads o) m s Q :=
  Ends.mono h (fun _ _ h' => h') fun _ _ h' => h'.reads

theorem reader_stepping {m : M α} (hm : ∀ s, Sound o s → Stepping o m s K) : Reader o (on_store m) K :=
  reader_on_store fun s hs => (hm s hs.sound).reads

theorem goes_reading {s : Store} (hm : Reader o m K) (hs : Ready o s) : Goes (Steps o) (Reads o) (reading m) s K := by
  have h := hm ⟨s, 1⟩ hs
  unfold Goes Ends at h ⊢
  unfold reading
  cases hrun : m ⟨s, 1⟩ with
  | ok a r =>
    rwa [hrun] at h
  | raised e r =>
    rwa [hrun] at h

end

/-! ## Programs that only go on in the text -/

def SameStore (r r' : Reading) : Prop := r'.store = r.store

instance : Track SameStore SameStore :=
  .of_both (fun _ => rfl) fun {_ _ _} h h' => Eq.trans h' h

/-- The program leaves the store as it is. -/
def Scans {α : Type} (m : R α) : Prop := ∀ r, Goes SameStore SameStore m r fun _ _ => True

section

variable {o : Outside} {α β : Type} {m : R α}

theorem Scans.bind {f : α → R β} (hm : Scans m) (hf : ∀ a, Scans (f a)) : Scans (m >>= f) :=
  fun r => goes_bind (hm r) fun a r' _ _ => hf a r'

theorem Scans.reader (hm : Scans m) : Reader o m fun _ _ => True := by
  intro r _
  apply Ends.mono (hm r)
  · rintro a r' ⟨hs, -⟩
    have hsteps : Steps o r.store r'.store := by rw [show r'.store = r.store from hs]
    exact ⟨hsteps, trivial⟩
  · rintro _ r' hs
    have hsteps : Steps o r.store r'.store := by rw [show r'.store = r.store from hs]
    exact hsteps.reads

theorem scans_answer (a : α) : Scans (answer a : R α) := fun _ => goes_answer trivial

theorem scans_pure (a : α) : Scans (pure a : R α) := fun _ => goes_pure trivial

theorem scans_read (f : Reading → α) : Scans (read f : R α) := fun _ => goes_read trivial

theorem scans_fail (message : Bytes) : Scans (fail message : R α) := fun _ => rfl

theorem scans_move (f : Reading → ℕ) : Scans (change fun r => { r with at_ := f r } : R Unit) :=
  fun _ => goes_change rfl trivial

theorem scans_ite {p : Prop} [Decidable p] {m m' : R α} (hm : Scans m) (hm' : Scans m') :
    Scans (if p then m else m') := by
  split
  · exact hm
  · exact hm'

variable (text : Bytes)

theorem scans_skip : Scans (skip text) := scans_move _

theorem scans_peek : Scans (peek text) := (scans_skip text).bind fun _ => scans_read _

theorem scans_open : Scans (open_ text) := (scans_peek text).bind fun _ => scans_ite (scans_fail _) (scans_move _)

theorem scans_close : Scans (close text) := (scans_peek text).bind fun _ => scans_ite (scans_fail _) (scans_move _)

theorem scans_atom : Scans (atom text) := by
  apply (scans_skip text).bind
  intro _
  apply (scans_read _).bind
  intro word
  exact scans_ite (scans_fail _) ((scans_move _).bind fun _ => scans_pure _)

theorem scans_integer : Scans (integer text) := by
  apply (scans_atom text).bind
  intro word
  cases (if word.length < 10 then decimal word else none) with
  | some n => exact scans_pure n
  | none => exact scans_fail _

theorem scans_string_of : Scans (string_of text) := by
  apply (scans_peek text).bind
  intro _
  apply scans_ite (scans_fail _)
  apply (scans_read _).bind
  rintro (_ | ⟨out, stop⟩ | message)
  · exact scans_fail _
  · exact (scans_move _).bind fun _ => scans_pure _
  · exact scans_fail _

theorem scans_head : Scans (head text) := (scans_skip text).bind fun _ => scans_read _

theorem scans_expect (word : Bytes) : Scans (expect text word) := by
  apply (scans_open text).bind
  intro _
  apply (scans_atom text).bind
  intro _
  exact scans_ite (scans_fail _) (scans_pure _)

theorem scans_is_next (word : Bytes) : Scans (is_next text word) := (scans_skip text).bind fun _ => scans_read _

theorem scans_check_utf8 : Scans (check_utf8 text) := scans_ite (scans_fail _) (scans_answer _)

theorem scans_check_end (what : Bytes) : Scans (check_end text what) := by
  apply (scans_skip text).bind
  intro _
  apply (scans_read _).bind
  intro _
  exact scans_ite (scans_fail _) (scans_pure _)

theorem reader_many {item : R α} (h : Reader o item fun _ _ => True) (rounds : ℕ) :
    Reader o (many text item rounds) fun _ _ => True := by
  induction rounds with
  | zero => exact reader_fail _
  | succ rounds ih =>
    apply (scans_peek text).reader.bind
    intro c
    apply reader_ite (reader_pure _)
    apply h.bind
    intro a
    apply ih.bind
    intro as
    exact reader_pure _

theorem reader_items {item : R α} (h : Reader o item fun _ _ => True) : Reader o (items text item) fun _ _ => True :=
  reader_many text h _

end

/-! ## Operations -/

def Answer.Alive (s : Store) : Answer → Prop
  | .type t => s.alive t = true
  | .decl d => s.decl_alive d = true
  | .done => True
  | .refused _ => True

structure ReadersSpec (o : Outside) (rd : Readers) : Prop where
  type : ∀ text, Reader o (rd.type text) fun t s => s.alive t = true
  declaration : ∀ text path s, Ready o s →
    Goes (Steps o) (Reads o) (rd.declaration text path) s fun d s' => s'.decl_alive d = true

section

variable {o : Outside} {rd : Readers} (hrd : ReadersSpec o rd) {s : Store}

theorem Sound.ready (hs : Sound o s) : Ready o s.opening := ⟨hs.opening, Nat.succ_pos _⟩

/-- A decode that is refused leaves the store as it was, and one that is not has taken steps. -/
def Decoded (o : Outside) (s : Store) (P : ℕ → Store → Prop) (r : Except Bytes ℕ) (s' : Store) : Prop :=
  match r with
  | .ok x => Steps o s s' ∧ P x s'
  | .error _ => s' = s

theorem ends_attempt_alive (hs : Sound o s) {work : M ℕ} {P : ℕ → Store → Prop}
    (hP : ∀ x s₁ n, P x s₁ → P x (Store.closing n s₁))
    (hwork : Goes (Steps o) (Reads o) work s.opening P) :
    Ends (attempt work) s (Decoded o s P) fun _ _ => False := by
  apply Ends.mono (ends_attempt hs hwork)
  · rintro (why | x) s' h
    · exact h
    · obtain ⟨s₁, rfl, hP₁, -, hsteps⟩ := h
      exact ⟨hsteps, hP x s₁ _ hP₁⟩
  · exact fun _ _ h => h

include hrd

theorem ends_decode (hs : Sound o s) (text : Bytes) :
    Ends (decode rd text) s (Decoded o s fun t s' => s'.alive t = true) fun _ _ => False := by
  apply ends_attempt_alive hs fun _ _ _ h => h
  apply goes_reading ?_ hs.ready
  apply (scans_check_utf8 text).reader.bind
  intro _ r hr
  apply goes_bind (hrd.type text r hr)
  intro t r' hr' ht
  apply goes_bind ((scans_check_end text (lit "type")).reader r' (hr.steps hr'))
  intro _ r'' hr'' _
  exact goes_pure (Steps.shows hr'' |>.alive ht)

theorem ends_decode_declaration (hs : Sound o s) (text : Bytes) :
    Ends (decode_declaration rd text) s (Decoded o s fun d s' => s'.decl_alive d = true)
      fun _ _ => False :=
  ends_attempt_alive hs (fun _ _ _ h => h) (hrd.declaration text none s.opening hs.ready)

omit hrd in
theorem stepping_answered {m : M (Except Bytes ℕ)} {P : ℕ → Store → Prop}
    (hm : Ends m s (Decoded o s P) fun _ _ => False) {as : ℕ → Answer}
    (has : ∀ x s', P x s' → (as x).Alive s') :
    Stepping o (do return answered as (← m)) s fun a s' => a.Alive s' := by
  unfold Stepping Goes
  rw [ends_bind]
  apply Ends.mono hm
  · rintro (why | x) s' h
    · rw [show s' = s from h]
      exact ⟨.refl, trivial⟩
    · exact ⟨h.1, has x s' h.2⟩
  · exact fun _ _ h => h.elim

/-- The operation is no `forget`, which an open decode refuses. -/
def Op.keeps : Op → Bool
  | .forget _ => false
  | _ => true

theorem stepping_exec (hs : Sound o s) {op : Op} (hop : op.keeps = true ∨ 0 < s.transactions) :
    Stepping o (exec o rd op) s fun a s' => a.Alive s' := by
  have htype : ∀ {m : M ℕ} {Q : ℕ → Store → Prop}, Stepping o m s (fun t s' => s'.alive t = true ∧ Q t s') →
      Stepping o (do return Answer.type (← m)) s fun a s' => a.Alive s' := by
    intro m Q hm
    apply goes_bind hm
    rintro t s' - ⟨ht, -⟩
    exact goes_pure ht
  have htype' : ∀ {m : M ℕ}, Growing o m s (fun t s' => s'.alive t = true) →
      Stepping o (do return Answer.type (← m)) s fun a s' => a.Alive s' := by
    intro m hm
    apply goes_bind hm.stepping
    intro t s' _ ht
    exact goes_pure ht
  cases op with
  | array element mutable => exact htype (growing_array hs element mutable).stepping
  | map key value mutable => exact htype (growing_map hs key value mutable).stepping
  | union members => exact htype (growing_union_of hs members).stepping
  | optional t => exact htype (growing_optional hs t).stepping
  | non_nil t => exact htype' (growing_non_nil hs t)
  | var depth index => exact htype' (growing_var hs depth index)
  | named d args value => exact htype (stepping_named hs d args value)
  | fn spec => exact htype' (growing_fn hs spec)
  | declare kind module names arity =>
    apply goes_bind (stepping_declare hs kind module names arity)
    rintro d s' - ⟨name, -, decl, hd, hdead, -⟩
    exact goes_pure (decl_alive_iff.mpr ⟨decl, hd, hdead⟩)
  | define d body =>
    apply goes_bind (stepping_define hs d body)
    intro d' s' _ hd
    exact goes_pure hd
  | forget decls =>
    have ht : 0 < s.transactions := hop.resolve_left (by simp [Op.keeps])
    apply goes_bind (P := fun _ _ => True)
    · apply goes_read_bind
      exact goes_refuse_bind fun h => absurd ht h
    · exact fun _ _ _ _ => goes_pure trivial
  | decode text => exact stepping_answered (ends_decode hrd hs text) fun _ _ h => h
  | decode_declaration text =>
    exact stepping_answered (ends_decode_declaration hrd hs text) fun _ _ h => h

/-- A loader that works on the store while a decode is open takes steps. -/
theorem stepping_program (p : Program) : ∀ {s}, Ready o s → Stepping o (run_program o rd p) s fun _ _ => True := by
  induction p with
  | answer text => exact fun _ => goes_answer trivial
  | raise message => exact fun _ => goes_raise message
  | call op next ih =>
    intro s hs
    have h : Stepping o (exec o rd op) s _ := stepping_exec hrd hs.sound (.inr hs.pending)
    unfold Stepping Goes Ends at h
    unfold Stepping Goes Ends run_program
    cases hrun : exec o rd op s with
    | ok a s' =>
      rw [hrun] at h
      have h' := ih (.ok a) s' (hs.steps h.1)
      apply Ends.mono h'
      · exact fun _ _ hnext => ⟨h.1.trans hnext.1, trivial⟩
      · exact fun _ _ hnext => h.1.trans hnext
    | raised e s' =>
      rw [hrun] at h
      have h' := ih (.error e) s' (hs.steps h)
      apply Ends.mono h'
      · exact fun _ _ hnext => ⟨Relation.ReflTransGen.trans h hnext.1, trivial⟩
      · exact fun _ _ hnext => Relation.ReflTransGen.trans h hnext

end

end Cosmic.Types
