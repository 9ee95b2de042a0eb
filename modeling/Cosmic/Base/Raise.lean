/-
Programs that change a state and may raise.

A raise leaves the state as the program had made it: taking a change back is the work of
whoever catches the raise. `Ends` says what holds at the end of a run from one state, whichever
way it ends, and its rules are those of a weakest precondition.
-/
import Mathlib.Data.List.Basic

set_option autoImplicit false

namespace Cosmic.Base

open List

/-- How a run ends: with an answer or with what was raised, and the state it leaves. -/
inductive Outcome (σ ε α : Type) where
  | ok (a : α) (s : σ)
  | raised (e : ε) (s : σ)

/-- A program over states `σ` that raises values of `ε`. -/
def Raise (σ ε α : Type) : Type := σ → Outcome σ ε α

namespace Raise

variable {σ ε α β : Type}

/-- Answers `a` and changes nothing. -/
def answer (a : α) : Raise σ ε α := fun s => .ok a s

/-- Runs `m`, then what `f` makes of its answer. -/
def andThen (m : Raise σ ε α) (f : α → Raise σ ε β) : Raise σ ε β := fun s =>
  match m s with
  | .ok a s' => f a s'
  | .raised e s' => .raised e s'

instance : Monad (Raise σ ε) where
  pure := answer
  bind := andThen

theorem andThen_answer (m : Raise σ ε α) : andThen m answer = m := by
  funext s
  unfold andThen
  cases m s with
  | ok a s' => rfl
  | raised e s' => rfl

theorem andThen_assoc {γ : Type} (m : Raise σ ε α) (f : α → Raise σ ε β) (g : β → Raise σ ε γ) :
    andThen (andThen m f) g = andThen m fun a => andThen (f a) g := by
  funext s
  unfold andThen
  cases m s with
  | ok a s' => rfl
  | raised e s' => rfl

instance : LawfulMonad (Raise σ ε) :=
  LawfulMonad.mk' _ (fun m => andThen_answer m) (fun _ _ => rfl) fun m f g => andThen_assoc m f g

def raise (e : ε) : Raise σ ε α := fun s => .raised e s

def read (f : σ → α) : Raise σ ε α := fun s => .ok (f s) s

def change (f : σ → σ) : Raise σ ε Unit := fun s => .ok () (f s)

/-- Raises `e` where `p` holds. -/
def refuse (p : Prop) [Decidable p] (e : ε) : Raise σ ε Unit := if p then raise e else answer ()

/-- Answers what is there, and raises where nothing is. -/
def need (a : Option α) (e : ε) : Raise σ ε α :=
  match a with
  | some a => answer a
  | none => raise e

/-- Runs `f` on each of a list in turn, and answers the answers. -/
def each (f : α → Raise σ ε β) : List α → Raise σ ε (List β)
  | [] => answer []
  | a :: as => do
      let b ← f a
      let bs ← each f as
      return b :: bs

/-- The run of `m` from `s` ends with an answer and a state of `Q`, or raises in a state of `E`. -/
def Ends (m : Raise σ ε α) (s : σ) (Q : α → σ → Prop) (E : ε → σ → Prop) : Prop :=
  match m s with
  | .ok a s' => Q a s'
  | .raised e s' => E e s'

variable {Q : α → σ → Prop} {R : β → σ → Prop} {E : ε → σ → Prop} {s : σ}

@[simp] theorem ends_answer (a : α) : Ends (answer a) s Q E ↔ Q a s := Iff.rfl

@[simp] theorem ends_pure (a : α) : Ends (pure a : Raise σ ε α) s Q E ↔ Q a s := Iff.rfl

@[simp] theorem ends_raise (e : ε) : Ends (raise e : Raise σ ε α) s Q E ↔ E e s := Iff.rfl

@[simp] theorem ends_read (f : σ → α) : Ends (read f) s Q E ↔ Q (f s) s := Iff.rfl

@[simp] theorem ends_change {Q : Unit → σ → Prop} (f : σ → σ) : Ends (change f) s Q E ↔ Q () (f s) := Iff.rfl

theorem ends_andThen (m : Raise σ ε α) (f : α → Raise σ ε β) :
    Ends (andThen m f) s R E ↔ Ends m s (fun a s' => Ends (f a) s' R E) E := by
  unfold Ends andThen
  cases m s with
  | ok a s' => exact Iff.rfl
  | raised e s' => exact Iff.rfl

@[simp] theorem ends_bind (m : Raise σ ε α) (f : α → Raise σ ε β) :
    Ends (m >>= f) s R E ↔ Ends m s (fun a s' => Ends (f a) s' R E) E :=
  ends_andThen m f

@[simp] theorem ends_refuse {Q : Unit → σ → Prop} (p : Prop) [Decidable p] (e : ε) :
    Ends (refuse p e) s Q E ↔ (p → E e s) ∧ (¬p → Q () s) := by
  unfold refuse
  by_cases hp : p
  · simp [hp]
  · simp [hp]

@[simp] theorem ends_need (a : Option α) (e : ε) :
    Ends (need a e) s Q E ↔ (a = none → E e s) ∧ ∀ x, a = some x → Q x s := by
  cases a with
  | none => simp [need]
  | some x => simp [need]

variable {m : Raise σ ε α}

theorem Ends.mono {Q' : α → σ → Prop} {E' : ε → σ → Prop}
    (h : Ends m s Q E) (hQ : ∀ a s', Q a s' → Q' a s') (hE : ∀ e s', E e s' → E' e s') :
    Ends m s Q' E' := by
  unfold Ends at h ⊢
  split
  · next a s' heq =>
    rw [heq] at h
    exact hQ a s' h
  · next e s' heq =>
    rw [heq] at h
    exact hE e s' h

theorem Ends.and {Q' : α → σ → Prop} {E' : ε → σ → Prop} (h : Ends m s Q E) (h' : Ends m s Q' E') :
    Ends m s (fun a s' => Q a s' ∧ Q' a s') (fun e s' => E e s' ∧ E' e s') := by
  unfold Ends at h h' ⊢
  split
  · next a s' heq =>
    rw [heq] at h h'
    exact ⟨h, h'⟩
  · next e s' heq =>
    rw [heq] at h h'
    exact ⟨h, h'⟩

/-! ## Runs that only go on from where they are -/

/-- `Rel` relates a state to those a program leaves when it answers, and `Bad` to those it leaves
when it raises: what a program does after another is after both. -/
class Track (Rel Bad : σ → σ → Prop) : Prop where
  refl : ∀ s, Rel s s
  trans : ∀ {s s' s''}, Rel s s' → Rel s' s'' → Rel s s''
  bad_refl : ∀ s, Bad s s
  bad_trans : ∀ {s s' s''}, Rel s s' → Bad s' s'' → Bad s s''

theorem Track.of_both {Rel : σ → σ → Prop} (refl : ∀ s, Rel s s)
    (trans : ∀ {s s' s''}, Rel s s' → Rel s' s'' → Rel s s'') : Track Rel Rel :=
  ⟨refl, trans, refl, trans⟩

/-- The run of `m` from `s` goes on from `s` as `Rel` and `Bad` say, and its answer and the state
it leaves are of `Q`. -/
def Goes (Rel Bad : σ → σ → Prop) (m : Raise σ ε α) (s : σ) (Q : α → σ → Prop) : Prop :=
  Ends m s (fun a s' => Rel s s' ∧ Q a s') fun _ s' => Bad s s'

section

variable {Rel Bad : σ → σ → Prop} {P : α → σ → Prop}

theorem Goes.mono {Q' : α → σ → Prop} (h : Goes Rel Bad m s Q)
    (hQ : ∀ a s', Rel s s' → Q a s' → Q' a s') : Goes Rel Bad m s Q' :=
  Ends.mono h (fun a s' h' => ⟨h'.1, hQ a s' h'.1 h'.2⟩) fun _ _ h' => h'

theorem goes_change {Q : Unit → σ → Prop} {f : σ → σ} (hf : Rel s (f s)) (h : Q () (f s)) :
    Goes Rel Bad (change f : Raise σ ε Unit) s Q :=
  ⟨hf, h⟩

theorem goes_read_bind {f : σ → α} {g : α → Raise σ ε β} (h : Goes Rel Bad (g (f s)) s R) :
    Goes Rel Bad (read f >>= g) s R := h

variable [Track Rel Bad]

theorem goes_answer {a : α} (h : Q a s) : Goes Rel Bad (answer a : Raise σ ε α) s Q := ⟨Track.refl Bad s, h⟩

theorem goes_pure {a : α} (h : Q a s) : Goes Rel Bad (pure a : Raise σ ε α) s Q := ⟨Track.refl Bad s, h⟩

theorem goes_raise (e : ε) : Goes Rel Bad (raise e : Raise σ ε α) s Q := Track.bad_refl Rel s

theorem goes_read {f : σ → α} (h : Q (f s) s) : Goes Rel Bad (read f : Raise σ ε α) s Q := ⟨Track.refl Bad s, h⟩

theorem goes_refuse {Q : Unit → σ → Prop} {p : Prop} [Decidable p] {e : ε} (h : ¬p → Q () s) :
    Goes Rel Bad (refuse p e : Raise σ ε Unit) s Q := by
  unfold Goes
  rw [ends_refuse]
  exact ⟨fun _ => Track.bad_refl Rel s, fun hp => ⟨Track.refl Bad s, h hp⟩⟩

theorem goes_need {a : Option α} {e : ε} (h : ∀ x, a = some x → Q x s) :
    Goes Rel Bad (need a e : Raise σ ε α) s Q := by
  unfold Goes
  rw [ends_need]
  exact ⟨fun _ => Track.bad_refl Rel s, fun x hx => ⟨Track.refl Bad s, h x hx⟩⟩

theorem goes_bind {f : α → Raise σ ε β} (hm : Goes Rel Bad m s P)
    (hf : ∀ a s', Rel s s' → P a s' → Goes Rel Bad (f a) s' R) :
    Goes Rel Bad (m >>= f) s R := by
  unfold Goes
  rw [ends_bind]
  apply Ends.mono hm
  · rintro a s' ⟨hs, hP⟩
    apply Ends.mono (hf a s' hs hP)
    · rintro b s'' ⟨hs', hR⟩
      exact ⟨Track.trans Bad hs hs', hR⟩
    · intro _ s'' hs'
      exact Track.bad_trans hs hs'
  · intro _ s' hs
    exact hs

theorem goes_change_bind {f : σ → σ} {g : Unit → Raise σ ε β} (hf : Rel s (f s))
    (h : Goes Rel Bad (g ()) (f s) R) : Goes Rel Bad (change f >>= g) s R := by
  apply Ends.mono h
  · rintro b s' ⟨hs, hR⟩
    exact ⟨Track.trans Bad hf hs, hR⟩
  · intro _ s' hs
    exact Track.bad_trans hf hs

theorem goes_refuse_bind {p : Prop} [Decidable p] {e : ε} {g : Unit → Raise σ ε β}
    (h : ¬p → Goes Rel Bad (g ()) s R) : Goes Rel Bad (refuse p e >>= g) s R := by
  unfold Goes
  rw [ends_bind, ends_refuse]
  exact ⟨fun _ => Track.bad_refl Rel s, h⟩

/-- What each of a list ends with, that no later change takes away, holds of them all in the
end. -/
theorem goes_each {f : α → Raise σ ε β} {K : α → β → σ → Prop}
    (hK : ∀ {a b s s'}, Rel s s' → K a b s → K a b s') (as : List α)
    (hf : ∀ a ∈ as, ∀ s', Rel s s' → Goes Rel Bad (f a) s' (K a)) :
    Goes Rel Bad (each f as) s fun bs s' => Forall₂ (fun a b => K a b s') as bs := by
  induction as generalizing s with
  | nil => exact goes_answer .nil
  | cons a as ih =>
    apply goes_bind (hf a mem_cons_self s (Track.refl Bad s))
    intro b s' hs hb
    apply goes_bind (ih fun a' ha' s'' hs' =>
      hf a' (mem_cons_of_mem a ha') s'' (Track.trans Bad hs hs'))
    intro bs s'' hs' hbs
    exact goes_pure (.cons (hK hs' hb) hbs)

end

/-! ## Runs that change nothing -/

instance : Track (σ := σ) Eq Eq := .of_both (fun _ => rfl) fun h h' => h.trans h'

/-- The run of `m` from `s` changes nothing, and its answer is of `P`. -/
abbrev Quiet (m : Raise σ ε α) (s : σ) (P : α → Prop) : Prop := Goes Eq Eq m s fun a _ => P a

theorem quiet_each {f : α → Raise σ ε β} {K : α → β → Prop} (as : List α) (hf : ∀ a ∈ as, Quiet (f a) s (K a)) :
    Quiet (each f as) s fun bs => Forall₂ K as bs :=
  goes_each (fun _ h => h) as fun a ha _ hs => hs ▸ hf a ha

section

variable {Rel Bad : σ → σ → Prop} [Track Rel Bad] {P : α → Prop}

theorem Quiet.goes (hm : Quiet m s P) : Goes Rel Bad m s fun a s' => s' = s ∧ P a := by
  apply Ends.mono hm
  · rintro a s' ⟨rfl, ha⟩
    exact ⟨Track.refl Bad s, rfl, ha⟩
  · rintro _ s' rfl
    exact Track.bad_refl Rel s

theorem goes_quiet_bind {f : α → Raise σ ε β} (hm : Quiet m s P)
    (hf : ∀ a, P a → Goes Rel Bad (f a) s R) : Goes Rel Bad (m >>= f) s R := by
  apply goes_bind hm.goes
  rintro a s' - ⟨rfl, ha⟩
  exact hf a ha

end

/-! ## Programs the state is nothing to -/

/-- The program neither reads nor changes the state. -/
def Steady (m : Raise σ ε α) : Prop := (∃ a, ∀ s, m s = .ok a s) ∨ ∃ e, ∀ s, m s = .raised e s

theorem steady_answer (a : α) : Steady (answer a : Raise σ ε α) := .inl ⟨a, fun _ => rfl⟩

theorem steady_pure (a : α) : Steady (pure a : Raise σ ε α) := .inl ⟨a, fun _ => rfl⟩

theorem steady_raise (e : ε) : Steady (raise e : Raise σ ε α) := .inr ⟨e, fun _ => rfl⟩

theorem steady_refuse (p : Prop) [Decidable p] (e : ε) : Steady (refuse p e : Raise σ ε Unit) := by
  unfold refuse
  split
  · exact steady_raise e
  · exact steady_answer ()

theorem steady_bind {f : α → Raise σ ε β} (hm : Steady m)
    (hf : ∀ a, Steady (f a)) : Steady (m >>= f) := by
  have hbind : ∀ s, (m >>= f) s = andThen m f s := fun _ => rfl
  rcases hm with ⟨a, ha⟩ | ⟨e, he⟩
  · rcases hf a with ⟨b, hb⟩ | ⟨e, he⟩
    · exact .inl ⟨b, fun s => by rw [hbind, andThen, ha, ← hb]⟩
    · exact .inr ⟨e, fun s => by rw [hbind, andThen, ha, ← he]⟩
  · exact .inr ⟨e, fun s => by rw [hbind, andThen, he]⟩

theorem steady_each {f : α → Raise σ ε β} (hf : ∀ a, Steady (f a)) (as : List α) : Steady (each f as) := by
  induction as with
  | nil => exact steady_answer []
  | cons a as ih => exact steady_bind (hf a) fun b => steady_bind ih fun bs => steady_pure (b :: bs)

theorem Steady.quiet (hm : Steady m) : Quiet m s fun a => ∀ s', m s' = .ok a s' := by
  unfold Quiet Goes Ends
  rcases hm with ⟨a, ha⟩ | ⟨e, he⟩
  · rw [ha]
    exact ⟨rfl, ha⟩
  · rw [he]

end Raise

end Cosmic.Base
