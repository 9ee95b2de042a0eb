/-
Programs that answer, refuse with a reason, or raise.

A reader of bytes refuses what it cannot read and says why; it raises where it asks for a byte that
is not there. `Safe` says that a program does not raise, and what holds of its answer where it gives
one; its rules go over a program a step at a time.
-/
import Cosmic.Base.Text

set_option autoImplicit false

namespace Cosmic.Base

open List

/-- How a program ends. -/
inductive Attempt (α : Type) where
  | ok (a : α)
  | refused (why : Bytes)
  | raised
deriving DecidableEq

namespace Attempt

variable {α β : Type}

/-- Runs `m`, and `f` on its answer. -/
def andThen (m : Attempt α) (f : α → Attempt β) : Attempt β :=
  match m with
  | .ok a => f a
  | .refused why => .refused why
  | .raised => .raised

instance : Monad Attempt where
  pure := .ok
  bind := andThen

/-- Refuses where `p` holds. -/
def refuse (p : Prop) [Decidable p] (why : Bytes) : Attempt Unit := if p then .refused why else .ok ()

/-- Answers what is there, and raises where nothing is. -/
def need (a : Option α) : Attempt α :=
  match a with
  | some a => .ok a
  | none => .raised

/-- `for i = 1, n do`, from the state `s`. -/
def each (body : ℕ → α → Attempt α) : ℕ → α → Attempt α
  | 0, s => .ok s
  | n + 1, s => each body n s >>= body (n + 1)

/-- The answers of `f` for each of a list, in order. -/
def collect (f : α → Attempt β) : List α → Attempt (List β)
  | [] => .ok []
  | a :: l => do
      let b ← f a
      let bs ← collect f l
      return b :: bs

/-- Puts `front` before a reason. -/
def explain (front : Bytes) (m : Attempt α) : Attempt α :=
  match m with
  | .ok a => .ok a
  | .refused why => .refused (front ++ why)
  | .raised => .raised

/-- The program does not raise, and its answer, if it gives one, is of `P`. -/
def Safe (m : Attempt α) (P : α → Prop) : Prop :=
  match m with
  | .ok a => P a
  | .refused _ => True
  | .raised => False

variable {P : α → Prop} {Q : β → Prop}

theorem safe_ok {a : α} (h : P a) : Safe (.ok a) P := h

theorem safe_pure {a : α} (h : P a) : Safe (pure a) P := h

theorem safe_bind {m : Attempt α} {f : α → Attempt β} (hm : Safe m P) (hf : ∀ a, P a → Safe (f a) Q) :
    Safe (m >>= f) Q := by
  cases m with
  | ok a => exact hf a hm
  | refused why => trivial
  | raised => exact hm.elim

theorem safe_refuse {p : Prop} [Decidable p] {why : Bytes} : Safe (refuse p why) (fun _ => ¬p) := by
  unfold refuse
  by_cases hp : p
  · rw [if_pos hp]
    trivial
  · rwa [if_neg hp]

theorem safe_refuse_bind {p : Prop} [Decidable p] {why : Bytes} {f : Unit → Attempt β} (hf : ¬p → Safe (f ()) Q) :
    Safe (refuse p why >>= f) Q := safe_bind safe_refuse fun _ hp => hf hp

theorem safe_need {a : Option α} (h : ∃ x, a = some x ∧ P x) : Safe (need a) P := by
  obtain ⟨x, rfl, hx⟩ := h
  exact hx

theorem safe_explain {m : Attempt α} (front : Bytes) (h : Safe m P) : Safe (explain front m) P := by
  cases m with
  | ok a => exact h
  | refused why => trivial
  | raised => exact h

/-- A loop keeps what each round keeps: `Inv i` holds after `i` rounds. -/
theorem safe_each {body : ℕ → α → Attempt α} (Inv : ℕ → α → Prop) (n : ℕ)
    (hbody : ∀ i s, i < n → Inv i s → Safe (body (i + 1) s) (Inv (i + 1))) {s : α} (hs : Inv 0 s) :
    Safe (each body n s) (Inv n) := by
  induction n with
  | zero => exact hs
  | succ n ih =>
    refine safe_bind (ih fun i s hi => hbody i s (Nat.lt_succ_of_lt hi)) fun s hs => ?_
    exact hbody n s (Nat.lt_succ_self n) hs

theorem safe_collect {f : α → Attempt β} {R : α → β → Prop} {l : List α} (h : ∀ a ∈ l, Safe (f a) (R a)) :
    Safe (collect f l) (Forall₂ R l) := by
  induction l with
  | nil => exact Forall₂.nil
  | cons a l ih =>
    refine safe_bind (h a mem_cons_self) fun b hb => ?_
    refine safe_bind (ih fun a ha => h a (mem_cons_of_mem _ ha)) fun bs hbs => ?_
    exact Forall₂.cons hb hbs

theorem Safe.mono {P' : α → Prop} {m : Attempt α} (h : Safe m P) (hP : ∀ a, P a → P' a) : Safe m P' := by
  cases m with
  | ok a => exact hP a h
  | refused why => trivial
  | raised => exact h

theorem Safe.answer {m : Attempt α} (h : Safe m P) {a : α} (ha : m = .ok a) : P a := by
  rwa [ha] at h

theorem Safe.not_raised {m : Attempt α} (h : Safe m P) : m ≠ .raised := by
  rintro rfl
  exact h

end Attempt

end Cosmic.Base
