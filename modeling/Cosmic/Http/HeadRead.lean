/-
A request's head, read of an input whatever the cuts of its source.

Two inputs with the same bytes pending give the same head, or the same refusal, and have the same bytes
pending after a head. What is taken is the lines of the head.
-/
import Cosmic.Http.Head

set_option autoImplicit false

namespace Cosmic.Http

open Cosmic.Base List Option

/-- Two inputs with the same bytes to come. -/
structure Alike (a b : Input) : Prop where
  pending : a.pending = b.pending
  ending : a.source.ending = b.source.ending

/-- Inputs that are alike as far into a head: the head started at `start` bytes of the one and at
`start'` of the other. -/
structure Level (start start' : ℕ) (a b : Input) : Prop extends Alike a b where
  taken : a.taken + start' = b.taken + start

variable {start start' : ℕ} {a b : Input} {limits : Limits}

theorem Alike.took {a' b' : Input} {k : ℕ} (h : Alike a b) (ha : a.Took a' k) (hb : b.Took b' k) : Alike a' b' :=
  ⟨by rw [ha.pending, hb.pending, h.pending], by rw [ha.ending, hb.ending, h.ending]⟩

theorem Level.took {a' b' : Input} {k : ℕ} (h : Level start start' a b) (ha : a.Took a' k)
    (hb : b.Took b' k) : Level start start' a' b' := by
  refine ⟨h.toAlike.took ha hb, ?_⟩
  have htaken := h.taken
  rw [ha.taken, hb.taken]
  omega

/-- The answers to two runs of one reading. -/
def Agree {α β : Type} (R : α → Input → Input → Prop) (p q : Except β α × Input) : Prop :=
  p.1 = q.1 ∧ ∀ x, p.1 = .ok x → R x p.2 q.2

/-- Runs of one reading of two inputs end alike. -/
def Agrees {α β : Type} (R : α → Input → Input → Prop) (f g : Option (Except β α × Input)) : Prop :=
  ∃ p q, f = some p ∧ g = some q ∧ Agree R p q

theorem agree_error {α β : Type} {R : α → Input → Input → Prop} (x : β) (a b : Input) :
    Agree R (.error x, a) (.error x, b) := ⟨rfl, nofun⟩

theorem agree_ok {α β : Type} {R : α → Input → Input → Prop} {x : α} {a b : Input} (h : R x a b) :
    Agree (β := β) R (.ok x, a) (.ok x, b) := by
  refine ⟨rfl, fun y hy => ?_⟩
  rwa [← Except.ok.inj hy]

theorem line_agrees (h : Level start start' a b) (budget : ℤ) :
    ∃ p q, a.line budget = some p ∧ b.line budget = some q ∧ p.1 = q.1 ∧ p.2.long = q.2.long ∧
      (p.2.long = false → Level start start' p.2 q.2) ∧
        ∀ text, p.1 = .ok text → p.2.long = false ∧ p.2.pending.length < a.pending.length := by
  obtain ⟨p, hp, hanswer⟩ := Input.line_spec a budget
  obtain ⟨q, hq, hanswer'⟩ := Input.line_spec b budget
  rw [← h.pending] at hanswer'
  refine ⟨p, q, hp, hq, ?_⟩
  cases hof : line_of a.pending budget with
  | long =>
    rw [hof] at hanswer hanswer'
    obtain ⟨herror, hlong⟩ := hanswer
    obtain ⟨herror', hlong'⟩ := hanswer'
    rw [herror, herror', hlong, hlong']
    exact ⟨rfl, rfl, nofun, nofun⟩
  | ended =>
    rw [hof] at hanswer hanswer'
    obtain ⟨herror, hlong, htook⟩ := hanswer
    obtain ⟨herror', hlong', htook'⟩ := hanswer'
    rw [← h.pending] at htook'
    rw [herror, herror', hlong, hlong', h.ending]
    exact ⟨rfl, rfl, fun _ => h.took htook htook', nofun⟩
  | got text rest =>
    rw [hof] at hanswer hanswer'
    obtain ⟨hok, hlong, htook⟩ := hanswer
    obtain ⟨hok', hlong', htook'⟩ := hanswer'
    rw [hok, hok', hlong, hlong']
    refine ⟨rfl, rfl, fun _ => h.took htook htook', fun _ _ => ⟨rfl, ?_⟩⟩
    rw [htook.pending, (line_of_got hof).1, drop_line, length_append, length_cons]
    omega

theorem next_line_agrees (limits : Limits) (h : Level start start' a b) :
    Agrees (fun _ a' b' => Level start start' a' b' ∧ a'.pending.length < a.pending.length)
      (next_line limits start a) (next_line limits start' b) := by
  have hbudget : limits.head_bytes - (b.taken - start' : ℤ) = limits.head_bytes - (a.taken - start : ℤ) := by
    have htaken := h.taken
    omega
  obtain ⟨⟨answer, a'⟩, ⟨answer', b'⟩, hp, hq, hsame, hlong, hlevel, hless⟩ :=
    line_agrees h (limits.head_bytes - (a.taken - start : ℤ))
  dsimp only at hsame hlong hlevel hless
  subst hsame
  unfold next_line Agrees
  rw [hbudget, hp, hq]
  cases answer with
  | error why =>
    dsimp only
    by_cases hover : a'.long = true
    · rw [if_pos hover, if_pos (hlong ▸ hover)]
      exact ⟨_, _, rfl, rfl, agree_error _ _ _⟩
    have hover' : ¬b'.long = true := hlong ▸ hover
    rw [if_neg hover, if_neg hover']
    by_cases hwhy : why ≠ []
    · rw [if_pos hwhy, if_pos hwhy]
      exact ⟨_, _, rfl, rfl, agree_error _ _ _⟩
    rw [if_neg hwhy, if_neg hwhy]
    -- the stream ends: within the head, or before its first byte
    have htaken := (hlevel (Bool.eq_false_iff.mpr hover)).taken
    by_cases hfirst : a'.taken = start
    · rw [if_pos hfirst, if_pos (by omega)]
      exact ⟨_, _, rfl, rfl, agree_error _ _ _⟩
    · rw [if_neg hfirst, if_neg (by omega)]
      exact ⟨_, _, rfl, rfl, agree_error _ _ _⟩
  | ok text =>
    obtain ⟨hfalse, hlt⟩ := hless text rfl
    dsimp only
    cases hbare : without_cr text with
    | none => exact ⟨_, _, rfl, rfl, agree_error _ _ _⟩
    | some bare => exact ⟨_, _, rfl, rfl, agree_ok ⟨hlevel hfalse, hlt⟩⟩

theorem request_line_agrees (limits : Limits) (h : Level start start' a b) :
    Agrees (fun _ => Level start start') (request_line limits start a) (request_line limits start' b) := by
  have hround : ∀ a b, Level start start' a b → (∃ a' b', request_round limits start a = some (.next a') ∧
        request_round limits start' b = some (.next b') ∧ Level start start' a' b' ∧
          a'.pending.length < a.pending.length) ∨
        ∃ p q, request_round limits start a = some (.done p) ∧
          request_round limits start' b = some (.done q) ∧ Agree (fun _ => Level start start') p q := by
    intro a b h
    obtain ⟨⟨answer, a'⟩, ⟨answer', b'⟩, hp, hq, hsame, hok⟩ := next_line_agrees limits h
    subst hsame
    unfold request_round
    rw [hp, hq]
    cases answer with
    | error refused => exact .inr ⟨_, _, rfl, rfl, agree_error _ _ _⟩
    | ok text =>
      obtain ⟨hlevel, hlt⟩ := hok text rfl
      dsimp only
      by_cases hblank : text ≠ []
      · rw [if_pos hblank, if_pos hblank]
        exact .inr ⟨_, _, rfl, rfl, agree_ok hlevel⟩
      · rw [if_neg hblank, if_neg hblank]
        exact .inl ⟨a', b', rfl, rfl, hlevel, hlt⟩
  unfold request_line Agrees
  rw [← h.pending]
  exact loop_total₂ hround _ a b h (Nat.lt_succ_self _)

theorem header_lines_agrees (limits : Limits) (h : Level start start' a b) :
    Agrees (fun _ => Level start start') (header_lines limits start a) (header_lines limits start' b) := by
  have hround : ∀ s t : Values × Input, s.1 = t.1 ∧ Level start start' s.2 t.2 →
      (∃ s' t', header_round limits start s = some (.next s') ∧
        header_round limits start' t = some (.next t') ∧ (s'.1 = t'.1 ∧ Level start start' s'.2 t'.2) ∧
          s'.2.pending.length < s.2.pending.length) ∨
        ∃ p q, header_round limits start s = some (.done p) ∧
          header_round limits start' t = some (.done q) ∧ Agree (fun _ => Level start start') p q := by
    rintro ⟨values, a⟩ ⟨values', b⟩ ⟨rfl, h⟩
    obtain ⟨⟨answer, a'⟩, ⟨answer', b'⟩, hp, hq, hsame, hok⟩ := next_line_agrees limits h
    subst hsame
    unfold header_round
    rw [hp, hq]
    cases answer with
    | error refused => exact .inr ⟨_, _, rfl, rfl, agree_error _ _ _⟩
    | ok text =>
      obtain ⟨hlevel, hlt⟩ := hok text rfl
      dsimp only
      by_cases hblank : text = []
      · rw [if_pos hblank, if_pos hblank]
        exact .inr ⟨_, _, rfl, rfl, agree_ok hlevel⟩
      rw [if_neg hblank, if_neg hblank]
      cases field text with
      | error why => exact .inr ⟨_, _, rfl, rfl, agree_error _ _ _⟩
      | ok got => exact .inl ⟨_, _, rfl, rfl, ⟨rfl, hlevel⟩, hlt⟩
  unfold header_lines Agrees
  rw [← h.pending]
  exact loop_total₂ hround _ ([], a) ([], b) ⟨rfl, h⟩ (Nat.lt_succ_self _)

/-- Two inputs with the same bytes to come give the same head, or the same refusal. -/
theorem read_head_agrees (limits : Limits) (h : Alike a b) : Agrees (fun _ => Alike) (read_head a limits) (read_head b limits) := by
  have hlevel : Level a.taken b.taken a b := ⟨h, Nat.add_comm _ _⟩
  obtain ⟨⟨answer, a₁⟩, ⟨answer', b₁⟩, hp, hq, hsame, hok⟩ := request_line_agrees limits hlevel
  subst hsame
  unfold read_head Agrees
  dsimp only
  rw [hp, hq]
  cases answer with
  | error refused => exact ⟨_, _, rfl, rfl, agree_error _ _ _⟩
  | ok text =>
    dsimp only
    cases request_parts text with
    | error refused => exact ⟨_, _, rfl, rfl, agree_error _ _ _⟩
    | ok request =>
      obtain ⟨⟨values, a₂⟩, ⟨values', b₂⟩, hp, hq, hsame, hok⟩ := header_lines_agrees limits (hok text rfl)
      dsimp only at hsame hok ⊢
      subst hsame
      rw [hp, hq]
      cases values with
      | error refused => exact ⟨_, _, rfl, rfl, agree_error _ _ _⟩
      | ok values =>
        have hread := hok values rfl
        have hspent : a₂.taken - a.taken = b₂.taken - b.taken := by
          have htaken := hread.taken
          omega
        refine ⟨_, _, rfl, rfl, ?_, fun _ _ => hread.toAlike⟩
        rw [hspent]

/-! ## What a head takes -/

/-- A reading that leaves a head to be read on from, where it goes well. -/
def Starts (a : Input) (p : Except Refused Bytes × Input) : Prop :=
  ∀ text, p.1 = .ok text → ∃ before, a.pending = before ++ p.2.pending ∧ p.2.source.ending = a.source.ending ∧
      ∀ h, FieldLines h → HeadLines (before ++ h)

/-- A reading of header lines takes them, where it goes well. -/
def Ends (a : Input) (p : Except Refused Values × Input) : Prop :=
  ∀ values, p.1 = .ok values → ∃ h, a.pending = h ++ p.2.pending ∧ p.2.source.ending = a.source.ending ∧ FieldLines h

end Cosmic.Http
