/-
Readers that are fed a stream in pieces.

A reader's feeds answer what the bytes so far say. A reader reads by a judgement of whole strings when
each feed answers what the judgement says of everything fed; whatever the cuts, it then ends as one
feed of the whole string does. The rule asks for what the state holds after the bytes fed, and for
what one feed makes of it.
-/
import Cosmic.Base.Text
import Mathlib.Data.List.Induction
import Mathlib.Data.Nat.Find

set_option autoImplicit false

namespace Cosmic.Base

open List

variable {σ α : Type}

/-- A reader: the state it starts in, and what a feed makes of a state. -/
structure Feeder (σ α : Type) where
  start : σ
  feed : σ → Bytes → σ × α

namespace Feeder

def after (r : Feeder σ α) (cs : List Bytes) : σ := cs.foldl (fun s c => (r.feed s c).1) r.start

/-- The answer to the feed of `c` after the feeds of `cs`. -/
def answer (r : Feeder σ α) (cs : List Bytes) (c : Bytes) : α := (r.feed (r.after cs) c).2

/-- The answers are those of `judge` to everything fed, which are final once they decide. -/
structure Reads (r : Feeder σ α) (judge : Bytes → α) (decided : α → Prop) : Prop where
  answers : ∀ cs c, r.answer cs c = judge (cs.flatten ++ c)
  final : ∀ b more, decided (judge b) → judge (b ++ more) = judge b

/-- A reader that does not depend on how its stream is cut. -/
structure SplitInvariant (r : Feeder σ α) (decided done : α → Prop) (consumed : α → ℕ) : Prop where
  /-- The last of any feeds answers what one feed of all they hold does. -/
  same : ∀ cs c, r.answer cs c = r.answer [] (cs.flatten ++ c)
  /-- Once an answer decides, every later feed repeats it. -/
  final : ∀ cs c ds d, decided (r.answer cs c) → r.answer (cs ++ c :: ds) d = r.answer cs c
  /-- No more is consumed than was fed. -/
  within : ∀ cs c, consumed (r.answer cs c) ≤ (cs.flatten ++ c).length
  /-- A reader that is done took what it consumed, and no byte after that matters. -/
  later : ∀ b b', done (r.answer [] b) → b'.take (consumed (r.answer [] b)) = b.take (consumed (r.answer [] b)) →
      r.answer [] b' = r.answer [] b
  /-- One byte of a stream is the one the reader decides at, whatever the cuts. -/
  cut : ∀ b : Bytes, ∃ k, ∀ cs c, (cs.flatten ++ c) <+: b → (decided (r.answer cs c) ↔ k ≤ (cs.flatten ++ c).length)

variable {r : Feeder σ α} {judge : Bytes → α} {decided done : α → Prop} {consumed : α → ℕ}

theorem after_append (cs : List Bytes) (c : Bytes) : r.after (cs ++ [c]) = (r.feed (r.after cs) c).1 := by
  unfold after
  rw [foldl_append]
  rfl

/-- The rule. `Open b s` is what the state holds after `b` while nothing is decided, and `Closed a s`
what it holds once `a` is. -/
theorem reads_of (Open : Bytes → σ → Prop) (Closed : α → σ → Prop)
    (hfinal : ∀ b more, decided (judge b) → judge (b ++ more) = judge b)
    (hstart : Open [] r.start)
    (hopen : ∀ b s c, Open b s → (r.feed s c).2 = judge (b ++ c) ∧ (Open (b ++ c) (r.feed s c).1 ∨
        decided (judge (b ++ c)) ∧ Closed (judge (b ++ c)) (r.feed s c).1))
    (hclosed : ∀ a s c, Closed a s → (r.feed s c).2 = a ∧ Closed a (r.feed s c).1) :
    r.Reads judge decided := by
  -- what holds of the state after any feeds, by induction on them from the last one
  have hafter : ∀ cs : List Bytes, Open cs.flatten (r.after cs) ∨
      decided (judge cs.flatten) ∧ Closed (judge cs.flatten) (r.after cs) := by
    intro cs
    induction cs using reverseRecOn with
    | nil => exact .inl hstart
    | append_singleton cs c ih =>
      rw [after_append, flatten_append, flatten_singleton]
      rcases ih with ho | ⟨hd, hc⟩
      · exact (hopen _ _ c ho).2
      · rw [hfinal _ c hd]
        exact .inr ⟨hd, (hclosed _ _ c hc).2⟩
  refine ⟨fun cs c => ?_, hfinal⟩
  rcases hafter cs with ho | ⟨hd, hc⟩
  · exact (hopen _ _ c ho).1
  · rw [hfinal _ c hd]
    exact (hclosed _ _ c hc).1

theorem Reads.whole (h : r.Reads judge decided) (b : Bytes) : r.answer [] b = judge b := h.answers [] b

theorem Reads.splitInvariant (h : r.Reads judge decided) (hdone : ∀ b, done (judge b) → decided (judge b))
    (hwithin : ∀ b, consumed (judge b) ≤ b.length)
    (hlater : ∀ b, done (judge b) → judge (b.take (consumed (judge b))) = judge b) :
    r.SplitInvariant decided done consumed := by
  constructor
  · intro cs c
    rw [h.answers, h.whole]
  · intro cs c ds d hd
    rw [h.answers] at hd
    have hjoin : (cs ++ c :: ds).flatten ++ d = (cs.flatten ++ c) ++ (ds.flatten ++ d) := by
      simp
    rw [h.answers, h.answers, hjoin]
    exact h.final _ _ hd
  · intro cs c
    rw [h.answers]
    exact hwithin _
  · intro b b' hd htake
    rw [h.whole] at hd htake
    rw [h.whole, h.whole]
    have htaken : judge (b'.take (consumed (judge b))) = judge b := by
      rw [htake]
      exact hlater b hd
    calc judge b' = judge (b'.take (consumed (judge b)) ++ b'.drop (consumed (judge b))) := by
          rw [take_append_drop]
      _ = judge (b'.take (consumed (judge b))) := by
          apply h.final
          rw [htaken]
          exact hdone b hd
      _ = judge b := htaken
  · intro b
    classical
    -- the shortest start of the stream that is decided
    by_cases hsome : ∃ k, decided (judge (b.take k))
    · refine ⟨Nat.find hsome, fun cs c hpre => ?_⟩
      have hfed : cs.flatten ++ c = b.take (cs.flatten ++ c).length := prefix_iff_eq_take.mp hpre
      rw [h.answers]
      constructor
      · intro hd
        rw [hfed] at hd
        exact Nat.find_min' hsome hd
      · intro hle
        have hk := Nat.find_spec hsome
        have hstart : b.take (Nat.find hsome) <+: cs.flatten ++ c := by
          rw [hfed]
          exact take_prefix_take_left hle
        obtain ⟨more, hmore⟩ := hstart
        rwa [← hmore, h.final _ _ hk]
    · refine ⟨b.length + 1, fun cs c hpre => ?_⟩
      rw [h.answers]
      constructor
      · intro hd
        rw [prefix_iff_eq_take.mp hpre] at hd
        exact absurd ⟨_, hd⟩ hsome
      · intro hle
        exact absurd hpre.length_le (by omega)

end Feeder

namespace Feeder

variable {r : Feeder σ α} {judge : Bytes → α} {decided done : α → Prop} {consumed : α → ℕ}

/-- A reader that is done with whole messages only, each of which it reads whatever follows. -/
theorem Reads.splitInvariant_of_messages {Message : Bytes → α → Prop} (h : r.Reads judge decided)
    (hdone : ∀ b, done (judge b) → decided (judge b))
    (hconsumed : ∀ b, ¬done (judge b) → consumed (judge b) = 0)
    (hread : ∀ m a rest, Message m a → judge (m ++ rest) = a ∧ consumed a = m.length)
    (hmessage : ∀ b, done (judge b) → ∃ m a rest, Message m a ∧ b = m ++ rest) :
    r.SplitInvariant decided done consumed := by
  apply h.splitInvariant hdone
  · intro b
    by_cases hd : done (judge b)
    · obtain ⟨m, a, rest, hm, rfl⟩ := hmessage b hd
      rw [(hread m a rest hm).1, (hread m a rest hm).2, length_append]
      exact Nat.le_add_right _ _
    · rw [hconsumed b hd]
      exact Nat.zero_le _
  · intro b hd
    obtain ⟨m, a, rest, hm, rfl⟩ := hmessage b hd
    have hwhole := (hread m a [] hm).1
    rw [append_nil] at hwhole
    rw [(hread m a rest hm).1, (hread m a rest hm).2, take_left, hwhole]

/-- What follows a message that was read, and then what follows that. -/
theorem Reads.drop_append (h : r.Reads judge decided) (hs : r.SplitInvariant decided done consumed) {b : Bytes}
    (hd : decided (judge b)) (more : Bytes) :
    (b ++ more).drop (consumed (judge (b ++ more))) = b.drop (consumed (judge b)) ++ more := by
  have hwithin := hs.within [] b
  rw [h.whole, flatten_nil, nil_append] at hwithin
  rw [h.final b more hd, drop_append_of_le_length hwithin]

/-- The state of a reader that was fed `all`, in any pieces. -/
def Fed (r : Feeder σ α) (st : σ) (all : Bytes) : Prop := ∃ cs, st = r.after cs ∧ cs.flatten = all

/-- One more feed of a reader. -/
theorem Reads.feed_fed (h : r.Reads judge decided) {st : σ} {all : Bytes} (hfed : r.Fed st all) (data : Bytes) :
    (r.feed st data).2 = judge (all ++ data) ∧ r.Fed (r.feed st data).1 (all ++ data) := by
  obtain ⟨cs, rfl, rfl⟩ := hfed
  refine ⟨h.answers cs data, cs ++ [data], (after_append cs data).symm, ?_⟩
  rw [flatten_append, flatten_singleton]

theorem fed_start (r : Feeder σ α) : r.Fed r.start [] := ⟨[], rfl, rfl⟩

end Feeder

/-! ## Reading what is held again -/

/-- What `x` decides, `y` decides alike. -/
def Settled (decided : α → Prop) (x y : α) : Prop := decided x → y = x

namespace Settled

variable {decided : α → Prop} {a b x y wait : α}

theorem refl (x : α) : Settled decided x x := fun _ => rfl

/-- More bytes than there are: with more of them, what follows is asked. -/
theorem need {buf : Bytes} (more : Bytes) {n : ℕ} (hwait : ¬decided wait) (h : n ≤ buf.length → Settled decided x y) :
    Settled decided (if buf.length < n then wait else x) (if (buf ++ more).length < n then wait else y) := by
  intro hd
  by_cases hn : buf.length < n
  · rw [if_pos hn] at hd
    exact absurd hd hwait
  · have hle : n ≤ buf.length := Nat.le_of_not_lt hn
    rw [if_neg hn] at hd
    rw [if_neg hn, if_neg (by rw [length_append]; omega)]
    exact h hle hd

theorem test {p : Prop} [Decidable p] (ha : p → Settled decided a b) (hx : ¬p → Settled decided x y) :
    Settled decided (if p then a else x) (if p then b else y) := by
  by_cases hp : p
  · rw [if_pos hp, if_pos hp]
    exact ha hp
  · rw [if_neg hp, if_neg hp]
    exact hx hp

end Settled

/-! ## What a reading got past -/

section

variable {P : α → Prop} {p : Prop} [Decidable p] {a x wait : α}

theorem of_need {buf : Bytes} {n : ℕ} (h : P (if buf.length < n then wait else x))
    (hwait : ¬P wait) : n ≤ buf.length ∧ P x := by
  by_cases hn : buf.length < n
  · rw [if_pos hn] at h
    exact absurd h hwait
  · rw [if_neg hn] at h
    exact ⟨Nat.le_of_not_lt hn, h⟩

theorem of_failed (h : P (if p then a else x)) (ha : ¬P a) : ¬p ∧ P x := by
  by_cases hp : p
  · rw [if_pos hp] at h
    exact absurd h ha
  · rw [if_neg hp] at h
    exact ⟨hp, h⟩

theorem of_passed (h : P (if p then a else x)) (hx : ¬P x) : p ∧ P a := by
  by_cases hp : p
  · rw [if_pos hp] at h
    exact ⟨hp, h⟩
  · rw [if_neg hp] at h
    exact absurd h hx

end

end Cosmic.Base
