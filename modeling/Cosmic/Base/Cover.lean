/-
Cutting a text into pieces.

A reader goes over a text once. It cuts pieces out of it and skips what lies between them, and
`Cover` says that it has done nothing else up to a position: the pieces are in order, each is
the text at its place, and what no piece holds was skipped.
-/
import Cosmic.Base.Search

set_option autoImplicit false

namespace Cosmic.Base

open List Nat

/-- A text and the position of its first byte. -/
structure Piece where
  offset : ℕ
  text : Bytes

namespace Piece

def stop (p : Piece) : ℕ := p.offset + p.text.length

/-- The position `k` is one of the piece's. -/
def Holds (p : Piece) (k : ℕ) : Prop := p.offset ≤ k ∧ k < p.stop

/-- The piece is the text of `s` at its place. -/
def IsOf (s : Bytes) (p : Piece) : Prop := 1 ≤ p.offset ∧ p.stop ≤ s.length + 1 ∧ p.text = sub s p.offset (p.stop - 1)

def Before (p q : Piece) : Prop := p.offset < q.offset ∧ p.stop ≤ q.offset

end Piece

/-- Up to position `i` the text `s` is the pieces `out`, in order, and skipped positions. -/
inductive Cover (skipped : ℕ → Prop) (s : Bytes) : ℕ → List Piece → Prop where
  | start : Cover skipped s 1 []
  | skip {i : ℕ} {out : List Piece} (h : Cover skipped s i out) (hskip : skipped i) :
      Cover skipped s (i + 1) out
  | piece {i e : ℕ} {out : List Piece} (h : Cover skipped s i out) (hie : i ≤ e)
      (he : e ≤ s.length) : Cover skipped s (e + 1) (out ++ [⟨i, sub s i e⟩])

namespace Cover

variable {skipped : ℕ → Prop} {s : Bytes} {i : ℕ} {out : List Piece}

theorem pos (h : Cover skipped s i out) : 1 ≤ i := by
  induction h with
  | start => exact Nat.le_refl 1
  | skip => exact Nat.le_add_left 1 _
  | piece => exact Nat.le_add_left 1 _

theorem skip_to (h : Cover skipped s i out) {j : ℕ} (hij : i ≤ j)
    (hskip : ∀ k, i ≤ k → k < j → skipped k) : Cover skipped s j out := by
  induction j, hij using Nat.le_induction with
  | base => exact h
  | succ j hij ih =>
    have hj := ih fun k hik hkj => hskip k hik (lt_succ_of_lt hkj)
    exact .skip hj (hskip j hij (Nat.lt_succ_self j))

theorem stop_piece (hi : 1 ≤ i) {e : ℕ} (hie : i ≤ e) (he : e ≤ s.length) :
    (⟨i, sub s i e⟩ : Piece).stop = e + 1 := by
  rw [Piece.stop, sub_length hi (by omega) he]
  show i + (e + 1 - i) = e + 1
  omega

theorem stop_le (h : Cover skipped s i out) : ∀ p ∈ out, p.offset < i ∧ p.stop ≤ i := by
  induction h with
  | start => simp
  | skip h hskip ih =>
    intro p hp
    have hlt := ih p hp
    omega
  | @piece i e out h hie he ih =>
    intro p hp
    rcases mem_append.mp hp with hold | hnew
    · have hlt := ih p hold
      omega
    · rw [mem_singleton.mp hnew, stop_piece h.pos hie he]
      exact ⟨lt_succ_of_le hie, Nat.le_refl _⟩

theorem isOf (h : Cover skipped s i out) : ∀ p ∈ out, p.IsOf s := by
  induction h with
  | start => simp
  | skip h hskip ih => exact ih
  | @piece i e out h hie he ih =>
    intro p hp
    rcases mem_append.mp hp with hold | hnew
    · exact ih p hold
    · rw [mem_singleton.mp hnew, Piece.IsOf, stop_piece h.pos hie he]
      exact ⟨h.pos, succ_le_succ he, rfl⟩

theorem ordered (h : Cover skipped s i out) : out.Pairwise Piece.Before := by
  induction h with
  | start => exact List.Pairwise.nil
  | skip h hskip ih => exact ih
  | piece h hie he ih =>
    refine pairwise_append.mpr ⟨ih, pairwise_singleton _ _, fun p hp q hq => ?_⟩
    rw [mem_singleton.mp hq]
    exact h.stop_le p hp

/-- Every position passed is a piece's or was skipped. -/
theorem accounted (h : Cover skipped s i out) : ∀ k, 1 ≤ k → k < i → (∃ p ∈ out, p.Holds k) ∨ skipped k := by
  induction h with
  | start =>
    intro k h₁ h₂
    omega
  | @skip i out h hskip ih =>
    intro k h₁ h₂
    rcases Nat.lt_or_ge k i with hlt | hge
    · exact ih k h₁ hlt
    · rw [show k = i by omega]
      exact Or.inr hskip
  | @piece i e out h hie he ih =>
    intro k h₁ h₂
    rcases Nat.lt_or_ge k i with hlt | hge
    · rcases ih k h₁ hlt with ⟨p, hp, hk⟩ | hskip
      · exact Or.inl ⟨p, mem_append_left _ hp, hk⟩
      · exact Or.inr hskip
    · refine Or.inl ⟨_, mem_append_right _ mem_cons_self, hge, ?_⟩
      rwa [stop_piece h.pos hie he]

end Cover

end Cosmic.Base
