/-
Where a reader of a text is, and why it stopped.

The first failure is kept, and every read after it answers 0 and moves nothing, so a run of reads is
checked once, at its end. The text is not part of the cursor here: each reader is given it.
-/
import Cosmic.Base.Numeral

set_option autoImplicit false

namespace Cosmic.Time

open Cosmic.Base Option

/-- Where the next read starts, and why a read failed, if one has. -/
structure Cursor where
  at_ : ℕ
  why : Option Bytes

def cursor : Cursor := { at_ := 1, why := none }

/-- Fails the cursor with `why`, unless it has failed already. -/
def fail (cur : Cursor) (why : Bytes) : Cursor :=
  match cur.why with
  | none => { cur with why := some why }
  | some _ => cur

/-- `String.counted(n, singular)` -/
def counted (n : ℕ) (singular : Bytes) : Bytes := tostring n ++ lit " " ++ if n = 1 then singular else singular ++ lit "s"

/-- The integer of the `most` digits at the cursor, or of at least `least` of them. -/
def read_digits (text : Bytes) (cur : Cursor) (most : ℕ) (what : Bytes) (least : Option ℕ) : ℕ × Cursor :=
  match cur.why with
  | some _ => (0, cur)
  | none =>
    let digits := ((text.drop (cur.at_ - 1)).take most).takeWhile isDigit
    if digits.length < least.getD most then
      (0, fail cur (what ++ lit ": expected " ++
        (if least = none then counted most (lit "digit") else lit "a number") ++ lit " at byte " ++ tostring cur.at_))
    else (digits_value 10 digits, { cur with at_ := cur.at_ + digits.length })

/-- Moves past `want`, or fails. A `T` is read as `t` too. -/
def expect (text : Bytes) (cur : Cursor) (want what : Bytes) : Cursor :=
  match cur.why with
  | some _ => cur
  | none =>
    let got := (text.drop (cur.at_ - 1)).take want.length
    if got ≠ want ∧ ¬(want = lit "T" ∧ got = lit "t") then
      fail cur (lit "expected \"" ++ want ++ lit "\" " ++ what ++ lit " at byte " ++ tostring cur.at_)
    else { cur with at_ := cur.at_ + want.length }

/-- Moves past `want` and answers true where the text holds it here. -/
def accept (text : Bytes) (cur : Cursor) (want : Bytes) : Bool × Cursor :=
  match cur.why with
  | some _ => (false, cur)
  | none =>
    if (text.drop (cur.at_ - 1)).take want.length = want then (true, { cur with at_ := cur.at_ + want.length })
    else (false, cur)

/-- Fails where any text is left. -/
def finish (text : Bytes) (cur : Cursor) : Cursor :=
  match cur.why with
  | some _ => cur
  | none =>
    if cur.at_ ≤ text.length then fail cur (lit "unexpected text at byte " ++ tostring cur.at_) else cur

/-! ## What failed stays failed -/

theorem fail_failed (cur : Cursor) (why : Bytes) : (fail cur why).why ≠ none := by
  unfold fail
  cases h : cur.why with
  | none => exact some_ne_none _
  | some w =>
    rw [h]
    exact some_ne_none w

theorem read_digits_kept {text : Bytes} {cur : Cursor} {most : ℕ} {what : Bytes} {least : Option ℕ}
    (h : (read_digits text cur most what least).2.why = none) : cur.why = none := by
  unfold read_digits at h
  cases hw : cur.why with
  | none => rfl
  | some w =>
    rw [hw] at h
    exact hw.symm.trans h

theorem expect_kept (text : Bytes) (cur : Cursor) (want what : Bytes) (h : (expect text cur want what).why = none) :
    cur.why = none := by
  unfold expect at h
  cases hw : cur.why with
  | none => rfl
  | some w =>
    rw [hw] at h
    exact hw.symm.trans h

theorem accept_why (text : Bytes) (cur : Cursor) (want : Bytes) : (accept text cur want).2.why = cur.why := by
  unfold accept
  cases hw : cur.why with
  | none =>
    dsimp only
    split
    · rfl
    · exact hw
  | some w => exact hw

theorem finish_kept {text : Bytes} {cur : Cursor} (h : (finish text cur).why = none) : cur.why = none := by
  unfold finish at h
  cases hw : cur.why with
  | none => rfl
  | some w =>
    rw [hw] at h
    exact hw.symm.trans h

end Cosmic.Time
