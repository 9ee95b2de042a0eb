/-
Durations, as `parse_duration` reads them from a text and `format_duration` writes them.

A text is read a number and its unit at a time. The reader's place is what is left of the text and
the byte that begins at; what one number and unit come to is `read_unit`, and the loop over them is
`round`. Numbers have at most nine digits, so the sums of seconds fit 64 bits; the exact part is
checked before it is made nanoseconds. `format_duration` takes the exact part's absolute value,
which for the least integer is that integer again.
-/
import Cosmic.Base.Loop
import Cosmic.Base.Window
import Cosmic.Time.Cursor
import Mathlib.Data.List.DropRight

set_option autoImplicit false

namespace Cosmic.Time

open Cosmic.Base

def NS : ℤ := 1000000000

/-- The seconds of the first moment and of the last, moments being nanoseconds in 64 bits. -/
def MIN_S : ℤ := -2 ^ 63 / NS

def MAX_S : ℤ := (2 ^ 63 - 1) / NS

/-- `Time.Duration`: a missing field is zero. -/
structure Duration where
  years : Option ℤ
  months : Option ℤ
  days : Option ℤ
  ns : Option ℤ
deriving DecidableEq

def refuse (why : Bytes) : Bytes := lit "time: " ++ why

def fraction_ns (digits : Bytes) : ℕ := digits_value 10 (digits ++ List.replicate (9 - digits.length) 48)

/-- `("%09d"):format(ns)` -/
def nine_digits (ns : ℕ) : Bytes := List.replicate (9 - (tostring ns).length) 48 ++ tostring ns

/-- The fraction `ns` nanoseconds write as, in as few digits as hold it. -/
def fraction_text (ns : ℕ) : Bytes := (nine_digits ns).rdropWhile (· == 48)

/-! ## Reading -/

/-- The most seconds a duration's exact part holds. -/
def MAX_SPAN_S : ℤ := (2 ^ 63 - 1) / NS

/-- The number written before each unit, 0 for a unit left out. -/
structure Spelled where
  years : ℕ
  months : ℕ
  days : ℕ
  hours : ℕ
  minutes : ℕ
  seconds : ℕ
deriving DecidableEq

def units : List Bytes := [lit "y", lit "mo", lit "d", lit "h", lit "m", lit "s"]

/-- `units[unit]` -/
def unit_name (unit : ℕ) : Bytes := units.getD (unit - 1) []

/-- The number of the unit that the text starts with, 0 where it starts with none. -/
def unit_of (rest : Bytes) : ℕ :=
  if rest.take 2 = lit "mo" then 2
  else units.zipIdx.foldl (fun unit name => if rest.take 1 = name.1 then name.2 + 1 else unit) 0

/-- The fields with `value` for a unit. -/
def Spelled.set (spelled : Spelled) (unit value : ℕ) : Spelled :=
  if unit = 1 then { spelled with years := value }
  else if unit = 2 then { spelled with months := value }
  else if unit = 3 then { spelled with days := value }
  else if unit = 4 then { spelled with hours := value }
  else if unit = 5 then { spelled with minutes := value }
  else { spelled with seconds := value }

/-- Where the reader is: what is left of the text and the byte that begins at, the last unit read,
and what was spelled so far. -/
structure State where
  rest : Bytes
  at_ : ℕ
  seen : ℕ
  spelled : Spelled
  fraction : ℕ

/-- The unit at the place after a number's digits, the fraction before it if there is one (else the
fraction so far), and how many bytes the fraction takes. -/
def read_unit (rest : Bytes) (at_ fraction : ℕ) : Except Bytes (ℕ × ℕ × ℕ) :=
  if rest.take 1 = lit "." then
    -- `^%.(%d+)s`: all the digits there are, and then the unit.
    let frac := (rest.drop 1).takeWhile isDigit
    if frac = [] ∨ (rest.drop (1 + frac.length)).take 1 ≠ lit "s" ∨ frac.length > 9 then
      .error (refuse (lit "expected 1 to 9 digits of fraction and then \"s\" at byte " ++ tostring at_))
    else .ok (6, fraction_ns frac, 1 + frac.length)
  else .ok (unit_of rest, fraction, 0)

/-- A round of the loop: a number and its unit. -/
def round (s : State) : Round State (Except Bytes (Spelled × ℕ)) :=
  if s.rest = [] then .done (.ok (s.spelled, s.fraction))
  else
    let digits := s.rest.takeWhile isDigit
    if digits = [] then
      .done (.error (refuse (lit "expected a number at byte " ++ tostring s.at_ ++ lit " of the duration")))
    else if digits.length > 9 then
      .done (.error (refuse (lit "the number at byte " ++ tostring s.at_ ++ lit " has " ++
        counted digits.length (lit "digit") ++ lit ": at most 9")))
    else
      let at_ := s.at_ + digits.length
      match read_unit (s.rest.drop digits.length) at_ s.fraction with
      | .error why => .done (.error why)
      | .ok (unit, fraction, taken) =>
        let at_ := at_ + taken
        if unit = 0 then
          .done (.error (refuse (lit "expected a unit y, mo, d, h, m or s at byte " ++ tostring at_ ++
            lit " of the duration")))
        else if unit ≤ s.seen then
          .done (.error (refuse (lit "unit " ++ unit_name unit ++ lit " at byte " ++ tostring at_ ++
            lit " is repeated or out of order: y, mo, d, h, m, s")))
        else
          .next
            { rest := s.rest.drop (digits.length + taken + (unit_name unit).length)
              at_ := at_ + (unit_name unit).length
              seen := unit
              spelled := s.spelled.set unit (digits_value 10 digits)
              fraction := fraction }

def duration_of (sign : ℤ) (spelled : Spelled) (fraction : ℕ) : Except Bytes Duration :=
  let seconds : ℤ := spelled.hours * 3600 + spelled.minutes * 60 + spelled.seconds
  if seconds > MAX_SPAN_S ∨ (seconds = MAX_SPAN_S ∧ fraction > (2 ^ 63 - 1) % NS) then
    .error (refuse (lit "the hours, minutes and seconds are more than 292 years"))
  else
    .ok
      { years := some (sign * spelled.years)
        months := some (sign * spelled.months)
        days := some (sign * spelled.days)
        ns := some (sign * (seconds * NS + fraction)) }

def sign_at (text : Bytes) : ℤ × Bool :=
  if text.take 1 = lit "-" then (-1, true) else if text.take 1 = lit "+" then (1, true) else (1, false)

/-- `Time.parse_duration(text)`: `none` is a loop with no end, which there is not. -/
def parse_duration (text : Bytes) : Option (Except Bytes Duration) :=
  let (sign, written) := sign_at text
  let at_ := if written then 2 else 1
  let rest := text.drop (at_ - 1)
  if rest = [] then
    some (.error (refuse (lit "expected a duration such as 1y2mo3d4h5m6s, not nothing")))
  else
    (loop (fun s => some (round s)) (rest.length + 1)
      { rest := rest, at_ := at_, seen := 0, spelled := ⟨0, 0, 0, 0, 0, 0⟩, fraction := 0 }).map fun result =>
        match result with
        | .error why => .error why
        | .ok (spelled, fraction) => duration_of sign spelled fraction

/-! ## Writing -/

/-- `math.abs(n)`, which wraps around. -/
def math_abs (n : ℤ) : ℤ := signed n.natAbs

/-- `("%d"):format(n)` -/
def d_text (n : ℤ) : Bytes := if n < 0 then 45 :: tostring n.natAbs else tostring n.natAbs

/-- What `put` adds to the parts. -/
def put (n : ℤ) (unit : Bytes) : List Bytes := if n ≠ 0 then [d_text (math_abs n) ++ unit] else []

def put_seconds (seconds nanos : ℤ) : List Bytes :=
  if seconds ≠ 0 ∨ nanos ≠ 0 then
    [d_text seconds ++ (if nanos ≠ 0 then lit "." ++ fraction_text nanos.toNat else []) ++ lit "s"]
  else []

/-- `Time.format_duration(d)`, or what it raises. -/
def format_duration (d : Duration) : Except Bytes Bytes :=
  let years := d.years.getD 0
  let months := d.months.getD 0
  let days := d.days.getD 0
  let ns := d.ns.getD 0
  let negative := years < 0 ∨ months < 0 ∨ days < 0 ∨ ns < 0
  if negative ∧ (years > 0 ∨ months > 0 ∨ days > 0 ∨ ns > 0) then
    .error (lit "time: a duration's fields are all of one sign")
  else
    let span := math_abs ns
    let parts := put years (lit "y") ++ put months (lit "mo") ++ put days (lit "d") ++
      put (span / (3600 * NS)) (lit "h") ++ put (span % (3600 * NS) / (60 * NS)) (lit "m") ++
      put_seconds (span % (60 * NS) / NS) (span % NS)
    if parts = [] then .ok (lit "0s") else .ok ((if negative then lit "-" else []) ++ parts.flatten)

end Cosmic.Time
