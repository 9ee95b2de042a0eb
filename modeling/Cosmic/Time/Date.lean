/-
Dates and local times on the calendar of a zone: `resolve`, `from_civil` and `parse_date`.

A zone that is not given is UTC. A table of fields is built by the readers here, so every field is
there but the offset.
-/
import Cosmic.Time.Duration
import Cosmic.Time.Zone
import Mathlib.Data.List.Sort

set_option autoImplicit false

namespace Cosmic.Time

open Cosmic.Base

/-- `Time.CivilFields` -/
structure CivilFields where
  year : ℤ
  month : ℤ
  day : ℤ
  hour : ℤ
  minute : ℤ
  second : ℤ
  ns : ℤ
  offset : Option ℤ

/-- What a local time that a zone skipped or passed twice is taken as. -/
inductive Disambiguation where
  | reject
  | earlier
  | later
  | compatible
deriving DecidableEq

/-! ## Texts -/

/-- `%0<width>d` -/
def padded (width : ℕ) (n : ℤ) : Bytes :=
  let digits := tostring n.natAbs
  if n < 0 then 45 :: (List.replicate (width - 1 - digits.length) 48 ++ digits)
  else List.replicate (width - digits.length) 48 ++ digits

/-- `civil_text(c, "minute")` -/
def civil_minute (c : CivilFields) : Bytes :=
  padded 4 c.year ++ lit "-" ++ padded 2 c.month ++ lit "-" ++ padded 2 c.day ++ lit "T" ++ padded 2 c.hour ++ lit ":" ++
    padded 2 c.minute

/-- `offset` seconds east of UTC as RFC 3339 writes one, with seconds after when it has any. -/
def offset_text (offset : ℤ) : Bytes :=
  let a : ℤ := offset.natAbs
  let text := (if offset < 0 then lit "-" else lit "+") ++ padded 2 (a / 3600) ++ lit ":" ++ padded 2 (a % 3600 / 60)
  if a % 60 ≠ 0 then text ++ lit ":" ++ padded 2 (a % 60) else text

/-! ## Moments -/

def RANGE : Bytes :=
  lit "outside 1677-09-21T00:12:43.145224192Z through 2262-04-11T23:47:16.854775807Z, what an integer of nanoseconds holds"

/-- Why `value`, the field `name`, is not from `lo` through `hi`. -/
def outside (name : Bytes) (value lo hi : ℤ) : Option Bytes :=
  if value < lo ∨ value > hi then
    some (name ++ lit " " ++ d_text value ++ lit " is not " ++ d_text lo ++ lit " through " ++ d_text hi)
  else none

/-- The seconds the fields of `c` name on the UTC calendar. -/
def seconds_of (c : CivilFields) : Except Bytes ℤ :=
  match outside (lit "year") c.year (-2 ^ 63) (2 ^ 63 - 1) <|> outside (lit "month") c.month 1 12 with
  | some why => .error why
  | none =>
    if c.year < 1676 ∨ c.year > 2263 then .error RANGE
    else
      match outside (lit "day") c.day 1 (month_days c.year c.month) <|> outside (lit "hour") c.hour 0 23 <|>
          outside (lit "minute") c.minute 0 59 <|> outside (lit "second") c.second 0 59 <|>
          outside (lit "ns") c.ns 0 (NS - 1) with
      | some why => .error why
      | none => .ok (days_from_civil c.year c.month c.day * DAY + c.hour * 3600 + c.minute * 60 + c.second)

def MIN_NS : ℤ := -2 ^ 63 % NS

def MAX_NS : ℤ := (2 ^ 63 - 1) % NS

/-- The nanoseconds `s` seconds and `n` nanoseconds past the epoch name. -/
def instant (s n : ℤ) : Except Bytes ℤ :=
  if s < MIN_S ∨ (s = MIN_S ∧ n < MIN_NS) ∨ s > MAX_S ∨ (s = MAX_S ∧ n > MAX_NS) then .error RANGE else .ok (s * NS + n)

/-- The nanoseconds of a calendar moment `offset` seconds east of UTC. -/
def moment (c : CivilFields) (offset : ℤ) : Except Bytes ℤ :=
  match seconds_of c with
  | .error why => .error why
  | .ok s => instant (s - offset) c.ns

/-! ## Local times -/

/-- The moments a local time `s` names, in order. -/
def named (rules : Rules) (s : ℤ) : List ℤ :=
  (((offsets_near rules s).filter fun offset => (kind_at rules (s - offset)).offset = offset).map (s - ·)).insertionSort (· ≤ ·)

/-- The seconds that the local time of `c` names on the calendar of `zone`. -/
def resolve (c : CivilFields) (zone : Option Zone) (how : Disambiguation) : Except Bytes ℤ :=
  match zone with
  | none => seconds_of c
  | some zone =>
    match seconds_of c with
    | .error why => .error why
    | .ok s =>
      let rules := zone.rules
      let offsets := offsets_near rules s
      let found := named rules s
      let lowest := offsets.foldl min (item offsets 1 0)
      let highest := offsets.foldl max (item offsets 1 0)
      let before := (kind_at rules (s - highest)).offset
      let after := (kind_at rules (s - lowest)).offset
      if found.length = 0 then
        if how = .reject then
          .error (civil_minute c ++ lit " does not exist in " ++ zone.name ++ lit ": clocks moved from " ++
            offset_text before ++ lit " to " ++ offset_text after)
        else .ok (if how = .earlier then s - after else s - before)
      else if found.length = 1 then .ok (item found 1 0)
      else
        -- The last of them that has the offset of `c`.
        match (found.filter fun t => some (s - t) = c.offset).getLast? with
        | some chosen => .ok chosen
        | none =>
          if how = .reject then
            .error (civil_minute c ++ lit " happens twice in " ++ zone.name ++ lit ": clocks moved from " ++
              offset_text before ++ lit " to " ++ offset_text after ++
              lit "; disambiguation \"earlier\" or \"later\" picks one")
          else .ok (if how = .later then item found found.length 0 else item found 1 0)

/-- `Time.from_civil(c, zone, { disambiguation = how })` -/
def from_civil (c : CivilFields) (zone : Option Zone) (how : Disambiguation) : Except Bytes ℤ :=
  match resolve c zone how with
  | .error why => .error (refuse why)
  | .ok s =>
    match instant s c.ns with
    | .error range_why => .error (refuse range_why)
    | .ok ns => .ok ns

/-! ## Dates -/

/-- `YYYY-MM-DD` at the cursor. -/
def date_into (text : Bytes) (cur : Cursor) : CivilFields × Cursor :=
  let (year, cur) := read_digits text cur 4 (lit "year") none
  let cur := expect text cur (lit "-") (lit "after the year")
  let (month, cur) := read_digits text cur 2 (lit "month") none
  let cur := expect text cur (lit "-") (lit "after the month")
  let (day, cur) := read_digits text cur 2 (lit "day") none
  ({ year := year, month := month, day := day, hour := 0, minute := 0, second := 0, ns := 0, offset := none }, cur)

/-- `Time.parse_date(text, zone)` -/
def parse_date (text : Bytes) (zone : Option Zone) : Except Bytes ℤ :=
  let (c, cur) := date_into text cursor
  let cur := finish text cur
  match cur.why with
  | some why => .error (refuse why)
  | none =>
    match zone with
    | none =>
      match moment c 0 with
      | .error range_why => .error (refuse range_why)
      | .ok ns => .ok ns
    | some z =>
      match seconds_of c with
      | .error midnight_why => .error (refuse midnight_why)
      | .ok midnight =>
        match from_civil c (some z) .earlier with
        | .error earliest_why => .error earliest_why
        | .ok earliest =>
          let lo := earliest / NS
          if lo + (kind_at z.rules lo).offset = midnight then .ok earliest
          else
            -- Skipped: find the first second whose local time has reached the day.
            let hi := close_in (fun mid => mid + (kind_at z.rules mid).offset ≥ midnight) (2 * DAY).toNat lo (lo + 2 * DAY)
            match instant hi 0 with
            | .error range_why => .error (refuse range_why)
            | .ok ns => .ok ns

end Cosmic.Time
