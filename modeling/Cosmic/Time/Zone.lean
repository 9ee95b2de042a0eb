/-
The proleptic Gregorian calendar over day numbers, as `days_from_civil` and `civil_from_days` count it.

Days are counted from 1970-01-01. A year is counted from its March in both, so that a leap day is
the last of a year; what is used here is that each January and each month begin as many days after
the one before as that one has, and that `civil_from_days` is never more than a year away.
-/
import Cosmic.Base.Bisect
import Cosmic.Base.Text
import Mathlib.Data.Int.Notation
import Mathlib.Tactic.Ring

set_option autoImplicit false

namespace Cosmic.Time

def DAY : ℤ := 86400

/-! ## The calendar -/

def days_from_civil (y m d : ℤ) : ℤ :=
  let y := if m ≤ 2 then y - 1 else y
  let era := y / 400
  let yoe := y - era * 400
  let doy := (153 * (if m > 2 then m - 3 else m + 9) + 2) / 5 + d - 1
  let doe := yoe * 365 + yoe / 4 - yoe / 100 + doy
  era * 146097 + doe - 719468

/-- The fields `year`, `month` and `day` of a day. -/
structure Date where
  year : ℤ
  month : ℤ
  day : ℤ
deriving DecidableEq

def civil_from_days (z : ℤ) : Date :=
  let z := z + 719468
  let era := z / 146097
  let doe := z - era * 146097
  let yoe := (doe - doe / 1460 + doe / 36524 - doe / 146096) / 365
  let doy := doe - (365 * yoe + yoe / 4 - yoe / 100)
  let mp := (5 * doy + 2) / 153
  let month := if mp < 10 then mp + 3 else mp - 9
  { year := yoe + era * 400 + (if month ≤ 2 then 1 else 0)
    month := month
    day := doy - (153 * mp + 2) / 5 + 1 }

def leap (y : ℤ) : Bool := y % 4 == 0 && (y % 100 != 0 || y % 400 == 0)

def MONTH_DAYS : List ℤ := [31, 28, 31, 30, 31, 30, 31, 31, 30, 31, 30, 31]

def month_days (y m : ℤ) : ℤ := if m = 2 ∧ leap y then 29 else MONTH_DAYS.getD (m - 1).toNat 0

def jan1 (y : ℤ) : ℤ := days_from_civil y 1 1

def year_days (y : ℤ) : ℤ := if leap y then 366 else 365

/-! ## Years -/

theorem leap_iff {y : ℤ} : leap y = true ↔ y % 4 = 0 ∧ (y % 100 ≠ 0 ∨ y % 400 = 0) := by
  simp only [leap, Bool.and_eq_true, Bool.or_eq_true, beq_iff_eq, bne_iff_ne]

theorem jan1_eq (y : ℤ) : jan1 y = 365 * (y - 1) + (y - 1) / 4 - (y - 1) / 100 + (y - 1) / 400 - 719162 := by
  simp only [jan1, days_from_civil, show (1 : ℤ) ≤ 2 by decide, if_true, show ¬(1 : ℤ) > 2 by decide, if_false]
  omega

theorem jan1_succ (y : ℤ) : jan1 (y + 1) = jan1 y + year_days y := by
  rw [jan1_eq, jan1_eq]
  unfold year_days
  by_cases h : leap y = true
  · rw [if_pos h]
    rw [leap_iff] at h
    omega
  · rw [if_neg h]
    rw [leap_iff] at h
    omega

theorem year_days_bounds (y : ℤ) : 365 ≤ year_days y ∧ year_days y ≤ 366 := by
  unfold year_days
  split <;> omega

/-- Later years begin later. -/
theorem jan1_le {y y' : ℤ} (h : y ≤ y') : jan1 y + 365 * (y' - y) ≤ jan1 y' := by
  rw [jan1_eq, jan1_eq]
  omega

/-- A day is in the year that `civil_from_days` answers, or close to it. -/
theorem year_near (z : ℤ) : jan1 ((civil_from_days z).year - 1) + 50 ≤ z ∧ z + 50 < jan1 ((civil_from_days z).year + 2) := by
  rw [jan1_eq, jan1_eq]
  unfold civil_from_days
  dsimp only
  split <;> omega

/-! ## Months -/

theorem days_from_civil_eq (y m d : ℤ) :
    days_from_civil y m d = if m ≤ 2 then 365 * (y - 1) + (y - 1) / 4 - (y - 1) / 100 + (y - 1) / 400 +
      (153 * (m + 9) + 2) / 5 + d - 719469 else 365 * y + y / 4 - y / 100 + y / 400 + (153 * (m - 3) + 2) / 5 + d - 719469 := by
  unfold days_from_civil
  by_cases h : m ≤ 2
  · simp only [if_pos h, if_neg (show ¬m > 2 by omega)]
    omega
  · simp only [if_neg h]
    omega

/-- Each month begins as many days after the one before as that one has. -/
theorem month_succ {y m : ℤ} (h₁ : 1 ≤ m) (h₂ : m < 12) :
    days_from_civil y (m + 1) 1 = days_from_civil y m 1 + month_days y m := by
  rw [days_from_civil_eq, days_from_civil_eq]
  by_cases hfeb : m = 2
  · subst hfeb
    by_cases hleap : leap y = true
    · have := leap_iff.mp hleap
      have hdays : month_days y 2 = 29 := if_pos ⟨rfl, hleap⟩
      rw [hdays, if_neg (by decide), if_pos (by decide)]
      omega
    · have := mt leap_iff.mpr hleap
      have hdays : month_days y 2 = 28 := if_neg fun h => hleap h.2
      rw [hdays, if_neg (by decide), if_pos (by decide)]
      omega
  · have hdays : month_days y m = MONTH_DAYS.getD (m - 1).toNat 0 := if_neg fun h => hfeb h.1
    rw [hdays]
    obtain rfl | rfl | rfl | rfl | rfl | rfl | rfl | rfl | rfl | rfl : m = 1 ∨ m = 3 ∨ m = 4 ∨ m = 5 ∨ m = 6 ∨
        m = 7 ∨ m = 8 ∨ m = 9 ∨ m = 10 ∨ m = 11 := by omega
    · show _ = _ + (31 : ℤ)
      omega
    · show _ = _ + (31 : ℤ)
      omega
    · show _ = _ + (30 : ℤ)
      omega
    · show _ = _ + (31 : ℤ)
      omega
    · show _ = _ + (30 : ℤ)
      omega
    · show _ = _ + (31 : ℤ)
      omega
    · show _ = _ + (31 : ℤ)
      omega
    · show _ = _ + (30 : ℤ)
      omega
    · show _ = _ + (31 : ℤ)
      omega
    · show _ = _ + (30 : ℤ)
      omega

end Cosmic.Time

/-!
Zones: what a TZif file and a POSIX TZ string say of a moment.

A moment is whole seconds since the epoch. `kind_at` is what a zone says of one: from its
transitions, and after the last of them from its TZ string, which `posix_kind` reads. The rules of a
zone are what `parse_tzif` or `parse_posix` made; what those two promise of them is `Valid`, and a
`Zone` is rules with that promise. A TZ string's daylight saving time has its two rules or there is
none, so the three are one field here; the table of a string's yearly changes is left out, since
`posix_kind` only keeps in it what it works out.
-/

namespace Cosmic.Time

open Cosmic.Base

/-! ## The data -/

/-- What a zone says of a span of time: seconds east of UTC, a name, and whether it is daylight saving
time. -/
structure Kind where
  offset : ℤ
  abbreviation : Bytes
  dst : Bool
deriving DecidableEq

/-- How a rule names a day of the year: `Jn`, `n` or `Mm.w.d`. -/
inductive Form where
  | J (day : ℤ)
  | n (day : ℤ)
  | M (month week weekday : ℤ)
deriving DecidableEq

/-- One of a TZ string's two yearly changes: a day, and the local time on it in seconds. -/
structure Rule where
  form : Form
  time : ℤ
deriving DecidableEq

/-- Daylight saving time, with the rules it starts and ends by. -/
structure Saving where
  kind : Kind
  start : Rule
  finish : Rule
deriving DecidableEq

structure Posix where
  std : Kind
  dst : Option Saving
deriving DecidableEq

/-- Everything a zone knows: its transitions, what it says from each, what it says before the first,
and the TZ string for the moments after the last. -/
structure Rules where
  transitions : List ℤ
  kinds : List Kind
  first : Kind
  footer : Option Posix
deriving DecidableEq

/-! ## A TZ string -/

/-- The day `r` names in `year`. -/
def rule_day (r : Form) (year : ℤ) : ℤ :=
  let jan1 := days_from_civil year 1 1
  match r with
  | .J day => jan1 + day - 1 + (if day ≥ 60 ∧ leap year then 1 else 0)
  | .n day => jan1 + day
  | .M month week weekday =>
    let first := days_from_civil year month 1
    let day := first + (weekday - (first + 4) % 7 + 7) % 7 + (week - 1) * 7
    let last := first + month_days year month - 1
    -- `while day > last do day = day - 7 end`
    if day > last then day - 7 * ((day - last + 6) / 7) else day

/-- The two changes of a year, as seconds since the epoch. -/
structure Changes where
  dst_start : ℤ
  dst_end : ℤ

def changes (std : Kind) (d : Saving) (y : ℤ) : Changes where
  dst_start := rule_day d.start.form y * DAY + d.start.time - std.offset
  dst_end := rule_day d.finish.form y * DAY + d.finish.time - d.kind.offset

/-- What the loop of `posix_kind` keeps: the latest change so far, and whether it starts daylight
saving time. -/
structure Latest where
  best : ℤ
  starts : Bool

/-- A round of the loop of `posix_kind`, over the changes of one year. -/
def Latest.year (s : ℤ) (l : Latest) (c : Changes) : Latest :=
  let l := if c.dst_end ≤ s ∧ c.dst_end > l.best then { best := c.dst_end, starts := false } else l
  if c.dst_start ≤ s ∧ c.dst_start ≥ l.best then { best := c.dst_start, starts := true } else l

/-- What the TZ string `p` says of `s`. -/
def posix_kind (p : Posix) (s : ℤ) : Kind :=
  match p.dst with
  | none => p.std
  | some d =>
    let year := (civil_from_days ((s + p.std.offset) / DAY)).year
    let none_yet : Latest := { best := -2 ^ 63, starts := false }
    let latest := [year - 2, year - 1, year, year + 1].foldl (fun l y => l.year s (changes p.std d y)) none_yet
    if latest.starts then d.kind else p.std

/-! ## A zone -/

/-- `Array.at(t, i)`: every index here is one of the list's, so it never raises. -/
def item {α : Type} (t : List α) (i : ℕ) (default : α) : α := t.getD (i - 1) default

/-- What `rules` say of `s`. -/
def kind_at (rules : Rules) (s : ℤ) : Kind :=
  let t := rules.transitions
  let n := t.length
  if n = 0 ∨ s < item t 1 0 then
    match rules.footer with
    | none => rules.first
    | some footer => if n = 0 then posix_kind footer s else rules.first
  else
    match rules.footer with
    | none => latest t n
    | some footer => if s > item t n 0 then posix_kind footer s else latest t n
where
  /-- The kind of the latest transition at or before `s`. -/
  latest (t : List ℤ) (n : ℕ) : Kind :=
    item rules.kinds (last_passing (fun mid => item t mid 0 ≤ s) n 1 n) rules.first

/-- The offsets of `kinds`, each once, in order. -/
def add (out : List ℤ) (kind : Kind) : List ℤ := if kind.offset ∈ out then out else out ++ [kind.offset]

/-- Every offset `rules` give some moment within two days of `s`. -/
def offsets_near (rules : Rules) (s : ℤ) : List ℤ :=
  let lo := s - 2 * DAY
  let hi := s + 2 * DAY
  let t := rules.transitions
  let out := add [] (kind_at rules lo)
  let first := first_passing (fun mid => item t mid 0 > lo) (t.length + 1) 1 (t.length + 1)
  -- The transitions from the first after `lo` up to `hi`.
  let count := ((t.drop (first - 1)).takeWhile (· ≤ hi)).length
  let out := ((rules.kinds.drop (first - 1)).take count).foldl add out
  match rules.footer with
  | none => out
  | some footer =>
    if t.length = 0 ∨ hi > item t t.length 0 then
      let out := add out footer.std
      match footer.dst with
      | none => out
      | some d => add out d.kind
    else out

/-! ## What the readers promise -/

/-- An offset a zone can have. -/
def Kind.InRange (k : Kind) : Prop := -89999 ≤ k.offset ∧ k.offset ≤ 93599

/-- A form a rule can have. -/
def Form.Valid : Form → Prop
  | .J day => 1 ≤ day ∧ day ≤ 365
  | .n day => 0 ≤ day ∧ day ≤ 365
  | .M month week weekday => (1 ≤ month ∧ month ≤ 12) ∧ (1 ≤ week ∧ week ≤ 5) ∧ 0 ≤ weekday ∧ weekday ≤ 6

/-- A rule with a time less than 168 hours from its day's midnight. -/
structure Rule.Valid (r : Rule) : Prop where
  form : r.form.Valid
  time : -604799 ≤ r.time ∧ r.time ≤ 604799

structure Saving.Valid (d : Saving) : Prop where
  kind : d.kind.InRange
  start : d.start.Valid
  finish : d.finish.Valid

structure Posix.Valid (p : Posix) : Prop where
  std : p.std.InRange
  dst : ∀ d ∈ p.dst, d.Valid

/-- Transitions in ascending order, each with what it changes to. -/
structure Rules.Valid (rules : Rules) : Prop where
  ascending : rules.transitions.Pairwise (· < ·)
  each : rules.kinds.length = rules.transitions.length
  kinds : ∀ k ∈ rules.kinds, k.InRange
  first : rules.first.InRange
  footer : ∀ p ∈ rules.footer, p.Valid

structure Zone where
  name : Bytes
  rules : Rules
  valid : rules.Valid

end Cosmic.Time
