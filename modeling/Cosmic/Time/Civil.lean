/-
The calendar of a zone and back: `civil` and `from_civil`.

A day number and its date are inverse. So are a moment and its local time where the zone shows the time once; where it
shows it more often, the offset tells which, or what is asked for.
-/
import Cosmic.Time.DateRead

set_option autoImplicit false

namespace Cosmic.Time

open Cosmic.Base Except List

/-! ## Days and dates -/

def Date.Valid (c : Date) : Prop := (1 ≤ c.month ∧ c.month ≤ 12) ∧ 1 ≤ c.day ∧ c.day ≤ month_days c.year c.month

theorem year_of_era {yoe doy : ℤ} (h₀ : 0 ≤ yoe) (h₁ : yoe ≤ 399) (hd₀ : 0 ≤ doy) (hd₁ : doy ≤ 365)
    (hleap : doy = 365 → (yoe + 1) % 4 = 0 ∧ ((yoe + 1) % 100 ≠ 0 ∨ (yoe + 1) % 400 = 0)) {doe : ℤ}
    (hdoe : doe = yoe * 365 + yoe / 4 - yoe / 100 + doy) :
    (0 ≤ doe ∧ doe < 146097) ∧ (doe - doe / 1460 + doe / 36524 - doe / 146096) / 365 = yoe := by
  -- Centuries, cycles of four years and years.
  obtain ⟨c, q, r, hyoe, hc, hq, hr⟩ : ∃ c q r : ℤ, yoe = 100 * c + (4 * q + r) ∧ (0 ≤ c ∧ c ≤ 3) ∧ (0 ≤ q ∧ q ≤ 24) ∧
      0 ≤ r ∧ r ≤ 3 := ⟨yoe / 100, yoe % 100 / 4, yoe % 4, by omega, by omega, by omega, by omega⟩
  have hsum : doe = 36524 * c + (1461 * q + (365 * r + doy)) := by omega
  have hlast : doy = 365 → r = 3 ∧ (q ≤ 23 ∨ c = 3) := by
    intro h
    have := hleap h
    omega
  clear hleap hdoe
  have hrange : 0 ≤ doe ∧ doe < 146097 := by omega
  refine ⟨hrange, ?_⟩
  have hlow : 36524 * c ≤ doe := by omega
  rcases (by omega : doe ≤ 36524 * c + 36523 ∨ doe = 146096) with hhigh | hhigh
  · have hcentury : doe / 36524 = c := by omega
    have hera : doe / 146096 = 0 := by omega
    have hcycles : doe / 1460 ≤ 25 * c + q + 1 := by omega
    have hcycles' : 25 * c + q ≤ doe / 1460 := by omega
    rw [hcentury, hera]
    omega
  · subst hhigh
    have hyoe' : yoe = 399 := by omega
    rw [hyoe']
    decide

theorem month_of_year {mp d : ℤ} (h₀ : 0 ≤ mp) (h₁ : mp ≤ 11) (hd₀ : 1 ≤ d) (hd₁ : d ≤ 31)
    (hshort : mp = 1 ∨ mp = 3 ∨ mp = 6 ∨ mp = 8 ∨ mp = 11 → d ≤ 30) :
    (5 * ((153 * mp + 2) / 5 + d - 1) + 2) / 153 = mp := by
  obtain rfl | rfl | rfl | rfl | rfl | rfl | rfl | rfl | rfl | rfl | rfl | rfl : mp = 0 ∨ mp = 1 ∨ mp = 2 ∨ mp = 3 ∨
      mp = 4 ∨ mp = 5 ∨ mp = 6 ∨ mp = 7 ∨ mp = 8 ∨ mp = 9 ∨ mp = 10 ∨ mp = 11 := by omega
  all_goals omega

theorem month_days_short {y m : ℤ} (h : m = 4 ∨ m = 6 ∨ m = 9 ∨ m = 11) : month_days y m = 30 := by
  unfold month_days
  rw [if_neg (by omega)]
  obtain rfl | rfl | rfl | rfl := h
  all_goals rfl

theorem month_days_february (y : ℤ) : month_days y 2 = if leap y then 29 else 28 := by
  unfold month_days
  simp only [true_and]
  rfl

theorem civil_of_days {c : Date} (h : c.Valid) : civil_from_days c.number = c := by
  obtain ⟨y, m, d⟩ := c
  obtain ⟨⟨hm₁, hm₂⟩, hd₁, hd₂⟩ := h
  dsimp only at hm₁ hm₂ hd₁ hd₂
  have hlong := (month_days_bounds (y := y) hm₁ hm₂).2
  have hshort := month_days_short (y := y) (m := m)
  have hfebruary := month_days_february y
  -- The year, the era and the month are counted from March.
  obtain ⟨y', hy'⟩ : ∃ y' : ℤ, y' = if m ≤ 2 then y - 1 else y := ⟨_, rfl⟩
  obtain ⟨mp, hmp⟩ : ∃ mp : ℤ, mp = if m > 2 then m - 3 else m + 9 := ⟨_, rfl⟩
  have hmonth : (0 ≤ mp ∧ mp ≤ 11) ∧ (m = if mp < 10 then mp + 3 else mp - 9) ∧ (m ≤ 2 ↔ 10 ≤ mp) := by
    split at hmp <;> split <;> omega
  have hyear : y = y' + if m ≤ 2 then 1 else 0 := by
    split at hy' <;> rename_i h <;> simp only [h, if_true, if_false] <;> omega
  have hday : d ≤ 31 ∧ (mp = 1 ∨ mp = 3 ∨ mp = 6 ∨ mp = 8 → d ≤ 30) ∧
      (mp = 11 → d ≤ 29 ∧ (d = 29 → leap y = true)) := by
    refine ⟨by omega, fun h => ?_, fun h => ?_⟩
    · have := hshort (by split at hmp <;> omega)
      omega
    obtain rfl : m = 2 := by split at hmp <;> omega
    rw [hfebruary] at hd₂
    by_cases hleap : leap y = true
    · rw [if_pos hleap] at hd₂
      exact ⟨hd₂, fun _ => hleap⟩
    · rw [if_neg hleap] at hd₂
      exact ⟨by omega, fun h => by omega⟩
  have hmp' := month_of_year hmonth.1.1 hmonth.1.2 hd₁ hday.1 (by omega)
  obtain ⟨doy, hdoy⟩ : ∃ doy : ℤ, doy = (153 * mp + 2) / 5 + d - 1 := ⟨_, rfl⟩
  have hyoe : 0 ≤ y' - y' / 400 * 400 ∧ y' - y' / 400 * 400 ≤ 399 := by omega
  have hleap : doy = 365 → (y' - y' / 400 * 400 + 1) % 4 = 0 ∧ ((y' - y' / 400 * 400 + 1) % 100 ≠ 0 ∨
      (y' - y' / 400 * 400 + 1) % 400 = 0) := by
    intro h
    have heleven : mp = 11 := by omega
    have hly := leap_iff.mp ((hday.2.2 heleven).2 (by omega))
    rw [if_pos (by omega)] at hyear
    omega
  obtain ⟨⟨hdoe₀, hdoe₁⟩, hyears⟩ := year_of_era hyoe.1 hyoe.2 (show 0 ≤ doy by omega) (by omega) hleap rfl
  rw [← hdoy] at hmp'
  unfold Date.number days_from_civil civil_from_days
  dsimp only
  rw [← hy', ← hmp, ← hdoy, Int.sub_add_cancel]
  generalize hsum : (y' - y' / 400 * 400) * 365 + (y' - y' / 400 * 400) / 4 - (y' - y' / 400 * 400) / 100 + doy = doe at *
  have hera : (y' / 400 * 146097 + doe) / 146097 = y' / 400 := by omega
  rw [hera, show y' / 400 * 146097 + doe - y' / 400 * 146097 = doe by omega, hyears,
    show doe - (365 * (y' - y' / 400 * 400) + (y' - y' / 400 * 400) / 4 - (y' - y' / 400 * 400) / 100) = doy by omega, hmp',
    ← hmonth.2.1, show y' - y' / 400 * 400 + y' / 400 * 400 = y' by omega, ← hyear,
    show doy - (153 * mp + 2) / 5 + 1 = d by omega]

theorem days_from_civil_day (y m d : ℤ) : days_from_civil y m d = days_from_civil y m 1 + (d - 1) := by
  unfold days_from_civil
  dsimp only
  omega

theorem year_succ (y : ℤ) : jan1 (y + 1) = days_from_civil y 12 1 + 31 := by
  rw [jan1_eq, days_from_civil_eq, if_neg (by decide)]
  omega

theorem exists_date (z : ℤ) : ∃ c : Date, c.Valid ∧ c.number = z := by
  obtain ⟨y, hy₁, hy₂⟩ : ∃ y, jan1 y ≤ z ∧ z < jan1 (y + 1) := by
    have hnear := year_near z
    generalize (civil_from_days z).year = y at hnear
    rcases lt_or_ge z (jan1 y) with h | h
    · exact ⟨y - 1, by omega, by rwa [Int.sub_add_cancel]⟩
    · rcases lt_or_ge z (jan1 (y + 1)) with h' | h'
      · exact ⟨y, h, h'⟩
      · exact ⟨y + 1, h', by rw [add_assoc]; show z < jan1 (y + 2); omega⟩
  -- The first month, from the last down, that begins no later.
  have hmonth : ∀ n : ℕ, n < 12 → z < days_from_civil y (n + 1) 1 + month_days y (n + 1) →
      ∃ m, (1 ≤ m ∧ m ≤ 12) ∧ days_from_civil y m 1 ≤ z ∧ z < days_from_civil y m 1 + month_days y m := by
    intro n
    induction n with
    | zero => exact fun _ h => ⟨1, by decide, hy₁, h⟩
    | succ n ih =>
      intro hn h
      rcases lt_or_ge z (days_from_civil y ((n + 1 : ℕ) + 1) 1) with hlt | hge
      · refine ih (by omega) ?_
        rw [← month_succ (by omega) (by omega)]
        exact_mod_cast hlt
      · exact ⟨(n + 1 : ℕ) + 1, ⟨by omega, by omega⟩, hge, h⟩
  have hlast : jan1 (y + 1) = days_from_civil y 12 1 + month_days y 12 := year_succ y
  obtain ⟨m, hm, h₁, h₂⟩ := hmonth 11 (by decide) (show z < days_from_civil y 12 1 + month_days y 12 by omega)
  refine ⟨⟨y, m, z - days_from_civil y m 1 + 1⟩, ⟨hm, ?_, ?_⟩, ?_⟩
  · dsimp only
    omega
  · dsimp only
    omega
  · unfold Date.number
    dsimp only
    rw [days_from_civil_day]
    omega

theorem civil_from_days_valid (z : ℤ) : (civil_from_days z).Valid ∧ (civil_from_days z).number = z := by
  obtain ⟨c, hc, rfl⟩ := exists_date z
  rw [civil_of_days hc]
  exact ⟨hc, rfl⟩

def gregorian_days (y m : ℤ) : ℤ :=
  if m = 2 then if 4 ∣ y ∧ (¬100 ∣ y ∨ 400 ∣ y) then 29 else 28
  else if m = 4 ∨ m = 6 ∨ m = 9 ∨ m = 11 then 30 else 31

theorem month_days_gregorian (y : ℤ) {m : ℤ} (h₁ : 1 ≤ m) (h₂ : m ≤ 12) : month_days y m = gregorian_days y m := by
  unfold gregorian_days
  by_cases hfebruary : m = 2
  · rw [hfebruary, month_days_february, if_pos rfl]
    have hleap := leap_iff (y := y)
    by_cases h : leap y = true
    · rw [if_pos h, if_pos (by have := hleap.mp h; omega)]
    · rw [if_neg h, if_neg fun hy => h (hleap.mpr (by omega))]
  · rw [if_neg hfebruary]
    split
    next h => exact month_days_short h
    next h =>
      unfold month_days
      rw [if_neg fun hy => hfebruary hy.1]
      obtain rfl | rfl | rfl | rfl | rfl | rfl | rfl : m = 1 ∨ m = 3 ∨ m = 5 ∨ m = 7 ∨ m = 8 ∨ m = 10 ∨ m = 12 := by
        omega
      all_goals rfl

/-- The date after, on the proleptic Gregorian calendar. -/
def Date.next (c : Date) : Date :=
  if c.day < gregorian_days c.year c.month then { c with day := c.day + 1 }
  else if c.month < 12 then { year := c.year, month := c.month + 1, day := 1 }
  else { year := c.year + 1, month := 1, day := 1 }

theorem Date.Valid.next {c : Date} (h : c.Valid) : c.next.Valid ∧ c.next.number = c.number + 1 := by
  obtain ⟨y, m, d⟩ := c
  obtain ⟨⟨hm₁, hm₂⟩, hd₁, hd₂⟩ := h
  dsimp only at hm₁ hm₂ hd₁ hd₂
  have hday := days_from_civil_day y m
  unfold Date.next Date.Valid Date.number
  rw [← month_days_gregorian y hm₁ hm₂]
  dsimp only
  by_cases hlt : d < month_days y m
  · rw [if_pos hlt]
    exact ⟨⟨⟨hm₁, hm₂⟩, by dsimp only; omega, by dsimp only; omega⟩, by rw [hday, hday d]; dsimp only; omega⟩
  rw [if_neg hlt, hday d]
  obtain rfl : d = month_days y m := by omega
  by_cases hmonth : m < 12
  · rw [if_pos hmonth]
    have hnext := month_days_bounds (y := y) (m := m + 1) (by omega) (by omega)
    exact ⟨⟨⟨by dsimp only; omega, by dsimp only; omega⟩, le_rfl, by dsimp only; omega⟩,
      by dsimp only; rw [month_succ hm₁ (by omega)]; omega⟩
  · obtain rfl : m = 12 := by omega
    rw [if_neg hmonth]
    have hyear := year_succ y
    rw [show month_days y 12 = 31 from rfl]
    exact ⟨⟨⟨le_rfl, by show (1 : ℤ) ≤ 12; decide⟩, le_rfl, by show (1 : ℤ) ≤ 31; decide⟩,
      by show jan1 (y + 1) = _; omega⟩

/-- The days and the dates of the calendar are counted in the same order. -/
theorem days_in_order : (∀ z, (civil_from_days z).Valid ∧
      days_from_civil (civil_from_days z).year (civil_from_days z).month (civil_from_days z).day = z ∧
      civil_from_days (z + 1) = (civil_from_days z).next) ∧
    (∀ c : Date, c.Valid → civil_from_days (days_from_civil c.year c.month c.day) = c) ∧
    (∀ y m, 1 ≤ m → m ≤ 12 → month_days y m = gregorian_days y m) ∧
    days_from_civil 1970 1 1 = 0 := by
  refine ⟨fun z => ?_, fun c hc => civil_of_days hc, fun y m => month_days_gregorian y, by decide⟩
  obtain ⟨hvalid, hnumber⟩ := civil_from_days_valid z
  obtain ⟨hnext, hsucc⟩ := hvalid.next
  refine ⟨hvalid, hnumber, ?_⟩
  rw [hnumber] at hsucc
  rw [← hsucc, civil_of_days hnext]

/-- The last day of February of a leap year before the first. -/
theorem days_in_order_leap : civil_from_days (days_from_civil (-4) 2 29) = ⟨-4, 2, 29⟩ :=
  days_in_order.2.1 ⟨-4, 2, 29⟩ (by unfold Date.Valid; decide)

/-! ## The source -/

/-- `Time.Civil` -/
structure Civil where
  fields : CivilFields
  weekday : ℤ
  yday : ℤ
  abbreviation : Bytes
  dst : Bool

def UTC_KIND : Kind := { offset := 0, abbreviation := lit "UTC", dst := false }

def civil_at (s n : ℤ) : Civil :=
  let days := s / DAY
  let into := s % DAY
  let d := civil_from_days days
  { fields := { year := d.year, month := d.month, day := d.day, hour := into / 3600, minute := into % 3600 / 60
                second := into % 60, ns := n, offset := some 0 }
    weekday := (days + 3) % 7 + 1
    yday := days - days_from_civil d.year 1 1 + 1
    abbreviation := lit "UTC"
    dst := false }

/-- `Time.civil(ns, zone)` -/
def civil (ns : ℤ) (zone : Option Zone) : Civil :=
  let s := ns / NS
  let kind := match zone with
    | some zone => kind_at zone.rules s
    | none => UTC_KIND
  let c := civil_at (s + kind.offset) (ns % NS)
  { c with fields := { c.fields with offset := some kind.offset }, abbreviation := kind.abbreviation, dst := kind.dst }

/-! ## Fields and seconds -/

structure InRange (c : CivilFields) : Prop where
  date : Date.Valid ⟨c.year, c.month, c.day⟩
  hour : 0 ≤ c.hour ∧ c.hour ≤ 23
  minute : 0 ≤ c.minute ∧ c.minute ≤ 59
  second : 0 ≤ c.second ∧ c.second ≤ 59
  ns : 0 ≤ c.ns ∧ c.ns < NS

/-- The seconds that a local time is on the UTC calendar. -/
def local_of (c : CivilFields) : ℤ :=
  days_from_civil c.year c.month c.day * DAY + c.hour * 3600 + c.minute * 60 + c.second

/-- A moment that an integer of nanoseconds holds. -/
def Holds (ns : ℤ) : Prop := -2 ^ 63 ≤ ns ∧ ns < 2 ^ 63

theorem outside_none_iff {name : Bytes} {value lo hi : ℤ} : outside name value lo hi = none ↔ lo ≤ value ∧ value ≤ hi := by
  unfold outside
  split
  next h => exact iff_of_false nofun (by omega)
  next h => exact iff_of_true rfl (by omega)

theorem orElse_none_iff {α : Type} {a b : Option α} : (a <|> b) = none ↔ a = none ∧ b = none := by
  cases a with
  | none => exact ⟨fun h => ⟨rfl, h⟩, fun h => h.2⟩
  | some x => exact ⟨nofun, fun h => h.1⟩

theorem seconds_of_iff {c : CivilFields} {m : ℤ} :
    seconds_of c = .ok m ↔ InRange c ∧ (1676 ≤ c.year ∧ c.year ≤ 2263) ∧ m = local_of c := by
  unfold seconds_of
  constructor
  · intro h
    split at h
    · cases h
    next hyear =>
      split at h
      · cases h
      next hrange =>
        split at h
        · cases h
        next hrest =>
          simp only [orElse_none_iff, outside_none_iff] at hyear hrest
          obtain ⟨hday, hhour, hminute, hsecond, hns⟩ := hrest
          exact ⟨⟨⟨hyear.2, hday⟩, hhour, hminute, hsecond, ⟨hns.1, by omega⟩⟩, by omega, (ok.inj h).symm⟩
  · rintro ⟨h, hyear, rfl⟩
    have hfirst : (outside (lit "year") c.year (-2 ^ 63) (2 ^ 63 - 1) <|> outside (lit "month") c.month 1 12) = none :=
      orElse_none_iff.mpr ⟨outside_none (by omega) (by omega), outside_none h.date.1.1 h.date.1.2⟩
    have hrest : (outside (lit "day") c.day 1 (month_days c.year c.month) <|> outside (lit "hour") c.hour 0 23 <|>
        outside (lit "minute") c.minute 0 59 <|> outside (lit "second") c.second 0 59 <|>
        outside (lit "ns") c.ns 0 (NS - 1)) = none := by
      simp only [orElse_none_iff, outside_none_iff]
      exact ⟨h.date.2, h.hour, h.minute, h.second, h.ns.1, by have := h.ns.2; omega⟩
    simp only [hfirst, hrest]
    exact if_neg (by omega)

theorem instant_ok_iff {s n ns : ℤ} (hn : 0 ≤ n ∧ n < NS) : instant s n = .ok ns ↔ ns = s * NS + n ∧ Holds ns := by
  unfold instant MIN_S MAX_S MIN_NS MAX_NS Holds
  unfold NS at hn ⊢
  split
  next h =>
    refine iff_of_false nofun ?_
    rintro ⟨rfl, hrange⟩
    omega
  next h =>
    rw [ok.injEq]
    exact ⟨fun heq => ⟨heq.symm, by omega⟩, fun heq => heq.1.symm⟩

/-! ## Local times -/

/-- The moment `ns` of the zone has the local time of `c`. -/
def Shows (zone : Option Zone) (c : CivilFields) (ns : ℤ) : Prop :=
  (civil ns zone).fields = { c with offset := (civil ns zone).fields.offset }

section

variable {zone : Option Zone} {c : CivilFields} {ns : ℤ}

theorem civil_offset : (civil ns zone).fields.offset = some (zone_offset zone (ns / NS)) := by
  cases zone with
  | none => rfl
  | some z => rfl

theorem civil_fields : (civil ns zone).fields =
    { (civil_at (ns / NS + zone_offset zone (ns / NS)) (ns % NS)).fields with
      offset := some (zone_offset zone (ns / NS)) } := by
  cases zone with
  | none => rfl
  | some z => rfl

theorem civil_at_in_range (s : ℤ) {n : ℤ} (hn : 0 ≤ n ∧ n < NS) :
    InRange (civil_at s n).fields ∧ local_of (civil_at s n).fields = s := by
  obtain ⟨hvalid, hnumber⟩ := civil_from_days_valid (s / DAY)
  have hinto : 0 ≤ s % DAY ∧ s % DAY < 86400 := by
    unfold DAY
    omega
  refine ⟨⟨hvalid, ?_, ?_, ?_, hn⟩, ?_⟩
  · show 0 ≤ s % DAY / 3600 ∧ s % DAY / 3600 ≤ 23
    omega
  · show 0 ≤ s % DAY % 3600 / 60 ∧ s % DAY % 3600 / 60 ≤ 59
    omega
  · show 0 ≤ s % DAY % 60 ∧ s % DAY % 60 ≤ 59
    omega
  · show (civil_from_days (s / DAY)).number * DAY + s % DAY / 3600 * 3600 + s % DAY % 3600 / 60 * 60 + s % DAY % 60 = s
    rw [hnumber]
    unfold DAY
    omega

theorem shows_iff : Shows zone c ns ↔
    InRange c ∧ ns / NS + zone_offset zone (ns / NS) = local_of c ∧ ns % NS = c.ns := by
  have hn : 0 ≤ ns % NS ∧ ns % NS < NS := by
    unfold NS
    omega
  obtain ⟨hwithin, hlocal⟩ := civil_at_in_range (ns / NS + zone_offset zone (ns / NS)) hn
  unfold Shows
  rw [civil_fields]
  constructor
  · intro h
    simp only [CivilFields.mk.injEq] at h
    obtain ⟨hy, hm, hd, hh, hmi, hs, hns, -⟩ := h
    obtain ⟨year, month, day, hour, minute, second, n, offset⟩ := c
    dsimp only at hy hm hd hh hmi hs hns
    subst hy hm hd hh hmi hs hns
    exact ⟨⟨hwithin.date, hwithin.hour, hwithin.minute, hwithin.second, hn⟩, hlocal.symm, rfl⟩
  · rintro ⟨hc, hread, hns⟩
    rw [hread, hns]
    obtain ⟨hdate, hhour, hminute, hsecond, -⟩ := hc
    obtain ⟨year, month, day, hour, minute, second, n, offset⟩ := c
    dsimp only at hdate hhour hminute hsecond
    have hdays : local_of ⟨year, month, day, hour, minute, second, n, offset⟩ / DAY = Date.number ⟨year, month, day⟩ := by
      unfold local_of Date.number DAY
      dsimp only
      omega
    have hinto : local_of ⟨year, month, day, hour, minute, second, n, offset⟩ % DAY =
        hour * 3600 + minute * 60 + second := by
      unfold local_of DAY
      dsimp only
      omega
    unfold civil_at
    simp only [hdays, hinto, civil_of_days hdate, CivilFields.mk.injEq, true_and, and_true]
    omega

end

/-! ## Offsets, each once -/

theorem offsets_near_nodup (rules : Rules) (s : ℤ) : (offsets_near rules s).Nodup := by
  have hadd : ∀ {out : List ℤ} (k : Kind), out.Nodup → (add out k).Nodup := by
    intro out k h
    unfold add
    split
    next => exact h
    next hnot => exact List.Nodup.append h (nodup_singleton _) (disjoint_singleton.mpr hnot)
  have hfold : ∀ (ks : List Kind) {out : List ℤ}, out.Nodup → (ks.foldl add out).Nodup := by
    intro ks
    induction ks with
    | nil => exact fun h => h
    | cons k ks ih => exact fun h => ih (hadd k h)
  unfold offsets_near
  dsimp only
  split
  next => exact hfold _ (hadd _ nodup_nil)
  next footer _ =>
    split
    · split
      · exact hadd _ (hfold _ (hadd _ nodup_nil))
      · exact hadd _ (hadd _ (hfold _ (hadd _ nodup_nil)))
    · exact hfold _ (hadd _ nodup_nil)

theorem named_nodup (rules : Rules) (m : ℤ) : (named rules m).Nodup := by
  unfold named
  rw [(perm_insertionSort _ _).nodup_iff]
  exact ((offsets_near_nodup rules m).filter _).map fun a b h => sub_right_injective h

/-! ## Resolving -/

section

variable {z : Zone} {c : CivilFields} {m s : ℤ} {how : Disambiguation}

theorem resolve_offset (hc : seconds_of c = .ok m) (hs : s + zone_offset (some z) s = m)
    (hoffset : c.offset = some (zone_offset (some z) s)) : resolve c (some z) how = .ok s := by
  have hmem : s ∈ named z.rules m := mem_named.mpr hs
  have hpos : (named z.rules m).length ≠ 0 := length_pos_of_mem hmem |>.ne'
  unfold resolve
  simp only [hc]
  rw [if_neg hpos]
  split
  next hone =>
    obtain ⟨t, ht⟩ := length_eq_one_iff.mp hone
    rw [ht] at hmem ⊢
    exact congrArg Except.ok (mem_singleton.mp hmem).symm
  next =>
    have hfound : s ∈ (named z.rules m).filter fun t => some (m - t) = c.offset := by
      refine List.mem_filter.mpr ⟨hmem, decide_eq_true ?_⟩
      rw [hoffset, ← hs, add_sub_cancel_left]
    cases hlast : ((named z.rules m).filter fun t => some (m - t) = c.offset).getLast? with
    | none =>
      rw [getLast?_eq_none_iff.mp hlast] at hfound
      cases hfound
    | some t =>
      have ht := of_decide_eq_true (List.mem_filter.mp (mem_of_getLast? hlast)).2
      rw [hoffset, Option.some.injEq] at ht
      exact congrArg Except.ok (by omega)

theorem resolve_last (hc : seconds_of c = .ok m) (hoffset : ∀ t ∈ named z.rules m, some (m - t) ≠ c.offset)
    (hs : IsGreatest {s | s + zone_offset (some z) s = m} s) : resolve c (some z) .later = .ok s := by
  have hmem : s ∈ named z.rules m := mem_named.mpr hs.1
  have hsorted : (named z.rules m).Pairwise (· ≤ ·) := pairwise_insertionSort _ _
  have hlast : item (named z.rules m) (named z.rules m).length 0 = s := by
    obtain ⟨rest, t, hl⟩ := eq_nil_or_concat' (named z.rules m) |>.resolve_left (ne_nil_of_mem hmem)
    have ht : t ≤ s := hs.2 (mem_named.mp (by rw [hl]; exact mem_append_right _ mem_cons_self))
    rw [hl] at hmem hsorted ⊢
    unfold item
    rw [length_append, length_singleton, Nat.add_sub_cancel, getD_eq_getElem?_getD,
      getElem?_append_right le_rfl, Nat.sub_self]
    rcases mem_append.mp hmem with h | h
    · exact le_antisymm ht ((pairwise_append.mp hsorted).2.2 s h t mem_cons_self)
    · exact (mem_singleton.mp h).symm
  have hnone : (named z.rules m).filter (fun t => some (m - t) = c.offset) = [] := by
    rw [filter_eq_nil_iff]
    exact fun t ht h => hoffset t ht (of_decide_eq_true h)
  unfold resolve
  simp only [hc, hnone, hlast]
  rw [if_neg (length_pos_of_mem hmem).ne']
  split
  next hone =>
    rw [hone] at hlast
    rw [hlast]
  next => rfl

theorem resolve_reject_iff (hc : seconds_of c = .ok m) : resolve c (some z) .reject = .ok s ↔
    s + zone_offset (some z) s = m ∧
      ((∀ t, t + zone_offset (some z) t = m → t = s) ∨ c.offset = some (zone_offset (some z) s)) := by
  constructor
  · intro h
    unfold resolve at h
    simp only [hc] at h
    split at h
    · cases h
    split at h
    next hone =>
      obtain ⟨t, ht⟩ := length_eq_one_iff.mp hone
      rw [ht] at h
      obtain rfl : t = s := ok.inj h
      refine ⟨mem_named.mp (by rw [ht]; exact mem_cons_self), .inl fun u hu => ?_⟩
      have hmem := mem_named.mpr hu
      rw [ht] at hmem
      exact mem_singleton.mp hmem
    next =>
      split at h
      next t hlast =>
        obtain rfl : t = s := ok.inj h
        obtain ⟨hmem, ht⟩ := List.mem_filter.mp (mem_of_getLast? hlast)
        have hread := mem_named.mp hmem
        refine ⟨hread, .inr ?_⟩
        rw [← of_decide_eq_true ht, ← hread, add_sub_cancel_left]
      next =>
        rw [if_pos trivial] at h
        cases h
  · rintro ⟨hs, honly | hoffset⟩
    · have hnamed : named z.rules m = [s] := by
        have hmem : s ∈ named z.rules m := mem_named.mpr hs
        have hnodup := named_nodup z.rules m
        have hall : ∀ t ∈ named z.rules m, t = s := fun t ht => honly t (mem_named.mp ht)
        match hl : named z.rules m with
        | [] =>
          rw [hl] at hmem
          cases hmem
        | [t] =>
          rw [hl] at hall
          rw [hall t mem_cons_self]
        | t :: u :: rest =>
          rw [hl] at hall hnodup
          have ht := hall t mem_cons_self
          have hu := hall u (mem_cons_of_mem _ mem_cons_self)
          rw [ht, hu] at hnodup
          exact absurd mem_cons_self (nodup_cons.mp hnodup).1
      unfold resolve
      simp only [hc, hnamed]
      rfl
    · exact resolve_offset hc hs hoffset

end

/-! ## Skipped times -/

/-- A clock looked at from `m - w` to `m + w` only. -/
def clip (off : ℤ → ℤ) (m w t : ℤ) : ℤ := off (max (m - w) (min t (m + w)))

theorem clip_eq {off : ℤ → ℤ} {m w t : ℤ} (h₁ : m - w ≤ t) (h₂ : t ≤ m + w) : clip off m w t = off t := by
  unfold clip
  rw [min_eq_left h₂, max_eq_right h₁]

/-- Changes of offset near the reading `m` are at least four days apart. -/
def RareNear (zone : Option Zone) (m : ℤ) : Prop :=
  ∀ a b, zone_offset zone (a - 1) ≠ zone_offset zone a → zone_offset zone (b - 1) ≠ zone_offset zone b →
    m - 2 * DAY < a → b ≤ m + 2 * DAY → a < b → 4 * DAY ≤ b - a

theorem zone_near (zone : Option Zone) (t : ℤ) : -(2 * DAY) < zone_offset zone t ∧ zone_offset zone t < 2 * DAY := by
  cases zone with
  | none =>
    show -(2 * DAY) < 0 ∧ 0 < 2 * DAY
    decide
  | some z =>
    have hrange := kind_at_range z.valid t
    change -89999 ≤ zone_offset (some z) t ∧ zone_offset (some z) t ≤ 93599 at hrange
    unfold DAY
    omega

theorem clip_clock {zone : Option Zone} {m : ℤ} (h : RareNear zone m) :
    Clock (clip (zone_offset zone) m (2 * DAY)) (2 * DAY) where
  near t := zone_near zone _
  rare a b ha hb hab := by
    -- What changes is within what is looked at.
    have hwithin : ∀ t, clip (zone_offset zone) m (2 * DAY) (t - 1) ≠ clip (zone_offset zone) m (2 * DAY) t →
        (m - 2 * DAY < t ∧ t ≤ m + 2 * DAY) ∧ zone_offset zone (t - 1) ≠ zone_offset zone t := by
      intro t ht
      have hrange : m - 2 * DAY < t ∧ t ≤ m + 2 * DAY := by
        by_contra hout
        refine ht (congrArg (zone_offset zone) ?_)
        unfold DAY at hout ⊢
        omega
      refine ⟨hrange, ?_⟩
      rwa [clip_eq (by omega) (by omega), clip_eq (by omega) hrange.2] at ht
    obtain ⟨ha', hac⟩ := hwithin a ha
    obtain ⟨hb', hbc⟩ := hwithin b hb
    have := h a b hac hbc ha'.1 hb'.2 hab
    unfold DAY at this ⊢
    omega

theorem skipped_near {zone : Option Zone} {m : ℤ} (h : RareNear zone m) (hnot : ∀ t, t + zone_offset zone t ≠ m) :
    ∃ s, Skips (zone_offset zone) m s ∧
      (∀ t, m - 2 * DAY ≤ t → t < s → zone_offset zone t = zone_offset zone (s - 1)) ∧
      ∀ t, s ≤ t → t ≤ m + 2 * DAY → zone_offset zone t = zone_offset zone s := by
  have hclock := clip_clock h
  have hnot' : ∀ t, t + clip (zone_offset zone) m (2 * DAY) t ≠ m := by
    intro t ht
    have hnear := hclock.near t
    refine hnot t ?_
    rwa [clip_eq (by omega) (by omega)] at ht
  obtain ⟨s, hs⟩ := hclock.exists_skips hnot'
  obtain ⟨hs₁, hs₂⟩ := hclock.skips_near hs
  obtain ⟨hbefore, hafter⟩ := hclock.skipped hs
  have hlast : clip (zone_offset zone) m (2 * DAY) (s - 1) = zone_offset zone (s - 1) := clip_eq (by omega) (by omega)
  have hfirst : clip (zone_offset zone) m (2 * DAY) s = zone_offset zone s := clip_eq (by omega) (by omega)
  refine ⟨s, ?_, fun t ht₁ ht₂ => ?_, fun t ht₁ ht₂ => ?_⟩
  · unfold Skips at hs ⊢
    rwa [hlast, hfirst] at hs
  · rw [← hlast, ← hbefore t ht₁ ht₂, clip_eq ht₁ (by omega)]
  · rw [← hfirst, ← hafter t ht₁ ht₂, clip_eq (by omega) ht₂]

/-! ## Moments and local times -/

def utc : Zone where
  name := lit "UTC"
  rules := { transitions := [], kinds := [], first := UTC_KIND, footer := none }
  valid :=
    { ascending := List.Pairwise.nil
      each := rfl
      kinds := fun k hk => absurd hk not_mem_nil
      first := show (-89999 : ℤ) ≤ 0 ∧ (0 : ℤ) ≤ 93599 by decide
      footer := fun p hp => by cases hp }

theorem exists_zone (zone : Option Zone) : ∃ z : Zone, (∀ ns, civil ns zone = civil ns (some z)) ∧
    (∀ c how, resolve c zone how = resolve c (some z) how) ∧ zone_offset zone = zone_offset (some z) := by
  cases zone with
  | some z => exact ⟨z, fun _ => rfl, fun _ _ => rfl, rfl⟩
  | none =>
    refine ⟨utc, fun _ => rfl, fun c how => ?_, rfl⟩
    have hread : ∀ m s : ℤ, s + zone_offset (some utc) s = m ↔ s = m := fun m s =>
      show s + 0 = m ↔ s = m by rw [Int.add_zero]
    unfold resolve
    dsimp only
    cases hc : seconds_of c with
    | error why => rfl
    | ok m =>
      have hnamed : named utc.rules m = [m] := by
        have hmem : ∀ t, t ∈ named utc.rules m ↔ t = m := fun t => mem_named.trans (hread m t)
        have hperm : (named utc.rules m).Perm [m] :=
          (perm_ext_iff_of_nodup (named_nodup _ _) (nodup_singleton m)).mpr fun t => by
            rw [hmem, mem_singleton]
        exact perm_singleton.mp hperm
      simp only [hnamed]
      rfl

section

variable {zone : Option Zone} {c : CivilFields} {ns s : ℤ} {how : Disambiguation}

theorem from_civil_ok_iff : from_civil c zone how = .ok ns ↔
    InRange c ∧ (1676 ≤ c.year ∧ c.year ≤ 2263) ∧ Holds ns ∧ ns % NS = c.ns ∧ resolve c zone how = .ok (ns / NS) := by
  unfold from_civil
  constructor
  · intro h
    split at h
    · cases h
    next s hs =>
      have hsome : ∃ m, seconds_of c = .ok m := by
        unfold resolve at hs
        split at hs
        · exact ⟨_, hs⟩
        · split at hs
          · cases hs
          next m hm => exact ⟨m, hm⟩
      obtain ⟨m, hm⟩ := hsome
      obtain ⟨hc, hyear, -⟩ := seconds_of_iff.mp hm
      split at h
      · cases h
      next n hn =>
        cases h
        obtain ⟨rfl, hholds⟩ := (instant_ok_iff hc.ns).mp hn
        have hns := hc.ns
        have hdiv : (s * NS + c.ns) / NS = s := by
          unfold NS at hns ⊢
          omega
        refine ⟨hc, hyear, hholds, ?_, hdiv.symm ▸ hs⟩
        unfold NS at hns ⊢
        omega
  · rintro ⟨hc, -, hholds, hns, hs⟩
    have hinstant : instant (ns / NS) c.ns = .ok ns := by
      refine (instant_ok_iff hc.ns).mpr ⟨?_, hholds⟩
      rw [← hns]
      exact (Int.ediv_mul_add_emod ns NS).symm
    simp only [hs, hinstant]

theorem year_of_held (hc : InRange c) (hholds : Holds ns) (h₁ : local_of c - 2 * DAY ≤ ns / NS)
    (h₂ : ns / NS ≤ local_of c + 2 * DAY) : 1676 ≤ c.year ∧ c.year ≤ 2263 := by
  obtain ⟨hdate, hhour, hminute, hsecond, -⟩ := hc
  have hdays := month_days_bounds (y := c.year) hdate.1.1 hdate.1.2
  have hyear := civil_in_year (y := c.year) hdate.1 ⟨hdate.2.1, hdate.2.2.trans hdays.2⟩
  dsimp only at hyear
  unfold Holds at hholds
  unfold local_of DAY NS at h₁ h₂
  constructor
  · by_contra hlt
    have hle : c.year + 1 ≤ 1676 := by omega
    have := jan1_le hle
    have hjan : jan1 1676 = -107381 := by decide
    omega
  · by_contra hlt
    have hle : 2264 ≤ c.year := by omega
    have := jan1_le hle
    have hjan : jan1 2264 = 107381 := by decide
    omega

theorem from_civil_resolved (hc : InRange c) (hholds : Holds (s * NS + c.ns)) (h₁ : local_of c - 2 * DAY ≤ s)
    (h₂ : s ≤ local_of c + 2 * DAY) (h : seconds_of c = .ok (local_of c) → resolve c zone how = .ok s) :
    from_civil c zone how = .ok (s * NS + c.ns) := by
  have hns := hc.ns
  have hdiv : (s * NS + c.ns) / NS = s := by
    unfold NS at hns ⊢
    omega
  have hmod : (s * NS + c.ns) % NS = c.ns := by
    unfold NS at hns ⊢
    omega
  have hyear := year_of_held hc hholds (by omega) (by omega)
  exact from_civil_ok_iff.mpr ⟨hc, hyear, hholds, hmod, hdiv.symm ▸ h (seconds_of_iff.mpr ⟨hc, hyear, rfl⟩)⟩

theorem reads_near (h : Shows zone c ns) : local_of c - 2 * DAY ≤ ns / NS ∧ ns / NS ≤ local_of c + 2 * DAY := by
  have hread := (shows_iff.mp h).2.1
  have hnear := zone_near zone (ns / NS)
  omega

theorem second_of (s : ℤ) (hc : InRange c) : (s * NS + c.ns) / NS = s ∧ (s * NS + c.ns) % NS = c.ns := by
  have hns := hc.ns
  unfold NS at hns ⊢
  omega

theorem reads_second (hc : InRange c) (hs : s + zone_offset zone s = local_of c) : Shows zone c (s * NS + c.ns) := by
  obtain ⟨hdiv, hmod⟩ := second_of s hc
  exact shows_iff.mpr ⟨hc, by rw [hdiv]; exact hs, hmod⟩

theorem eq_second (h : Shows zone c ns) : ns = ns / NS * NS + c.ns := by
  rw [← (shows_iff.mp h).2.2]
  exact (Int.ediv_mul_add_emod ns NS).symm

theorem seconds_of_reads (hholds : Holds ns) (h : Shows zone c ns) : seconds_of c = .ok (local_of c) := by
  have hc := (shows_iff.mp h).1
  obtain ⟨h₁, h₂⟩ := reads_near h
  exact seconds_of_iff.mpr ⟨hc, year_of_held hc hholds h₁ h₂, rfl⟩

theorem from_civil_reads (hholds : Holds ns) (h : Shows zone c ns)
    (hs : seconds_of c = .ok (local_of c) → resolve c zone how = .ok (ns / NS)) : from_civil c zone how = .ok ns := by
  obtain ⟨hc, -, hmod⟩ := shows_iff.mp h
  obtain ⟨h₁, h₂⟩ := reads_near h
  exact from_civil_ok_iff.mpr ⟨hc, year_of_held hc hholds h₁ h₂, hholds, hmod, hs (seconds_of_reads hholds h)⟩

theorem from_civil_offset (hholds : Holds ns) (h : Shows zone c ns)
    (hoffset : c.offset = (civil ns zone).fields.offset) : from_civil c zone how = .ok ns := by
  obtain ⟨z, -, hresolve, hzone⟩ := exists_zone zone
  refine from_civil_reads hholds h fun hc => ?_
  have hread := (shows_iff.mp h).2.1
  rw [civil_offset] at hoffset
  rw [hzone] at hread hoffset
  rw [hresolve]
  exact resolve_offset hc hread hoffset

theorem from_civil_reject_iff : from_civil c zone .reject = .ok ns ↔ Holds ns ∧ Shows zone c ns ∧
    ((∀ ns', Shows zone c ns' → ns' = ns) ∨ c.offset = (civil ns zone).fields.offset) := by
  obtain ⟨z, -, hresolve, hzone⟩ := exists_zone zone
  constructor
  · intro h
    obtain ⟨hc, hyear, hholds, hmod, hs⟩ := from_civil_ok_iff.mp h
    rw [hresolve] at hs
    obtain ⟨hread, hone⟩ := (resolve_reject_iff (seconds_of_iff.mpr ⟨hc, hyear, rfl⟩)).mp hs
    rw [← hzone] at hread hone
    have hreads : Shows zone c ns := shows_iff.mpr ⟨hc, hread, hmod⟩
    refine ⟨hholds, hreads, hone.imp (fun honly ns' h' => ?_) fun hoffset => hoffset.trans civil_offset.symm⟩
    rw [eq_second h', eq_second hreads, honly _ (shows_iff.mp h').2.1]
  · rintro ⟨hholds, h, honly | hoffset⟩
    · refine from_civil_reads hholds h fun hc => ?_
      obtain ⟨hwithin, hread, -⟩ := shows_iff.mp h
      rw [hresolve]
      refine (resolve_reject_iff hc).mpr ⟨hzone ▸ hread, .inl fun t ht => ?_⟩
      rw [← hzone] at ht
      rw [← honly _ (reads_second hwithin ht)]
      exact (second_of t hwithin).1.symm
    · exact from_civil_offset hholds h hoffset

theorem offset_not_mem {z : Zone} (hzone : zone_offset zone = zone_offset (some z)) (hc : InRange c)
    (hoffset : ∀ ns', Shows zone c ns' → c.offset ≠ (civil ns' zone).fields.offset) :
    ∀ t ∈ named z.rules (local_of c), some (local_of c - t) ≠ c.offset := by
  intro t ht heq
  have hread := mem_named.mp ht
  rw [← hzone] at hread
  refine hoffset _ (reads_second hc hread) ?_
  rw [civil_offset, (second_of t hc).1, ← heq, ← hread, add_sub_cancel_left]

theorem least_second (h : IsLeast {ns | Shows zone c ns} ns) : IsLeast {s | s + zone_offset zone s = local_of c} (ns / NS) := by
  obtain ⟨hc, hread, -⟩ := shows_iff.mp h.1
  refine ⟨hread, fun t ht => ?_⟩
  rw [← (second_of t hc).1]
  exact Int.ediv_le_ediv (by decide) (h.2 (reads_second hc ht))

theorem greatest_second (h : IsGreatest {ns | Shows zone c ns} ns) :
    IsGreatest {s | s + zone_offset zone s = local_of c} (ns / NS) := by
  obtain ⟨hc, hread, -⟩ := shows_iff.mp h.1
  refine ⟨hread, fun t ht => ?_⟩
  rw [← (second_of t hc).1]
  exact Int.ediv_le_ediv (by decide) (h.2 (reads_second hc ht))

theorem from_civil_first (hholds : Holds ns) (hoffset : ∀ ns', Shows zone c ns' → c.offset ≠ (civil ns' zone).fields.offset)
    (hhow : how = .earlier ∨ how = .compatible) (h : IsLeast {ns | Shows zone c ns} ns) :
    from_civil c zone how = .ok ns := by
  obtain ⟨z, -, hresolve, hzone⟩ := exists_zone zone
  refine from_civil_reads hholds h.1 fun hc => ?_
  have hleast := least_second h
  rw [hzone] at hleast
  rw [hresolve]
  exact resolve_reading hc (offset_not_mem hzone (shows_iff.mp h.1).1 hoffset) hhow hleast

theorem from_civil_last (hholds : Holds ns) (hoffset : ∀ ns', Shows zone c ns' → c.offset ≠ (civil ns' zone).fields.offset)
    (h : IsGreatest {ns | Shows zone c ns} ns) : from_civil c zone .later = .ok ns := by
  obtain ⟨z, -, hresolve, hzone⟩ := exists_zone zone
  refine from_civil_reads hholds h.1 fun hc => ?_
  have hgreatest := greatest_second h
  rw [hzone] at hgreatest
  rw [hresolve]
  exact resolve_last hc (offset_not_mem hzone (shows_iff.mp h.1).1 hoffset) hgreatest

theorem from_civil_skipped (hc : InRange c) (hnot : ∀ ns, ¬Shows zone c ns) (hrare : RareNear zone (local_of c)) :
    ∃ s, Skips (zone_offset zone) (local_of c) s ∧ ∀ ns how, Holds ns → how ≠ .reject →
      ns = (local_of c - if how = .earlier then zone_offset zone s else zone_offset zone (s - 1)) * NS + c.ns →
        from_civil c zone how = .ok ns := by
  obtain ⟨z, -, hresolve, hzone⟩ := exists_zone zone
  have hnever : ∀ t, t + zone_offset zone t ≠ local_of c := fun t ht => hnot _ (reads_second hc ht)
  obtain ⟨s, hs, hbefore, hafter⟩ := skipped_near hrare hnever
  refine ⟨s, hs, ?_⟩
  rintro ns how hholds hhow rfl
  have hnear := zone_near zone s
  have hnear' := zone_near zone (s - 1)
  refine from_civil_resolved hc hholds ?_ ?_ fun hm => ?_
  · split <;> omega
  · split <;> omega
  · rw [hzone] at hnever hs hbefore hafter ⊢
    rw [hresolve]
    exact resolve_skipped hm hnever hs hbefore hafter hhow

theorem resolve_near {z : Zone} {m : ℤ} (hc : seconds_of c = .ok m) (hhow : how ≠ .reject) :
    ∃ s, (m - 2 * DAY ≤ s ∧ s ≤ m + 2 * DAY) ∧ resolve c (some z) how = .ok s := by
  have hnear : ∀ t, -(2 * DAY) < (kind_at z.rules t).offset ∧ (kind_at z.rules t).offset < 2 * DAY := zone_near (some z)
  have hnamed : ∀ t ∈ named z.rules m, m - 2 * DAY ≤ t ∧ t ≤ m + 2 * DAY := by
    intro t ht
    have hread : t + (kind_at z.rules t).offset = m := mem_named.mp ht
    have := hnear t
    omega
  have hitem : ∀ i, 1 ≤ i → i ≤ (named z.rules m).length → item (named z.rules m) i 0 ∈ named z.rules m :=
    fun i h₁ h₂ => mem_of_getElem? (item_eq h₁ h₂ 0)
  unfold resolve
  simp only [hc, if_neg hhow]
  split
  next =>
    refine ⟨_, ?_, rfl⟩
    split
    · have := hnear (m - (offsets_near z.rules m).foldl min (item (offsets_near z.rules m) 1 0))
      omega
    · have := hnear (m - (offsets_near z.rules m).foldl max (item (offsets_near z.rules m) 1 0))
      omega
  next hne =>
    split
    · exact ⟨_, hnamed _ (hitem 1 le_rfl (by omega)), rfl⟩
    split
    next t hlast => exact ⟨t, hnamed t (List.mem_filter.mp (mem_of_getLast? hlast)).1, rfl⟩
    next =>
      refine ⟨_, ?_, rfl⟩
      split
      · exact hnamed _ (hitem _ (by omega) le_rfl)
      · exact hnamed _ (hitem 1 le_rfl (by omega))

theorem from_civil_refused {why : Bytes} (hhow : how ≠ .reject) (hc : InRange c) (h : from_civil c zone how = .error why) :
    ∃ s, (local_of c - 2 * DAY ≤ s ∧ s ≤ local_of c + 2 * DAY) ∧ ¬Holds (s * NS + c.ns) ∧
      (1676 ≤ c.year ∧ c.year ≤ 2263 → resolve c zone how = .ok s) := by
  obtain ⟨z, -, hresolve, -⟩ := exists_zone zone
  by_cases hyear : 1676 ≤ c.year ∧ c.year ≤ 2263
  · obtain ⟨s, hs, hok⟩ := resolve_near (seconds_of_iff.mpr ⟨hc, hyear, rfl⟩) hhow
    rw [← hresolve] at hok
    refine ⟨s, hs, fun hholds => ?_, fun _ => hok⟩
    rw [from_civil_resolved hc hholds hs.1 hs.2 fun _ => hok] at h
    cases h
  · have hs : local_of c - 2 * DAY ≤ local_of c ∧ local_of c ≤ local_of c + 2 * DAY := by
      unfold DAY
      omega
    refine ⟨local_of c, hs, fun hholds => hyear ?_, fun h => absurd h hyear⟩
    refine year_of_held hc hholds ?_ ?_
    · rw [(second_of _ hc).1]
      exact hs.1
    · rw [(second_of _ hc).1]
      exact hs.2

end

/-- A moment comes back from its local time, and a local time from its moment. A local time that is passed more than
once is the moment of its offset, or the one asked for; one that is skipped, where changes near it are rare, is what
the offset after the change or before it makes it; and nothing else is refused but what is out of its range. -/
theorem civil_moments (zone : Option Zone) :
    (∀ ns how, Holds ns → from_civil (civil ns zone).fields zone how = .ok ns) ∧
    (∀ c ns, from_civil c zone .reject = .ok ns ↔ Holds ns ∧ Shows zone c ns ∧
      ((∀ ns', Shows zone c ns' → ns' = ns) ∨ c.offset = (civil ns zone).fields.offset)) ∧
    (∀ c ns how, Holds ns → Shows zone c ns → c.offset = (civil ns zone).fields.offset → from_civil c zone how = .ok ns) ∧
    (∀ c ns, Holds ns → (∀ ns', Shows zone c ns' → c.offset ≠ (civil ns' zone).fields.offset) →
      (IsLeast {ns | Shows zone c ns} ns → from_civil c zone .earlier = .ok ns ∧ from_civil c zone .compatible = .ok ns) ∧
      (IsGreatest {ns | Shows zone c ns} ns → from_civil c zone .later = .ok ns)) ∧
    (∀ c, InRange c → (∀ ns, ¬Shows zone c ns) → RareNear zone (local_of c) →
      ∃ s, Skips (zone_offset zone) (local_of c) s ∧ ∀ ns, Holds ns →
        (ns = (local_of c - zone_offset zone s) * NS + c.ns → from_civil c zone .earlier = .ok ns) ∧
        (ns = (local_of c - zone_offset zone (s - 1)) * NS + c.ns →
          from_civil c zone .later = .ok ns ∧ from_civil c zone .compatible = .ok ns)) ∧
    ∀ c how why, how ≠ .reject → InRange c → from_civil c zone how = .error why →
      ∃ s, (local_of c - 2 * DAY ≤ s ∧ s ≤ local_of c + 2 * DAY) ∧ ¬Holds (s * NS + c.ns) ∧
        (1676 ≤ c.year ∧ c.year ≤ 2263 → resolve c zone how = .ok s) := by
  refine ⟨fun ns how hholds => from_civil_offset hholds rfl rfl, fun c ns => from_civil_reject_iff,
    fun c ns how hholds h hoffset => from_civil_offset hholds h hoffset, ?_, ?_,
    fun c how why hhow hc h => from_civil_refused hhow hc h⟩
  · intro c ns hholds hoffset
    refine ⟨fun h => ⟨?_, ?_⟩, fun h => from_civil_last hholds hoffset h⟩
    · exact from_civil_first hholds hoffset (.inl rfl) h
    · exact from_civil_first hholds hoffset (.inr rfl) h
  · intro c hc hnot hrare
    obtain ⟨s, hs, hok⟩ := from_civil_skipped hc hnot hrare
    refine ⟨s, hs, fun ns hholds => ⟨fun h => ?_, fun h => ⟨?_, ?_⟩⟩⟩
    · exact hok ns .earlier hholds nofun h
    · exact hok ns .later hholds nofun h
    · exact hok ns .compatible hholds nofun h

/-- A clock moved an hour ahead at the first second skips the half hour after it, which is then before it or after. -/
theorem civil_moments_skipped :
    from_civil { midnight_of epoch_day with minute := 30 } (some (one_change 0 0 3600 (by decide) (by decide))) .earlier =
        .ok (-1800 * NS) ∧
      from_civil { midnight_of epoch_day with minute := 30 } (some (one_change 0 0 3600 (by decide) (by decide))) .later =
        .ok (1800 * NS) := by
  have hlocal : local_of { midnight_of epoch_day with minute := 30 } = 1800 := by decide
  obtain ⟨-, -, -, -, hskipped, -⟩ := civil_moments (some (one_change 0 0 3600 (by decide) (by decide)))
  obtain ⟨s, ⟨hs₁, hs₂⟩, hok⟩ := hskipped { midnight_of epoch_day with minute := 30 }
    ⟨⟨by decide, by decide⟩, by decide, by decide, by decide, by decide⟩
    (by
      intro ns h
      have hread := (shows_iff.mp h).2.1
      rw [one_change_offset, hlocal] at hread
      split at hread <;> omega)
    fun a b ha hb _ _ hab => one_change_rare 0 _ _ a b ha hb hab
  simp only [hlocal, one_change_offset] at hs₁ hs₂ hok
  obtain rfl : s = 0 := by
    split at hs₁ <;> split at hs₂ <;> omega
  exact ⟨(hok _ (by unfold Holds; decide)).1 rfl, ((hok _ (by unfold Holds; decide)).2 rfl).1⟩

/-- A clock moved an hour back at the first second shows that midnight twice: with the offset of the second time it
is that one also where the earlier is asked for. -/
theorem earlier_not_first : ¬∀ (zone : Option Zone) (c : CivilFields) (ns : ℤ), Holds ns →
    IsLeast {ns | Shows zone c ns} ns → from_civil c zone .earlier = .ok ns := by
  intro h
  have hlocal : local_of { midnight_of epoch_day with offset := some 0 } = 0 := by decide
  have hread : ∀ ns, Shows (some (one_change 0 3600 0 (by decide) (by decide)))
      { midnight_of epoch_day with offset := some 0 } ns ↔ (ns / NS = -3600 ∨ ns / NS = 0) ∧ ns % NS = 0 := by
    intro ns
    rw [shows_iff, one_change_offset, hlocal]
    constructor
    · rintro ⟨-, hs, hns⟩
      refine ⟨?_, hns⟩
      split at hs <;> omega
    · rintro ⟨hs, hns⟩
      refine ⟨⟨⟨by decide, by decide⟩, by decide, by decide, by decide, by decide⟩, ?_, hns⟩
      rcases hs with hs | hs
      · rw [hs]
        rfl
      · rw [hs]
        rfl
  have hfirst := h _ _ (-3600 * NS) (by unfold Holds; decide) ⟨(hread _).mpr (by decide), fun ns hns => by
    have := ((hread ns).mp hns).1
    unfold NS at this ⊢
    omega⟩
  rw [from_civil_offset (show Holds 0 by unfold Holds; decide) ((hread 0).mpr (by decide)) rfl] at hfirst
  exact absurd (ok.inj hfirst) (by decide)

end Cosmic.Time
