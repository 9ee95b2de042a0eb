/-
POSIX TZ strings, as `parse_posix` reads them: `EST5EDT,M3.2.0,M11.1.0`.

What a string that is accepted comes to is within the bounds that every reader checks as it goes: an
offset through 24 hours and a rule's time through 167, each with minutes and seconds, and the days a
rule can name. A reader that failed answers 0, so a bound holds of an answer where the cursor has not
failed.
-/
import Cosmic.Time.Cursor
import Cosmic.Time.Zone

set_option autoImplicit false

namespace Cosmic.Time

open Cosmic.Base

/-! ## The readers -/

/-- `[%w+-]` -/
def is_quoted (b : UInt8) : Bool := isAlpha b || isDigit b || b == 43 || b == 45

/-- Three or more letters, or three or more letters, digits and signs between `<` and `>`. -/
def abbreviation (tz : Bytes) (cur : Cursor) (what : Bytes) : Bytes × Cursor :=
  match cur.why with
  | some _ => ([], cur)
  | none =>
    let first := cur.at_
    if byte tz first = some 60 then
      match find (· == 62) tz (first + 1) with
      | none => ([], fail cur (what ++ lit " at byte " ++ tostring first ++ lit ": no \">\" closes it"))
      | some close =>
        let body := sub tz (first + 1) (close - 1)
        if body.length < 3 ∨ ¬body.all is_quoted then
          ([], fail cur (what ++ lit " at byte " ++ tostring first ++
            lit ": expected three or more letters, digits, \"+\" or \"-\" between \"<\" and \">\""))
        else (body, { cur with at_ := close + 1 })
    else
      let letters := (tz.drop (first - 1)).takeWhile isAlpha
      if letters.length < 3 then
        ([], fail cur (what ++ lit " at byte " ++ tostring first ++ lit ": expected three or more letters"))
      else (letters, { cur with at_ := first + letters.length })

/-- A number of at most `most` digits that is `lo` through `hi`. -/
def number (tz : Bytes) (cur : Cursor) (most lo hi : ℕ) (what : Bytes) : ℕ × Cursor :=
  let first := cur.at_
  let (n, cur) := read_digits tz cur most what (some 1)
  if n < lo ∨ n > hi then
    (0, fail cur (what ++ lit " " ++ tostring n ++ lit " at byte " ++ tostring first ++ lit " is not " ++ tostring lo ++
      lit " through " ++ tostring hi))
  else (n, cur)

/-- `:` and a number of sixtieths, or none. -/
def sixtieths (tz : Bytes) (cur : Cursor) (what : Bytes) : ℕ × Bool × Cursor :=
  let (more, cur) := accept tz cur (lit ":")
  if more then
    let (n, cur) := number tz cur 2 0 59 what
    (n, true, cur)
  else (0, false, cur)

/-- `[+-]hh[:mm[:ss]]`, as seconds. -/
def duration (tz : Bytes) (cur : Cursor) (hours : ℕ) (what : Bytes) : ℤ × Cursor :=
  let (negative, cur) := accept tz cur (lit "-")
  let cur := if negative then cur else (accept tz cur (lit "+")).2
  let (h, cur) := number tz cur 3 0 hours (what ++ lit "'s hours")
  let (m, more, cur) := sixtieths tz cur (what ++ lit "'s minutes")
  let (sec, cur) :=
    if more then
      let (sec, _, cur) := sixtieths tz cur (what ++ lit "'s seconds")
      (sec, cur)
    else (0, cur)
  match cur.why with
  | some _ => (0, cur)
  | none => ((if negative then -1 else 1) * (h * 3600 + m * 60 + sec), cur)

/-- The day of a rule. -/
def form (tz : Bytes) (cur : Cursor) (what : Bytes) : Form × Cursor :=
  let (julian, cur) := accept tz cur (lit "J")
  if julian then
    let (day, cur) := number tz cur 3 1 365 (what ++ lit "'s day")
    (.J day, cur)
  else
    let (month_form, cur) := accept tz cur (lit "M")
    if month_form then
      let (month, cur) := number tz cur 2 1 12 (what ++ lit "'s month")
      let cur := expect tz cur (lit ".") (lit "after " ++ what ++ lit "'s month")
      let (week, cur) := number tz cur 1 1 5 (what ++ lit "'s week")
      let cur := expect tz cur (lit ".") (lit "after " ++ what ++ lit "'s week")
      let (weekday, cur) := number tz cur 1 0 6 (what ++ lit "'s weekday")
      (.M month week weekday, cur)
    else
      let (day, cur) := number tz cur 3 0 365 (what ++ lit "'s day")
      (.n day, cur)

/-- A rule: its time is two o'clock where it gives none. -/
def rule (tz : Bytes) (cur : Cursor) (what : Bytes) : Rule × Cursor :=
  let (form, cur) := form tz cur what
  let (timed, cur) := accept tz cur (lit "/")
  if timed then
    let (time, cur) := duration tz cur 167 (what ++ lit "'s time")
    ({ form := form, time := time }, cur)
  else ({ form := form, time := 7200 }, cur)

/-- The United States' rules since 2007. -/
def default_start : Rule := { form := .M 3 2 0, time := 7200 }

def default_finish : Rule := { form := .M 11 1 0, time := 7200 }

/-- Daylight saving time's offset, an hour ahead of standard time's where it is not given. -/
def saving_offset (tz : Bytes) (cur : Cursor) (std : ℤ) : ℤ × Cursor :=
  if cur.at_ ≤ tz.length ∧ byte tz cur.at_ ≠ some 44 then
    let (west, cur) := duration tz cur 24 (lit "daylight saving time's offset")
    (-west, cur)
  else (std + 3600, cur)

/-- `parse_posix(tz)` -/
def parse_posix (tz : Bytes) : Except Bytes Posix :=
  if tz.length > 256 then .error (lit "a TZ string is at most 256 bytes, not " ++ tostring tz.length)
  else
    let (std_name, cur) := abbreviation tz cursor (lit "standard time's abbreviation")
    let (west, cur) := duration tz cur 24 (lit "standard time's offset")
    match cur.why with
    | some why => .error why
    | none =>
      let std : Kind := { offset := -west, abbreviation := std_name, dst := false }
      if cur.at_ > tz.length then .ok { std := std, dst := none }
      else
        let (dst_name, cur) := abbreviation tz cur (lit "daylight saving time's abbreviation")
        match cur.why with
        | some why => .error why
        | none =>
          let (offset, cur) := saving_offset tz cur std.offset
          match cur.why with
          | some why => .error why
          | none =>
            let kind : Kind := { offset := offset, abbreviation := dst_name, dst := true }
            if cur.at_ > tz.length then
              .ok { std := std, dst := some { kind := kind, start := default_start, finish := default_finish } }
            else
              let cur := expect tz cur (lit ",") (lit "before daylight saving time's rules")
              let (start, cur) := rule tz cur (lit "daylight saving time's start")
              let cur := expect tz cur (lit ",") (lit "between daylight saving time's start and end")
              let (stop, cur) := rule tz cur (lit "daylight saving time's end")
              let cur := finish tz cur
              match cur.why with
              | some why => .error why
              | none => .ok { std := std, dst := some { kind := kind, start := start, finish := stop } }

/-!
What `parse_posix` accepts is within bounds.

`Reads` says what a reader promises: where it has not failed it had not failed before, and what it
answers is of `P`. Each reader's promise is made from those of the readers it calls.
-/

/-- What a reader that began at `cur` promises of its answer. -/
def Reads {α : Type} (cur : Cursor) (P : α → Prop) (r : α × Cursor) : Prop := r.2.why = none → cur.why = none ∧ P r.1

theorem Reads.of_failed {α : Type} {cur : Cursor} {P : α → Prop} {a : α} {cur' : Cursor} (h : cur'.why ≠ none) :
    Reads cur P (a, cur') := fun hwhy => absurd hwhy h

section

variable (tz : Bytes) (cur : Cursor)

/-! ## The readers -/

theorem number_reads (most lo hi : ℕ) (what : Bytes) :
    Reads cur (fun n => lo ≤ n ∧ n ≤ hi) (number tz cur most lo hi what) := by
  unfold number
  rcases hr : read_digits tz cur most what (some 1) with ⟨n, c⟩
  dsimp only
  split
  next => exact Reads.of_failed (fail_failed _ _)
  next hn =>
    intro hwhy
    have hc : (read_digits tz cur most what (some 1)).2.why = none := by rw [hr]; exact hwhy
    exact ⟨read_digits_kept hc, by omega⟩

theorem sixtieths_reads (what : Bytes) : Reads cur (fun r => r ≤ 59) ((sixtieths tz cur what).1, (sixtieths tz cur what).2.2) := by
  have hwhy := accept_why tz cur (lit ":")
  unfold sixtieths
  rcases hr : accept tz cur (lit ":") with ⟨more, c⟩
  rw [hr] at hwhy
  cases more with
  | true =>
    have hn := number_reads tz c 2 0 59 what
    intro hdone
    exact ⟨hwhy.symm.trans (hn hdone).1, (hn hdone).2.2⟩
  | false =>
    intro hdone
    exact ⟨hwhy.symm.trans hdone, Nat.zero_le _⟩

theorem duration_reads (hours : ℕ) (what : Bytes) :
    Reads cur (fun d => -(hours * 3600 + 3599 : ℤ) ≤ d ∧ d ≤ hours * 3600 + 3599) (duration tz cur hours what) := by
  have hwhy := accept_why tz cur (lit "-")
  unfold duration
  rcases hr : accept tz cur (lit "-") with ⟨negative, c⟩
  rw [hr] at hwhy
  dsimp only
  have hsign : (if negative then c else (accept tz c (lit "+")).2).why = cur.why := by
    split
    · exact hwhy
    · rwa [accept_why]
  generalize (if negative then c else (accept tz c (lit "+")).2) = c₁ at hsign ⊢
  have hh := number_reads tz c₁ 3 0 hours (what ++ lit "'s hours")
  generalize number tz c₁ 3 0 hours (what ++ lit "'s hours") = r at hh ⊢
  obtain ⟨h, c₂⟩ := r
  have hm := sixtieths_reads tz c₂ (what ++ lit "'s minutes")
  generalize sixtieths tz c₂ (what ++ lit "'s minutes") = r at hm ⊢
  obtain ⟨m, more, c₃⟩ := r
  dsimp only
  have hs : ∀ r : ℕ × Cursor, r = (if more then
      ((sixtieths tz c₃ (what ++ lit "'s seconds")).1, (sixtieths tz c₃ (what ++ lit "'s seconds")).2.2) else (0, c₃)) →
      Reads c₃ (fun sec => sec ≤ 59) r := by
    rintro r rfl
    split
    · exact sixtieths_reads tz c₃ _
    · exact fun hdone => ⟨hdone, Nat.zero_le _⟩
  have hsec := hs _ rfl
  generalize (if more then _ else (0, c₃) : ℕ × Cursor) = r at hsec ⊢
  obtain ⟨sec, c₄⟩ := r
  cases hdone : c₄.why with
  | some why => exact Reads.of_failed (hdone ▸ Option.some_ne_none why)
  | none =>
    obtain ⟨h₃, hsec⟩ := hsec hdone
    obtain ⟨h₂, hm⟩ := hm h₃
    obtain ⟨h₁, -, hh⟩ := hh h₂
    intro _
    refine ⟨hsign.symm.trans h₁, ?_⟩
    dsimp only at hsec hm hh ⊢
    split <;> omega

theorem form_reads (what : Bytes) : Reads cur Form.Valid (form tz cur what) := by
  have hJ := accept_why tz cur (lit "J")
  unfold form
  rcases hr : accept tz cur (lit "J") with ⟨julian, c⟩
  rw [hr] at hJ
  cases julian with
  | true =>
    have hn := number_reads tz c 3 1 365 (what ++ lit "'s day")
    intro hdone
    obtain ⟨hc, h₁, h₂⟩ := hn hdone
    exact ⟨hJ.symm.trans hc, by exact_mod_cast h₁, by exact_mod_cast h₂⟩
  | false =>
    dsimp only
    have hM := accept_why tz c (lit "M")
    generalize accept tz c (lit "M") = r at hM ⊢
    obtain ⟨month_form, c₁⟩ := r
    cases month_form with
    | false =>
      have hn := number_reads tz c₁ 3 0 365 (what ++ lit "'s day")
      intro hdone
      obtain ⟨hc, h₁, h₂⟩ := hn hdone
      exact ⟨hJ.symm.trans (hM.symm.trans hc), by exact_mod_cast h₁, by exact_mod_cast h₂⟩
    | true =>
      have hmonth := number_reads tz c₁ 2 1 12 (what ++ lit "'s month")
      generalize number tz c₁ 2 1 12 (what ++ lit "'s month") = r at hmonth ⊢
      obtain ⟨month, c₂⟩ := r
      dsimp only
      have hdot := fun h => expect_kept tz c₂ (lit ".") (lit "after " ++ what ++ lit "'s month") h
      generalize expect tz c₂ (lit ".") (lit "after " ++ what ++ lit "'s month") = c₃ at hdot ⊢
      have hweek := number_reads tz c₃ 1 1 5 (what ++ lit "'s week")
      generalize number tz c₃ 1 1 5 (what ++ lit "'s week") = r at hweek ⊢
      obtain ⟨week, c₄⟩ := r
      have hdot' := fun h => expect_kept tz c₄ (lit ".") (lit "after " ++ what ++ lit "'s week") h
      generalize expect tz c₄ (lit ".") (lit "after " ++ what ++ lit "'s week") = c₅ at hdot' ⊢
      have hday := number_reads tz c₅ 1 0 6 (what ++ lit "'s weekday")
      intro hdone
      obtain ⟨h₅, hd₁, hd₂⟩ := hday hdone
      obtain ⟨h₃, hw₁, hw₂⟩ := hweek (hdot' h₅)
      obtain ⟨h₁, hm₁, hm₂⟩ := hmonth (hdot h₃)
      refine ⟨hJ.symm.trans (hM.symm.trans h₁), ⟨?_, ?_⟩, ⟨?_, ?_⟩, ?_, ?_⟩
      all_goals exact_mod_cast (by assumption)

theorem rule_reads (what : Bytes) : Reads cur Rule.Valid (rule tz cur what) := by
  unfold rule
  have hform := form_reads tz cur what
  generalize form tz cur what = r at hform ⊢
  obtain ⟨form, c⟩ := r
  dsimp only
  have hwhy := accept_why tz c (lit "/")
  rcases hr : accept tz c (lit "/") with ⟨timed, c₁⟩
  rw [hr] at hwhy
  cases timed with
  | true =>
    have htime := duration_reads tz c₁ 167 (what ++ lit "'s time")
    intro hdone
    obtain ⟨h₁, ht₁, ht₂⟩ := htime hdone
    obtain ⟨h, hform⟩ := hform (hwhy.symm.trans h₁)
    exact ⟨h, hform, by simpa using ht₁, by simpa using ht₂⟩
  | false =>
    dsimp only
    intro hdone
    obtain ⟨h, hform⟩ := hform (hwhy.symm.trans hdone)
    exact ⟨h, hform, by simp, by simp⟩

theorem saving_offset_reads (std : ℤ) (hstd : -89999 ≤ std ∧ std ≤ 89999) :
    Reads cur (fun o => -89999 ≤ o ∧ o ≤ 93599) (saving_offset tz cur std) := by
  unfold saving_offset
  split
  · have hwest := duration_reads tz cur 24 (lit "daylight saving time's offset")
    generalize duration tz cur 24 (lit "daylight saving time's offset") = r at hwest ⊢
    intro hdone
    obtain ⟨h, h₁, h₂⟩ := hwest hdone
    dsimp only at h₁ h₂ ⊢
    exact ⟨h, by omega, by omega⟩
  · exact fun hdone => ⟨hdone, by dsimp only; omega, by dsimp only; omega⟩

end

/-! ## What is accepted -/

theorem default_start_valid : default_start.Valid := ⟨by unfold Form.Valid default_start; decide, by decide⟩

theorem default_finish_valid : default_finish.Valid := ⟨by unfold Form.Valid default_finish; decide, by decide⟩

theorem parse_posix_valid {tz : Bytes} {p : Posix} (h : parse_posix tz = .ok p) : p.Valid := by
  unfold parse_posix at h
  split at h
  next => cases h
  next =>
    generalize abbreviation tz cursor (lit "standard time's abbreviation") = r at h
    obtain ⟨std_name, c⟩ := r
    dsimp only at h
    have hwest := duration_reads tz c 24 (lit "standard time's offset")
    generalize duration tz c 24 (lit "standard time's offset") = r at hwest h
    obtain ⟨west, c₁⟩ := r
    split at h
    next => cases h
    next hwhy =>
      obtain ⟨-, hw₁, hw₂⟩ := hwest hwhy
      have hstd : Kind.InRange ⟨-west, std_name, false⟩ := ⟨by dsimp only; omega, by dsimp only; omega⟩
      split at h
      next =>
        cases h
        exact ⟨hstd, by rintro _ ⟨⟩⟩
      next =>
        generalize abbreviation tz c₁ (lit "daylight saving time's abbreviation") = r at h
        obtain ⟨dst_name, c₂⟩ := r
        split at h
        next => cases h
        next =>
          have hoff := saving_offset_reads tz c₂ (-west) ⟨by omega, by omega⟩
          generalize saving_offset tz c₂ (-west) = r at hoff h
          obtain ⟨offset, c₃⟩ := r
          split at h
          next => cases h
          next hwhy₃ =>
            have hkind : Kind.InRange ⟨offset, dst_name, true⟩ := (hoff hwhy₃).2
            split at h
            next =>
              cases h
              refine ⟨hstd, ?_⟩
              rintro d ⟨rfl⟩
              exact ⟨hkind, default_start_valid, default_finish_valid⟩
            next =>
              generalize expect tz c₃ (lit ",") (lit "before daylight saving time's rules") = c₄ at h
              have hstart := rule_reads tz c₄ (lit "daylight saving time's start")
              generalize rule tz c₄ (lit "daylight saving time's start") = r at hstart h
              obtain ⟨start, c₅⟩ := r
              have hcomma := fun h => expect_kept tz c₅ (lit ",")
                (lit "between daylight saving time's start and end") h
              generalize expect tz c₅ (lit ",") (lit "between daylight saving time's start and end") = c₆ at h hcomma
              have hstop := rule_reads tz c₆ (lit "daylight saving time's end")
              generalize rule tz c₆ (lit "daylight saving time's end") = r at hstop h
              dsimp only at h
              split at h
              next => cases h
              next hwhy₇ =>
                cases h
                obtain ⟨h₆, hstop⟩ := hstop (finish_kept hwhy₇)
                obtain ⟨-, hstart⟩ := hstart (hcomma h₆)
                refine ⟨hstd, ?_⟩
                rintro d ⟨rfl⟩
                exact ⟨hkind, hstart, hstop⟩

end Cosmic.Time
