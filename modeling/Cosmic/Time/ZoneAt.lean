/-
What a TZ string says of a moment is what POSIX defines.

`Names` says which day of a year a rule names, without computing it, and `Says` what a TZ string says
of a moment by all the changes of all the years. The loop of `posix_kind` looks at four years. They
are enough, since a rule's changes of later years come later: what comes after these four is past the
moment, however far a rule's time moves its change, and what comes before them is before the two
changes of the first of the four, which are past.
-/
import Cosmic.Time.Zone
import Mathlib.Data.List.TakeWhile
import Mathlib.Order.Bounds.Basic

set_option autoImplicit false

namespace Cosmic.Time

/-! ## The days rules name -/

/-- The day of February 29, in a year that has one. -/
def feb29 (y : ℤ) : ℤ := days_from_civil y 2 29

/-- The days a rule names in the year `y`: `Jn` counts the days of the year from 1 and never counts
February 29, `n` counts them all from 0, and `Mm.w.d` is the `w`th weekday `d` of its month, the
last one for 5. Day 4 is a Sunday minus four: 1970-01-01 was a Thursday. -/
def Form.Names (r : Form) (y day : ℤ) : Prop :=
  match r with
  | .J count =>
    jan1 y ≤ day ∧ day < jan1 (y + 1) ∧ (leap y = true → day ≠ feb29 y) ∧
      day - jan1 y + 1 - (if leap y ∧ feb29 y < day then 1 else 0) = count
  | .n count => day = jan1 y + count
  | .M month week weekday =>
    let first := days_from_civil y month 1
    first ≤ day ∧ day < first + month_days y month ∧ (day + 4) % 7 = weekday ∧
      if week = 5 then first + month_days y month ≤ day + 7 else (day - first) / 7 = week - 1

theorem feb29_eq (y : ℤ) : feb29 y = jan1 y + 59 := by
  unfold feb29 jan1
  rw [days_from_civil_eq, days_from_civil_eq]
  norm_num
  omega

theorem month_days_bounds {y m : ℤ} (h₁ : 1 ≤ m) (h₂ : m ≤ 12) : 28 ≤ month_days y m ∧ month_days y m ≤ 31 := by
  unfold month_days
  split
  · decide
  · obtain rfl | rfl | rfl | rfl | rfl | rfl | rfl | rfl | rfl | rfl | rfl | rfl : m = 1 ∨ m = 2 ∨ m = 3 ∨ m = 4 ∨
        m = 5 ∨ m = 6 ∨ m = 7 ∨ m = 8 ∨ m = 9 ∨ m = 10 ∨ m = 11 ∨ m = 12 := by omega
    all_goals decide

theorem rule_day_J (count y : ℤ) :
    rule_day (.J count) y = jan1 y + count - 1 + (if count ≥ 60 ∧ leap y then 1 else 0) := rfl

theorem rule_day_M (month week weekday y : ℤ) : rule_day (.M month week weekday) y =
      let first := days_from_civil y month 1
      let day := first + (weekday - (first + 4) % 7 + 7) % 7 + (week - 1) * 7
      let last := first + month_days y month - 1
      if day > last then day - 7 * ((day - last + 6) / 7) else day := rfl

theorem names_iff {r : Form} (hr : r.Valid) (y day : ℤ) : r.Names y day ↔ day = rule_day r y := by
  cases r with
  | J count =>
    have hyear := jan1_succ y
    have hfeb := feb29_eq y
    unfold year_days at hyear
    simp only [Form.Valid] at hr
    rw [rule_day_J]
    simp only [Form.Names]
    by_cases hleap : leap y = true
    · simp only [hleap, if_true, and_true, true_and, forall_const] at hyear ⊢
      constructor
      · rintro ⟨h₁, h₂, h₃, h₄⟩
        split at h₄ <;> split <;> omega
      intro h
      split at h
      · rw [if_pos (by omega)]
        omega
      · rw [if_neg (by omega)]
        omega
    · simp only [hleap, and_false, if_false, Bool.false_eq_true] at hyear ⊢
      constructor
      · rintro ⟨h₁, h₂, h₃, h₄⟩
        rw [if_neg (by simp)] at h₄
        omega
      · intro h
        rw [if_neg (by simp)]
        exact ⟨by omega, by omega, by simp, by omega⟩
  | n count => exact Iff.rfl
  | M month week weekday =>
    obtain ⟨⟨hm₁, hm₂⟩, hw, hd⟩ := hr
    have hdays := month_days_bounds (y := y) hm₁ hm₂
    rw [rule_day_M]
    simp only [Form.Names]
    generalize days_from_civil y month 1 = first
    generalize month_days y month = days at hdays
    constructor
    · rintro ⟨h₁, h₂, h₃, h₄⟩
      split at h₄ <;> split <;> omega
    · intro h
      split at h
      · split <;> omega
      · split <;> omega

/-! ## Where a year's changes are -/

/-- The day a rule names is in a span of days that begins a year later each year, at a day of the
year. -/
theorem rule_day_span {r : Form} (hr : r.Valid) :
    ∃ base : ℤ → ℤ, (∀ y, base y + 365 ≤ base (y + 1)) ∧ (∀ y, jan1 y ≤ base y ∧ base y ≤ jan1 y + 365) ∧
      ∀ y, base y ≤ rule_day r y ∧ rule_day r y ≤ base y + 34 := by
  have hyear := fun y => jan1_succ y
  have hdays := year_days_bounds
  cases r with
  | J count =>
    simp only [Form.Valid] at hr
    refine ⟨fun y => jan1 y + count - 1, fun y => ?_, fun y => ?_, fun y => ?_⟩
    · have := hyear y
      have := hdays y
      dsimp only
      omega
    · dsimp only
      omega
    · rw [rule_day_J]
      dsimp only
      split <;> omega
  | n count =>
    simp only [Form.Valid] at hr
    refine ⟨fun y => jan1 y + count, fun y => ?_, fun y => ?_, fun y => ?_⟩
    · have := hyear y
      have := hdays y
      dsimp only
      omega
    · dsimp only
      omega
    · show jan1 y + count ≤ jan1 y + count ∧ jan1 y + count ≤ jan1 y + count + 34
      omega
  | M month week weekday =>
    obtain ⟨⟨hm₁, hm₂⟩, hw, hd⟩ := hr
    have hfirst : ∀ y, jan1 y ≤ days_from_civil y month 1 ∧ days_from_civil y month 1 ≤ jan1 y + 335 := by
      intro y
      rw [jan1_eq, days_from_civil_eq]
      split <;> omega
    refine ⟨fun y => days_from_civil y month 1, fun y => ?_, fun y => ?_, fun y => ?_⟩
    · simp only [days_from_civil_eq]
      split <;> omega
    · have := hfirst y
      dsimp only
      omega
    · have hdays := month_days_bounds (y := y) hm₁ hm₂
      rw [rule_day_M]
      dsimp only
      generalize days_from_civil y month 1 = first
      generalize month_days y month = days at hdays
      split <;> omega

theorem rule_day_bounds {r : Form} (hr : r.Valid) (y : ℤ) : jan1 y ≤ rule_day r y ∧ rule_day r y ≤ jan1 y + 399 := by
  obtain ⟨base, -, hbase, hday⟩ := rule_day_span hr
  have := hbase y
  have := hday y
  omega

theorem base_le {base : ℤ → ℤ} (h : ∀ y, base y + 365 ≤ base (y + 1)) (y : ℤ) (k : ℕ) : base y + 365 * k ≤ base (y + k) := by
  induction k with
  | zero => simp
  | succ k ih =>
    have := h (y + k)
    rw [show y + ((k + 1 : ℕ) : ℤ) = y + k + 1 by push_cast; ring]
    omega

theorem rule_day_lt {r : Form} (hr : r.Valid) {y y' : ℤ} (h : y < y') : rule_day r y < rule_day r y' := by
  obtain ⟨base, hstep, -, hday⟩ := rule_day_span hr
  have hle := base_le hstep y (y' - y).toNat
  rw [show y + ((y' - y).toNat : ℤ) = y' by omega] at hle
  have := hday y
  have := hday y'
  omega

theorem changes_lt {std : Kind} {d : Saving} (hd : d.Valid) {y y' : ℤ} (h : y < y') :
    (changes std d y).dst_start < (changes std d y').dst_start ∧ (changes std d y).dst_end < (changes std d y').dst_end := by
  have hs := rule_day_lt hd.start.form h
  have hf := rule_day_lt hd.finish.form h
  unfold changes DAY
  dsimp only
  omega

theorem changes_bounds {std : Kind} {d : Saving} (hstd : std.InRange) (hd : d.Valid) (y : ℤ) :
    (jan1 y * DAY - 14 * DAY ≤ (changes std d y).dst_start + std.offset ∧
        (changes std d y).dst_start + std.offset ≤ jan1 y * DAY + 413 * DAY) ∧
      jan1 y * DAY - 14 * DAY ≤ (changes std d y).dst_end + std.offset ∧
        (changes std d y).dst_end + std.offset ≤ jan1 y * DAY + 413 * DAY := by
  have hs := rule_day_bounds hd.start.form y
  have hf := rule_day_bounds hd.finish.form y
  have hst := hd.start.time
  have hft := hd.finish.time
  have hk := hd.kind
  unfold Kind.InRange at hstd hk
  unfold changes DAY
  dsimp only
  omega

/-! ## The latest change -/

/-- Daylight saving time starts at the moment `m`: at a local standard time. -/
def Starts (std : Kind) (d : Saving) (m : ℤ) : Prop :=
  ∃ y day, d.start.form.Names y day ∧ m = day * DAY + d.start.time - std.offset

/-- Daylight saving time ends at the moment `m`: at a local daylight saving time. -/
def Ends (d : Saving) (m : ℤ) : Prop := ∃ y day, d.finish.form.Names y day ∧ m = day * DAY + d.finish.time - d.kind.offset

/-- What a TZ string says of `s` is `k`: by the latest of all changes of all years at or before `s`, and
where a start and an end are latest together, by the start. -/
def Posix.Says (p : Posix) (s : ℤ) (k : Kind) : Prop :=
  match p.dst with
  | none => k = p.std
  | some d =>
    ∃ m, IsGreatest {m | (Starts p.std d m ∨ Ends d m) ∧ m ≤ s} m ∧
      ((Starts p.std d m ∧ k = d.kind) ∨ (¬Starts p.std d m ∧ k = p.std))

theorem starts_iff {std : Kind} {d : Saving} (hd : d.Valid) (m : ℤ) :
    Starts std d m ↔ ∃ y, m = (changes std d y).dst_start := by
  unfold Starts
  simp only [names_iff hd.start.form, exists_eq_left]
  exact Iff.rfl

theorem ends_iff (std : Kind) {d : Saving} (hd : d.Valid) (m : ℤ) :
    Ends d m ↔ ∃ y, m = (changes std d y).dst_end := by
  unfold Ends
  simp only [names_iff hd.finish.form, exists_eq_left]
  exact Iff.rfl

/-- What the loop has when it has been over the years `ys`: the latest of their changes at or before
`s`, if there is one, and whether it is a start. -/
structure Latest.Holds (s : ℤ) (c : ℤ → Changes) (ys : List ℤ) (l : Latest) : Prop where
  starts_le : ∀ y ∈ ys, (c y).dst_start ≤ s → (c y).dst_start ≤ l.best
  ends_le : ∀ y ∈ ys, (c y).dst_end ≤ s → (c y).dst_end ≤ l.best
  latest : l.best = -2 ^ 63 ∨ l.best ≤ s ∧ (l.starts = true ∧ (∃ y ∈ ys, (c y).dst_start = l.best) ∨
      l.starts = false ∧ (∃ y ∈ ys, (c y).dst_end = l.best) ∧ ∀ y ∈ ys, (c y).dst_start ≠ l.best)

theorem Latest.Holds.nil (s : ℤ) (c : ℤ → Changes) : Latest.Holds s c [] ⟨-2 ^ 63, false⟩ := ⟨nofun, nofun, .inl rfl⟩

theorem Latest.Holds.year {s : ℤ} {c : ℤ → Changes} {ys : List ℤ} {l : Latest} (h : l.Holds s c ys) (y : ℤ) :
    (l.year s (c y)).Holds s c (ys ++ [y]) := by
  obtain ⟨hstarts, hends, hlatest⟩ := h
  have hmem : ∀ {P : ℤ → Prop}, (∀ x ∈ ys, P x) → P y → ∀ x ∈ ys ++ [y], P x := by
    intro P hys hy x hx
    rcases List.mem_append.mp hx with hx | hx
    · exact hys x hx
    · rwa [List.mem_singleton.mp hx]
  have hlast : y ∈ ys ++ [y] := List.mem_append_right _ List.mem_cons_self
  have hold : ∀ {P : ℤ → Prop}, (∃ x ∈ ys, P x) → ∃ x ∈ ys ++ [y], P x := fun ⟨x, hx, hP⟩ =>
    ⟨x, List.mem_append_left _ hx, hP⟩
  unfold Latest.year
  by_cases hend : (c y).dst_end ≤ s ∧ (c y).dst_end > l.best
  · rw [if_pos hend]
    by_cases hstart : (c y).dst_start ≤ s ∧ (c y).dst_start ≥ (c y).dst_end
    · rw [if_pos hstart]
      refine ⟨hmem (fun x hx hs => ?_) fun _ => le_rfl, hmem (fun x hx hs => ?_) fun _ => hstart.2, .inr ⟨hstart.1, ?_⟩⟩
      · have := hstarts x hx hs
        dsimp only
        omega
      · have := hends x hx hs
        dsimp only
        omega
      · exact .inl ⟨rfl, y, hlast, rfl⟩
    · rw [if_neg hstart]
      refine ⟨hmem (fun x hx hs => ?_) fun hs => ?_, hmem (fun x hx hs => ?_) fun _ => le_rfl, .inr ⟨hend.1, .inr ?_⟩⟩
      · have := hstarts x hx hs
        dsimp only
        omega
      · dsimp only
        omega
      · have := hends x hx hs
        dsimp only
        omega
      · refine ⟨rfl, ⟨y, hlast, rfl⟩, hmem (fun x hx heq => ?_) fun heq => ?_⟩
        · have := hstarts x hx
          dsimp only at heq
          omega
        · dsimp only at heq
          omega
  · rw [if_neg hend]
    by_cases hstart : (c y).dst_start ≤ s ∧ (c y).dst_start ≥ l.best
    · rw [if_pos hstart]
      refine ⟨hmem (fun x hx hs => ?_) fun _ => le_rfl, hmem (fun x hx hs => ?_) fun hs => ?_, .inr ⟨hstart.1, ?_⟩⟩
      · have := hstarts x hx hs
        dsimp only
        omega
      · have := hends x hx hs
        dsimp only
        omega
      · dsimp only
        omega
      · exact .inl ⟨rfl, y, hlast, rfl⟩
    · rw [if_neg hstart]
      refine ⟨hmem hstarts (by omega), hmem hends (by omega), hlatest.imp_right fun ⟨hs, hl⟩ => ⟨hs, ?_⟩⟩
      rcases hl with ⟨hl, hy⟩ | ⟨hl, hy, hne⟩
      · exact .inl ⟨hl, hold hy⟩
      · exact .inr ⟨hl, hold hy, hmem hne fun heq => by omega⟩

/-! ## Four years are enough -/

/-- The changes of the years from the second before a moment's to the one after it, against the
moment. -/
theorem changes_near {std : Kind} {d : Saving} (hstd : std.InRange) (hd : d.Valid) (s : ℤ) {year : ℤ}
    (hyear : year = (civil_from_days ((s + std.offset) / DAY)).year) :
    ((changes std d (year - 2)).dst_start ≤ s ∧ (changes std d (year - 2)).dst_end ≤ s) ∧
      (∀ y, year + 2 ≤ y → s < (changes std d y).dst_start ∧ s < (changes std d y).dst_end) ∧
        ∀ y, year - 2 ≤ y → s - 2000 * DAY < (changes std d y).dst_start ∧ s - 2000 * DAY < (changes std d y).dst_end := by
  obtain ⟨hafter, hbefore⟩ := year_near ((s + std.offset) / DAY)
  rw [← hyear] at hafter hbefore
  have h₁ := jan1_le (show year - 2 ≤ year - 1 by omega)
  have hspan : jan1 (year + 2) ≤ jan1 (year - 2) + 1500 := by
    rw [jan1_eq, jan1_eq]
    omega
  refine ⟨?_, fun y hy => ?_, fun y hy => ?_⟩
  · have := changes_bounds hstd hd (year - 2)
    unfold DAY at *
    omega
  · have h₂ := jan1_le hy
    have := changes_bounds hstd hd y
    unfold DAY at *
    omega
  · have h₂ := jan1_le hy
    have := changes_bounds hstd hd y
    unfold DAY at *
    omega

theorem posix_kind_says {p : Posix} (hp : p.Valid) {s : ℤ} (hs : -2 ^ 62 ≤ s) : p.Says s (posix_kind p s) := by
  unfold Posix.Says posix_kind
  cases hdst : p.dst with
  | none => rfl
  | some d =>
    have hd := hp.dst d hdst
    generalize hyear : (civil_from_days ((s + p.std.offset) / DAY)).year = year
    obtain ⟨⟨hstart, hend⟩, hlater, hlow⟩ := changes_near hp.std hd s hyear.symm
    have hholds := ((((Latest.Holds.nil s (changes p.std d)).year (year - 2)).year (year - 1)).year year).year (year + 1)
    simp only [List.foldl_cons, List.foldl_nil]
    suffices key : ∀ l : Latest, l.Holds s (changes p.std d) [year - 2, year - 1, year, year + 1] →
        ∃ m, IsGreatest {m | (Starts p.std d m ∨ Ends d m) ∧ m ≤ s} m ∧
          ((Starts p.std d m ∧ (if l.starts then d.kind else p.std) = d.kind) ∨
            (¬Starts p.std d m ∧ (if l.starts then d.kind else p.std) = p.std)) from key _ hholds
    intro l hl
    obtain ⟨hstarts, hends, hlatest⟩ := hl
    have hin : ∀ y, year - 2 ≤ y → y < year + 2 → y ∈ [year - 2, year - 1, year, year + 1] := by
      intro y h₁ h₂
      simp only [List.mem_cons, List.not_mem_nil, or_false]
      omega
    have hfirst := hstarts _ (hin (year - 2) (by omega) (by omega)) hstart
    have hfirst' := hends _ (hin (year - 2) (by omega) (by omega)) hend
    have hbest : l.best ≠ -2 ^ 63 := by
      have := (hlow (year - 2) (by omega)).1
      unfold DAY at this
      omega
    obtain ⟨hle, hlatest⟩ := hlatest.resolve_left hbest
    -- A change is of a year before the four, of one of them, or of one after.
    have hgreatest : ∀ m, (Starts p.std d m ∨ Ends d m) → m ≤ s → m ≤ l.best := by
      intro m hm hms
      rw [starts_iff hd, ends_iff p.std hd] at hm
      rcases hm with ⟨y, rfl⟩ | ⟨y, rfl⟩
      · rcases lt_or_ge y (year - 2) with hy | hy
        · exact (changes_lt hd hy).1.le.trans hfirst
        · rcases lt_or_ge y (year + 2) with hy' | hy'
          · exact hstarts y (hin y hy hy') hms
          · exact absurd hms (not_le.mpr (hlater y hy').1)
      · rcases lt_or_ge y (year - 2) with hy | hy
        · exact (changes_lt hd hy).2.le.trans hfirst'
        · rcases lt_or_ge y (year + 2) with hy' | hy'
          · exact hends y (hin y hy hy') hms
          · exact absurd hms (not_le.mpr (hlater y hy').2)
    refine ⟨l.best, ⟨⟨?_, hle⟩, fun m hm => hgreatest m hm.1 hm.2⟩, ?_⟩
    · rcases hlatest with ⟨-, y, -, hy⟩ | ⟨-, ⟨y, -, hy⟩, -⟩
      · exact .inl ((starts_iff hd _).mpr ⟨y, hy.symm⟩)
      · exact .inr ((ends_iff p.std hd _).mpr ⟨y, hy.symm⟩)
    rcases hlatest with ⟨hl, y, -, hy⟩ | ⟨hl, -, hne⟩
    · exact .inl ⟨(starts_iff hd _).mpr ⟨y, hy.symm⟩, by rw [hl]; rfl⟩
    refine .inr ⟨fun hst => ?_, by rw [hl]; rfl⟩
    obtain ⟨y, hy⟩ := (starts_iff hd _).mp hst
    rcases lt_or_ge y (year - 2) with hy₁ | hy₁
    · have : (changes p.std d y).dst_start < (changes p.std d (year - 2)).dst_start := (changes_lt hd hy₁).1
      omega
    · rcases lt_or_ge y (year + 2) with hy₂ | hy₂
      · exact hne y (hin y hy₁ hy₂) hy.symm
      · have := (hlater y hy₂).1
        omega

end Cosmic.Time

/-!
What a zone says of a moment is what RFC 8536 defines.

The transitions at or before a moment are the first so many, since they are in order: `past` is how
many, and the search of `kind_at` finds the last of them.
-/

namespace Cosmic.Time

open Cosmic.Base List Option Nat

/-! ## The transitions that are past -/

/-- How many transitions are at or before `s`. -/
def past (t : List ℤ) (s : ℤ) : ℕ := (t.takeWhile (· ≤ s)).length

theorem past_le (t : List ℤ) (s : ℤ) : past t s ≤ t.length := (List.takeWhile_prefix _).length_le

theorem past_iff {t : List ℤ} (h : t.Pairwise (· < ·)) (s : ℤ) {j : ℕ} {x : ℤ} (hx : t[j]? = some x) :
    x ≤ s ↔ j < past t s := by
  induction t generalizing j with
  | nil => cases hx
  | cons a t ih =>
    obtain ⟨ha, ht⟩ := pairwise_cons.mp h
    unfold past
    by_cases has : a ≤ s
    · rw [takeWhile_cons_of_pos (by simpa using has), length_cons]
      cases j with
      | zero =>
        rw [← some.inj hx]
        exact ⟨fun _ => succ_pos _, fun _ => has⟩
      | succ j =>
        exact (ih ht hx).trans succ_lt_succ_iff.symm
    · rw [takeWhile_cons_of_neg (by simpa using has), length_nil]
      refine ⟨fun hxs => absurd ?_ has, nofun⟩
      cases j with
      | zero =>
        rw [getElem?_cons_zero] at hx
        rwa [some.inj hx]
      | succ j =>
        rw [getElem?_cons_succ] at hx
        exact (ha x (mem_of_getElem? hx)).le.trans hxs

theorem item_eq {α : Type} {t : List α} {i : ℕ} (h₁ : 1 ≤ i) (h₂ : i ≤ t.length) (default : α) :
    t[i - 1]? = some (item t i default) := by
  unfold item
  rw [getD_eq_getElem?_getD, getElem?_eq_getElem (by omega), getD_some]

theorem item_le_iff {t : List ℤ} (h : t.Pairwise (· < ·)) (s : ℤ) {i : ℕ} (h₁ : 1 ≤ i) (h₂ : i ≤ t.length) :
    item t i 0 ≤ s ↔ i ≤ past t s := by
  rw [past_iff h s (item_eq h₁ h₂ 0)]
  omega

theorem latest_eq {rules : Rules} (h : rules.transitions.Pairwise (· < ·)) {s : ℤ}
    (hpast : 1 ≤ past rules.transitions s) :
    kind_at.latest rules s rules.transitions rules.transitions.length =
      item rules.kinds (past rules.transitions s) rules.first := by
  have hle := past_le rules.transitions s
  unfold kind_at.latest
  rw [last_passing_eq (fun x h₁ h₂ => ?_) hpast (by omega) (by omega), Nat.min_eq_left hle]
  rw [decide_eq_true_iff]
  exact item_le_iff h s (by omega) h₂

theorem kind_at_eq {rules : Rules} (h : rules.transitions.Pairwise (· < ·)) (s : ℤ) : kind_at rules s =
      if past rules.transitions s = 0 then
        (if rules.transitions = [] then rules.footer.elim rules.first (posix_kind · s) else rules.first)
      else if item rules.transitions rules.transitions.length 0 < s then
        rules.footer.elim (item rules.kinds (past rules.transitions s) rules.first) (posix_kind · s)
      else item rules.kinds (past rules.transitions s) rules.first := by
  have hle := past_le rules.transitions s
  have hnil : rules.transitions.length = 0 ↔ rules.transitions = [] := length_eq_zero_iff
  have hfirst : (rules.transitions.length = 0 ∨ s < item rules.transitions 1 0) ↔ past rules.transitions s = 0 := by
    by_cases hn : rules.transitions.length = 0
    · exact ⟨fun _ => by omega, fun _ => .inl hn⟩
    · have := item_le_iff h s (Nat.le_refl 1) (one_le_iff_ne_zero.mpr hn)
      omega
  unfold kind_at
  by_cases hp : past rules.transitions s = 0
  · rw [if_pos (hfirst.mpr hp), if_pos hp]
    cases rules.footer with
    | none => exact (ite_self _).symm
    | some p => exact if_congr hnil rfl rfl
  · rw [if_neg (mt hfirst.mp hp), if_neg hp]
    have hlatest := latest_eq h (s := s) (by omega)
    cases rules.footer with
    | none =>
      rw [hlatest]
      exact (ite_self _).symm
    | some p => exact if_congr Iff.rfl rfl hlatest

/-! ## What RFC 8536 defines -/

/-- What a zone says of `s` is `k`: local time type 0 before the first transition, that of the latest
transition at or before `s` up to the last, and what the TZ string says after the last, if there is
a TZ string; with no transitions it is what the TZ string says, or type 0 with none. -/
structure Rules.Says (rules : Rules) (s : ℤ) (k : Kind) : Prop where
  none : rules.transitions = [] → match rules.footer with
    | .none => k = rules.first
    | .some p => p.Says s k
  before : ∀ t ∈ rules.transitions.head?, s < t → k = rules.first
  latest : ∀ i t, rules.transitions[i]? = some t → t ≤ s → (∀ t' ∈ rules.transitions[i + 1]?, s < t') →
    (rules.footer = .none ∨ ∀ t' ∈ rules.transitions.getLast?, s ≤ t') → rules.kinds[i]? = some k
  after : ∀ p ∈ rules.footer, ∀ t ∈ rules.transitions.getLast?, t < s → p.Says s k

/-- `kind_at` answers what the zone says. -/
theorem kind_at_says {rules : Rules} (h : rules.Valid) {s : ℤ} (hs : -2 ^ 62 ≤ s) : rules.Says s (kind_at rules s) := by
  have hposix : ∀ p ∈ rules.footer, p.Says s (posix_kind p s) := fun p hp => posix_kind_says (h.footer p hp) hs
  rw [kind_at_eq h.ascending s]
  refine ⟨fun hnil => ?_, fun t ht hlt => ?_, fun i t hi hle hnext hlast => ?_, fun p hp t ht hlt => ?_⟩
  · have hpast : past rules.transitions s = 0 := by rw [hnil]; rfl
    rw [if_pos hpast, if_pos hnil]
    cases hf : rules.footer with
    | none => rfl
    | some p => exact hposix p hf
  · rw [head?_eq_getElem?] at ht
    have hpast : past rules.transitions s = 0 := by
      have := past_iff h.ascending s ht
      omega
    have hne : rules.transitions ≠ [] := fun hnil => by
      rw [hnil] at ht
      cases ht
    rw [if_pos hpast, if_neg hne]
  · have hin := (past_iff h.ascending s hi).mp hle
    have hpast : past rules.transitions s = i + 1 := by
      by_contra hne
      have hlen := past_le rules.transitions s
      have hget := getElem?_eq_getElem (l := rules.transitions) (i := i + 1) (by omega)
      have := (past_iff h.ascending s hget).mpr (by omega)
      exact absurd (hnext _ hget) (not_lt.mpr this)
    have hkinds : rules.kinds[i]? = some (item rules.kinds (i + 1) rules.first) := by
      have hlen := past_le rules.transitions s
      have hbound : i + 1 ≤ rules.kinds.length := by
        rw [h.each]
        omega
      exact item_eq (succ_pos i) hbound _
    rw [hpast, if_neg (succ_ne_zero i), hkinds]
    split
    · next hafter =>
      have hlen := past_le rules.transitions s
      have hget := item_eq (t := rules.transitions) (i := rules.transitions.length) (by omega) (Nat.le_refl _) 0
      rcases hlast with hnone | hlast
      · rw [hnone]
        rfl
      · rw [← getLast?_eq_getElem?] at hget
        exact absurd hafter (not_lt.mpr (hlast _ hget))
    · rfl
  · rw [getLast?_eq_getElem?] at ht
    have hpast := (past_iff h.ascending s ht).mp hlt.le
    have hlen := past_le rules.transitions s
    have hget := item_eq (t := rules.transitions) (i := rules.transitions.length) (by omega) (Nat.le_refl _) 0
    rw [hget] at ht
    rw [if_neg (by omega), if_pos (by rw [some.inj ht]; exact hlt), mem_def.mp hp]
    exact hposix p hp

/-! ## Offsets -/

theorem posix_kind_mem (p : Posix) (s : ℤ) : posix_kind p s = p.std ∨ ∃ d ∈ p.dst, posix_kind p s = d.kind := by
  unfold posix_kind
  cases p.dst with
  | none => exact .inl rfl
  | some d =>
    dsimp only
    split
    · exact .inr ⟨d, rfl, rfl⟩
    · exact .inl rfl

theorem posix_kind_range {p : Posix} (hp : p.Valid) (s : ℤ) : (posix_kind p s).InRange := by
  rcases posix_kind_mem p s with h | ⟨d, hd, h⟩
  · rw [h]
    exact hp.std
  · rw [h]
    exact (hp.dst d hd).kind

/-- Every offset a zone gives is one a zone can have. -/
theorem kind_at_range {rules : Rules} (h : rules.Valid) (s : ℤ) : (kind_at rules s).InRange := by
  have hitem : ∀ i, (item rules.kinds i rules.first).InRange := by
    intro i
    unfold item
    rw [getD_eq_getElem?_getD]
    cases hi : rules.kinds[i - 1]? with
    | none => exact h.first
    | some k => exact h.kinds k (mem_of_getElem? hi)
  have hfooter : ∀ k : Kind, k.InRange → (rules.footer.elim k (posix_kind · s)).InRange := by
    intro k hk
    cases hf : rules.footer with
    | none => exact hk
    | some p => exact posix_kind_range (h.footer p hf) s
  rw [kind_at_eq h.ascending s]
  split
  · split
    · exact hfooter _ h.first
    · exact h.first
  · split
    · exact hfooter _ (hitem _)
    · exact hitem _

end Cosmic.Time
