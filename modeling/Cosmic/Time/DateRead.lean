/-
`offsets_near` has every offset of the two days on either side.

A moment's offset is of a transition that is past then. If it was past two days before it is the
offset there, and if not it is one of the transitions that the loop goes over, unless it is the TZ
string's, whose offsets are all there.
-/
import Cosmic.Base.Clock
import Cosmic.Time.Date
import Cosmic.Time.ZoneAt
import Mathlib.Data.Int.LeastGreatest

set_option autoImplicit false

namespace Cosmic.Time

open Cosmic.Base List Except

theorem mem_add {out : List ℤ} {k : Kind} {o : ℤ} : o ∈ add out k ↔ o ∈ out ∨ o = k.offset := by
  unfold add
  split
  next h =>
    constructor
    · exact .inl
    · rintro (h' | rfl)
      · exact h'
      · exact h
  next => rw [mem_append, mem_singleton]

theorem mem_foldl_add {ks : List Kind} {out : List ℤ} {o : ℤ} :
    o ∈ ks.foldl add out ↔ o ∈ out ∨ ∃ k ∈ ks, o = k.offset := by
  induction ks generalizing out with
  | nil => simp
  | cons k ks ih =>
    rw [foldl_cons, ih, mem_add]
    simp only [mem_cons, exists_eq_or_imp, or_assoc]

/-- The transitions the loop goes over, from the first after `lo` up to `hi`. -/
def between (rules : Rules) (lo hi : ℤ) : List Kind :=
  let p := past rules.transitions lo
  (rules.kinds.drop p).take (past (rules.transitions.drop p) hi)

theorem mem_offsets_near {rules : Rules} (h : rules.transitions.Pairwise (· < ·)) (s o : ℤ) :
    o ∈ offsets_near rules s ↔
      (o = (kind_at rules (s - 2 * DAY)).offset ∨ ∃ k ∈ between rules (s - 2 * DAY) (s + 2 * DAY), o = k.offset) ∨
        ∃ p ∈ rules.footer, (rules.transitions.length = 0 ∨ s + 2 * DAY > item rules.transitions rules.transitions.length 0) ∧
          (o = p.std.offset ∨ ∃ d ∈ p.dst, o = d.kind.offset) := by
  have hle := past_le rules.transitions (s - 2 * DAY)
  have hfirst : first_passing (fun mid => item rules.transitions mid 0 > s - 2 * DAY) (rules.transitions.length + 1) 1
      (rules.transitions.length + 1) = past rules.transitions (s - 2 * DAY) + 1 := by
    rw [first_passing_eq (T := past rules.transitions (s - 2 * DAY) + 1) (fun x h₁ h₂ => ?_) (by omega) (by omega) (by omega)]
    · omega
    · rw [decide_eq_true_iff]
      have := item_le_iff h (s - 2 * DAY) h₁ (by omega)
      omega
  unfold offsets_near
  simp only [hfirst, Nat.add_sub_cancel]
  have hloop : o ∈ ((rules.kinds.drop (past rules.transitions (s - 2 * DAY))).take
      ((rules.transitions.drop (past rules.transitions (s - 2 * DAY))).takeWhile (· ≤ s + 2 * DAY)).length).foldl add
        (add [] (kind_at rules (s - 2 * DAY))) ↔
      o = (kind_at rules (s - 2 * DAY)).offset ∨ ∃ k ∈ between rules (s - 2 * DAY) (s + 2 * DAY), o = k.offset := by
    rw [mem_foldl_add, mem_add]
    simp only [not_mem_nil, false_or]
    exact Iff.rfl
  cases hf : rules.footer with
  | none =>
    rw [hloop]
    simp
  | some p =>
    dsimp only
    split
    next hafter =>
      cases hd : p.dst with
      | none =>
        rw [mem_add, hloop]
        simp only [Option.mem_def, Option.some.injEq, exists_eq_left', hafter, true_and, hd, reduceCtorEq, false_and,
          exists_false, or_false]
      | some d =>
        dsimp only
        rw [mem_add, mem_add, hloop]
        simp only [Option.mem_def, Option.some.injEq, exists_eq_left', hafter, true_and, hd, or_assoc]
    next hnot =>
      rw [hloop]
      simp only [Option.mem_def, Option.some.injEq, exists_eq_left', hnot, false_and, or_false]

theorem offsets_near_ne_nil {rules : Rules} (h : rules.transitions.Pairwise (· < ·)) (s : ℤ) : offsets_near rules s ≠ [] :=
  ne_nil_of_mem ((mem_offsets_near h s _).mpr (.inl (.inl rfl)))

theorem offsets_near_range {rules : Rules} (h : rules.Valid) {s o : ℤ} (ho : o ∈ offsets_near rules s) :
    -89999 ≤ o ∧ o ≤ 93599 := by
  rcases (mem_offsets_near h.ascending s o).mp ho with (rfl | ⟨k, hk, rfl⟩) | ⟨p, hp, -, rfl | ⟨d, hd, rfl⟩⟩
  · exact kind_at_range h _
  · exact h.kinds k (mem_of_mem_drop (mem_of_mem_take hk))
  · exact (h.footer p hp).std
  · exact ((h.footer p hp).dst d hd).kind

theorem posix_offset_mem {p : Posix} (s : ℤ) : (posix_kind p s).offset = p.std.offset ∨ ∃ d ∈ p.dst, (posix_kind p s).offset = d.kind.offset := by
  rcases posix_kind_mem p s with h | ⟨d, hd, h⟩
  · exact .inl (congrArg Kind.offset h)
  · exact .inr ⟨d, hd, congrArg Kind.offset h⟩

theorem mem_between {rules : Rules} (h : rules.Valid) {lo hi : ℤ} {i : ℕ} (h₁ : past rules.transitions lo < i)
    (h₂ : i ≤ past rules.transitions hi) : item rules.kinds i rules.first ∈ between rules lo hi := by
  have hlen := past_le rules.transitions hi
  have hkind := item_eq (t := rules.kinds) (i := i) (by omega) (by rw [h.each]; omega) rules.first
  have htime := item_eq (t := rules.transitions) (i := i) (by omega) (by omega) 0
  have hreached := (past_iff h.ascending hi htime).mpr (by omega)
  have hdrop : (rules.transitions.drop (past rules.transitions lo))[i - 1 - past rules.transitions lo]? =
      some (item rules.transitions i 0) := by
    rwa [getElem?_drop, show past rules.transitions lo + (i - 1 - past rules.transitions lo) = i - 1 by omega]
  have hlt := (past_iff (h.ascending.drop) hi hdrop).mp hreached
  unfold between
  refine mem_iff_getElem?.mpr ⟨i - 1 - past rules.transitions lo, ?_⟩
  rw [getElem?_take_of_lt hlt, getElem?_drop,
    show past rules.transitions lo + (i - 1 - past rules.transitions lo) = i - 1 by omega]
  exact hkind

theorem past_mono {t : List ℤ} (h : t.Pairwise (· < ·)) {a b : ℤ} (hab : a ≤ b) : past t a ≤ past t b := by
  by_contra hlt
  have hle := past_le t a
  have hget := item_eq (t := t) (i := past t b + 1) (by omega) (by omega) 0
  have hpast := (past_iff h a hget).mpr (by omega)
  have := (past_iff h b hget).mp (hpast.trans hab)
  omega

theorem offset_mem_near {rules : Rules} (h : rules.Valid) {s t : ℤ} (h₁ : s - 2 * DAY ≤ t) (h₂ : t ≤ s + 2 * DAY) :
    (kind_at rules t).offset ∈ offsets_near rules s := by
  have hmono := past_mono h.ascending h₁
  have hmono' := past_mono h.ascending h₂
  rw [mem_offsets_near h.ascending]
  have hposix : ∀ p ∈ rules.footer, (rules.transitions.length = 0 ∨ s + 2 * DAY > item rules.transitions rules.transitions.length 0) →
      ∃ p' ∈ rules.footer, (rules.transitions.length = 0 ∨ s + 2 * DAY > item rules.transitions rules.transitions.length 0) ∧
        ((posix_kind p t).offset = p'.std.offset ∨ ∃ d ∈ p'.dst, (posix_kind p t).offset = d.kind.offset) :=
    fun p hp hafter => ⟨p, hp, hafter, posix_offset_mem t⟩
  -- A transition's offset: it is past two days before, or the loop goes over it.
  have hitem : past rules.transitions t ≠ 0 → (rules.footer = none ∨ t ≤ item rules.transitions rules.transitions.length 0) →
      (item rules.kinds (past rules.transitions t) rules.first).offset = (kind_at rules (s - 2 * DAY)).offset ∨
        ∃ k ∈ between rules (s - 2 * DAY) (s + 2 * DAY),
          (item rules.kinds (past rules.transitions t) rules.first).offset = k.offset := by
    intro hpos hlast
    by_cases hsame : past rules.transitions (s - 2 * DAY) = past rules.transitions t
    · refine .inl (congrArg Kind.offset ?_)
      rw [kind_at_eq h.ascending (s - 2 * DAY), hsame, if_neg hpos]
      split
      next hlt =>
        rcases hlast with hnone | hlast
        · rw [hnone]
          rfl
        · omega
      next => rfl
    · exact .inr ⟨_, mem_between h (by omega) hmono', rfl⟩
  have hfirst : past rules.transitions t = 0 → (rules.transitions ≠ [] ∨ rules.footer = none) →
      rules.first = kind_at rules (s - 2 * DAY) := by
    intro hzero hcase
    rw [kind_at_eq h.ascending (s - 2 * DAY), if_pos (by omega)]
    split
    next hnil =>
      rcases hcase with hne | hnone
      · exact absurd hnil hne
      · rw [hnone]
        rfl
    next => rfl
  rw [kind_at_eq h.ascending t]
  split
  next hzero =>
    split
    next hnil =>
      cases hf : rules.footer with
      | none => exact .inl (.inl (congrArg Kind.offset (hfirst hzero (.inr hf))))
      | some p =>
        have hp := hposix p hf (.inl (length_eq_zero_iff.mpr hnil))
        rw [hf] at hp
        exact .inr hp
    next hne => exact .inl (.inl (congrArg Kind.offset (hfirst hzero (.inl hne))))
  next hpos =>
    split
    next hlt =>
      cases hf : rules.footer with
      | none => exact .inl (hitem hpos (.inl hf))
      | some p =>
        have hp := hposix p hf (.inr (by omega))
        rw [hf] at hp
        exact .inr hp
    next hle => exact .inl (hitem hpos (.inr (by omega)))

/-!
`parse_date` answers a day's first moment, where the zone did not skip too much of it.

A day's midnight is a reading of the zone's clock. Where the clock shows it, the first moment is the
first that it does. Where a change skipped it, `resolve` answers the moment that midnight would have
been by the offset after the change, which is before the change, and the search from there ends two
days on: it finds a change within those two days and stops short of a later one.
-/

/-! ## The first moment of a day -/

/-- Seconds east of UTC at the second `s`. -/
def zone_offset (zone : Option Zone) (s : ℤ) : ℤ :=
  match zone with
  | none => 0
  | some z => (kind_at z.rules s).offset

/-- The day that it is at the moment `ns`, on the calendar of `zone`. -/
def local_day (zone : Option Zone) (ns : ℤ) : ℤ := (ns / NS + zone_offset zone (ns / NS)) / DAY

/-- The first moment of `day` is `t`: the least that is on that day or a later one while every moment of
the two days before it is on an earlier one. -/
def FirstMoment (zone : Option Zone) (day t : ℤ) : Prop :=
  IsLeast {t | day ≤ local_day zone t ∧ ∀ u, t - 2 * DAY * NS ≤ u → u < t → local_day zone u < day} t

/-- Changes of offset are at least four days apart. -/
def Rare (zone : Option Zone) : Prop :=
  ∀ a b, zone_offset zone (a - 1) ≠ zone_offset zone a → zone_offset zone (b - 1) ≠ zone_offset zone b → a < b →
    4 * DAY ≤ b - a

def Date.number (c : Date) : ℤ := days_from_civil c.year c.month c.day

/-- `text` is the date `c`, as `YYYY-MM-DD`. -/
structure Spells (text : Bytes) (c : Date) : Prop where
  month : 1 ≤ c.month ∧ c.month ≤ 12
  day : 1 ≤ c.day ∧ c.day ≤ month_days c.year c.month
  text : ∃ ys ms ds : Bytes, text = ys ++ 45 :: (ms ++ 45 :: ds) ∧ (ys.length = 4 ∧ ms.length = 2 ∧ ds.length = 2) ∧
    ((∀ b ∈ ys, isDigit b = true) ∧ (∀ b ∈ ms, isDigit b = true) ∧ ∀ b ∈ ds, isDigit b = true) ∧
    c.year = digits_value 10 ys ∧ c.month = digits_value 10 ms ∧ c.day = digits_value 10 ds

/-- A change that skips the midnight of `day` comes no more than two days after the moment that
midnight would be by the offset after it, and that moment is in the range. -/
def Reached (zone : Option Zone) (day : ℤ) : Prop :=
  ∀ c, Skips (zone_offset zone) (day * DAY) c →
    c ≤ day * DAY - zone_offset zone c + 2 * DAY ∧ -2 ^ 63 ≤ (day * DAY - zone_offset zone c) * NS

theorem zone_clock {zone : Option Zone} (h : Rare zone) : Clock (zone_offset zone) (2 * DAY) where
  near t := by
    cases zone with
    | none =>
      show -(2 * DAY) < 0 ∧ 0 < 2 * DAY
      decide
    | some z =>
      have hrange := kind_at_range z.valid t
      unfold Kind.InRange at hrange
      unfold zone_offset DAY
      dsimp only
      omega
  rare a b ha hb hab := by
    have := h a b ha hb hab
    omega

theorem first_moment_of {zone : Option Zone} {day s : ℤ} (hs : day * DAY ≤ s + zone_offset zone s)
    (hbefore : ∀ u, u < s → u + zone_offset zone u < day * DAY) : FirstMoment zone day (s * NS) := by
  have hns : s * NS / NS = s := by
    unfold NS
    omega
  refine ⟨⟨?_, fun u _ hu => ?_⟩, fun t ht => ?_⟩
  · unfold local_day
    rw [hns]
    unfold DAY at hs ⊢
    omega
  · have hlt : u / NS < s := by
      unfold NS at hu ⊢
      omega
    have hu' := hbefore _ hlt
    unfold local_day
    unfold DAY at hu' ⊢
    omega
  · by_contra hlt
    have hlt' : t / NS < s := by
      unfold NS at hlt ⊢
      omega
    have ht' := hbefore _ hlt'
    have ht₁ : day ≤ local_day zone t := ht.1
    unfold local_day at ht₁
    unfold DAY at ht' ht₁
    omega

/-- Where the first moment of a day is: the first at which the clock shows midnight, or the change that
skips it. -/
theorem first_moment_cases {zone : Option Zone} (h : Rare zone) {day t : ℤ} (ht : FirstMoment zone day t) :
    (∃ s, t = s * NS ∧ IsLeast {s | s + zone_offset zone s = day * DAY} s) ∨
      ∃ c, t = c * NS ∧ Skips (zone_offset zone) (day * DAY) c := by
  have hclock := zone_clock h
  by_cases hread : ∃ s, s + zone_offset zone s = day * DAY
  · obtain ⟨s, hs₁, hs₂⟩ := Int.exists_least_of_bdd ⟨day * DAY - 2 * DAY, fun u hu => by
      have := (hclock.near u).2
      omega⟩ hread
    have hs : IsLeast {s | s + zone_offset zone s = day * DAY} s := ⟨hs₁, fun u hu => hs₂ u hu⟩
    refine .inl ⟨s, ht.unique (first_moment_of (le_of_eq hs.1.symm) fun u hu => hclock.before_reading hs hu), hs⟩
  · obtain ⟨c, hc⟩ := hclock.exists_skips fun s hs => hread ⟨s, hs⟩
    exact .inr ⟨c, ht.unique (first_moment_of hc.2.le fun u hu => hclock.before_skip hc hu), hc⟩

/-! ## Reading a date -/

theorem read_digits_exact {text ds rest : Bytes} {i : ℕ} (what : Bytes) (htext : text.drop (i - 1) = ds ++ rest)
    (hds : ∀ b ∈ ds, isDigit b = true) :
    read_digits text { at_ := i, why := none } ds.length what none =
      (digits_value 10 ds, { at_ := i + ds.length, why := none }) := by
  have hdigits : ((text.drop (i - 1)).take ds.length).takeWhile isDigit = ds := by
    rw [htext, take_left']
    · exact takeWhile_eq_self_iff.mpr hds
    · rfl
  unfold read_digits
  simp only [hdigits, Option.getD_none, lt_irrefl, if_false]

theorem expect_exact {text want rest : Bytes} {i : ℕ} (what : Bytes) (htext : text.drop (i - 1) = want ++ rest) :
    expect text { at_ := i, why := none } want what = { at_ := i + want.length, why := none } := by
  have hgot : (text.drop (i - 1)).take want.length = want := by
    rw [htext, take_left']
    rfl
  unfold expect
  simp only [hgot, ne_eq, not_true_eq_false, false_and, if_false]

def midnight_of (c : Date) : CivilFields where
  year := c.year
  month := c.month
  day := c.day
  hour := 0
  minute := 0
  second := 0
  ns := 0
  offset := none

theorem date_into_spells {text : Bytes} {c : Date} (h : Spells text c) :
    date_into text cursor = (midnight_of c, { at_ := 11, why := none }) ∧ text.length = 10 := by
  obtain ⟨ys, ms, ds, rfl, ⟨hy, hm, hd⟩, ⟨hys, hms, hds⟩, hyear, hmonth, hday⟩ := h.text
  have hlen : (ys ++ 45 :: (ms ++ 45 :: ds)).length = 10 := by
    simp only [length_append, length_cons]
    omega
  have hdrop₀ : (ys ++ 45 :: (ms ++ 45 :: ds)).drop (1 - 1) = ys ++ 45 :: (ms ++ 45 :: ds) := rfl
  have h₁ := read_digits_exact (lit "year") hdrop₀ hys
  have hdrop₁ : (ys ++ 45 :: (ms ++ 45 :: ds)).drop (5 - 1) = lit "-" ++ (ms ++ 45 :: ds) := drop_left' hy
  have h₂ := expect_exact (lit "after the year") hdrop₁
  have hdrop₂ : (ys ++ 45 :: (ms ++ 45 :: ds)).drop (6 - 1) = ms ++ 45 :: ds := by
    rw [show 6 - 1 = (5 - 1) + 1 from rfl, ← drop_drop, hdrop₁]
    rfl
  have h₃ := read_digits_exact (lit "month") hdrop₂ hms
  have hdrop₃ : (ys ++ 45 :: (ms ++ 45 :: ds)).drop (8 - 1) = lit "-" ++ ds := by
    rw [show 8 - 1 = (6 - 1) + 2 from rfl, ← drop_drop, hdrop₂]
    exact drop_left' hm
  have h₄ := expect_exact (lit "after the month") hdrop₃
  have hdrop₄ : (ys ++ 45 :: (ms ++ 45 :: ds)).drop (9 - 1) = ds ++ [] := by
    rw [show 9 - 1 = (8 - 1) + 1 from rfl, ← drop_drop, hdrop₃, append_nil]
    rfl
  have h₅ := read_digits_exact (lit "day") hdrop₄ hds
  rw [hy] at h₁
  rw [hm] at h₃
  rw [hd] at h₅
  refine ⟨?_, hlen⟩
  unfold date_into cursor
  rw [h₁]
  dsimp only
  rw [h₂, show 5 + (lit "-").length = 6 from rfl, h₃]
  rw [h₄, show 8 + (lit "-").length = 9 from rfl, h₅]
  unfold midnight_of
  rw [hyear, hmonth, hday]

/-! ## Seconds and moments -/

theorem civil_in_year {y m d : ℤ} (hm : 1 ≤ m ∧ m ≤ 12) (hd : 1 ≤ d ∧ d ≤ 31) :
    jan1 y ≤ days_from_civil y m d ∧ days_from_civil y m d < jan1 (y + 1) := by
  rw [jan1_eq, jan1_eq, days_from_civil_eq, Int.add_sub_cancel]
  split <;> omega

theorem outside_none {name : Bytes} {value lo hi : ℤ} (h₁ : lo ≤ value) (h₂ : value ≤ hi) : outside name value lo hi = none := by
  exact if_neg (by omega)

theorem seconds_of_midnight {c : Date} (hyear : 1676 ≤ c.year ∧ c.year ≤ 2263) (hmonth : 1 ≤ c.month ∧ c.month ≤ 12)
    (hday : 1 ≤ c.day ∧ c.day ≤ month_days c.year c.month) : seconds_of (midnight_of c) = .ok (c.number * DAY) := by
  unfold seconds_of midnight_of
  simp only [outside_none (show (-2 ^ 63 : ℤ) ≤ c.year by omega) (show c.year ≤ 2 ^ 63 - 1 by omega),
    outside_none hmonth.1 hmonth.2, outside_none hday.1 hday.2, outside_none (le_refl (0 : ℤ)) (show (0 : ℤ) ≤ 23 by decide),
    outside_none (le_refl (0 : ℤ)) (show (0 : ℤ) ≤ 59 by decide),
    outside_none (le_refl (0 : ℤ)) (show (0 : ℤ) ≤ NS - 1 by decide)]
  rw [if_neg (by omega)]
  unfold Date.number
  simp

theorem instant_whole (s : ℤ) :
    instant s 0 = if -2 ^ 63 ≤ s * NS ∧ s * NS < 2 ^ 63 then .ok (s * NS) else .error RANGE := by
  unfold instant MIN_S MAX_S MIN_NS MAX_NS NS
  rw [Int.add_zero]
  split
  next h => rw [if_neg (by omega)]
  next h => rw [if_pos (by omega)]

/-! ## Resolving midnight -/

section

variable {z : Zone} {m : ℤ}

theorem mem_named {t : ℤ} : t ∈ named z.rules m ↔ t + zone_offset (some z) t = m := by
  unfold named
  rw [mem_insertionSort, mem_map]
  constructor
  · rintro ⟨o, ho, rfl⟩
    have hsame := of_decide_eq_true (List.mem_filter.mp ho).2
    show m - o + (kind_at z.rules (m - o)).offset = m
    omega
  · intro ht
    have hrange := kind_at_range z.valid t
    unfold Kind.InRange at hrange
    change t + (kind_at z.rules t).offset = m at ht
    refine ⟨(kind_at z.rules t).offset, List.mem_filter.mpr ⟨?_, ?_⟩, by omega⟩
    · exact offset_mem_near z.valid (by unfold DAY; omega) (by unfold DAY; omega)
    · rw [show m - (kind_at z.rules t).offset = t by omega]
      exact decide_eq_true rfl

theorem named_first {s : ℤ} (hs : IsLeast {s | s + zone_offset (some z) s = m} s) :
    ∃ rest, named z.rules m = s :: rest := by
  have hmem : s ∈ named z.rules m := mem_named.mpr hs.1
  cases hl : named z.rules m with
  | nil =>
    rw [hl] at hmem
    cases hmem
  | cons a rest =>
    refine ⟨rest, congrArg (· :: rest) ?_⟩
    have ha : s ≤ a := hs.2 (mem_named.mp (by rw [hl]; exact mem_cons_self))
    have hsorted : (named z.rules m).Pairwise (· ≤ ·) := pairwise_insertionSort _ _
    rw [hl] at hmem hsorted
    rcases mem_cons.mp hmem with rfl | hrest
    · rfl
    · have := (pairwise_cons.mp hsorted).1 s hrest
      omega

theorem lowest_spec (z : Zone) (m : ℤ) :
    (offsets_near z.rules m).foldl min (item (offsets_near z.rules m) 1 0) ∈ offsets_near z.rules m ∧
      ∀ o ∈ offsets_near z.rules m, (offsets_near z.rules m).foldl min (item (offsets_near z.rules m) 1 0) ≤ o := by
  cases hl : offsets_near z.rules m with
  | nil => exact absurd hl (offsets_near_ne_nil z.valid.ascending m)
  | cons a rest =>
    have hmin : (a :: rest).min? = some ((a :: rest).foldl min (item (a :: rest) 1 0)) := by
      rw [foldl_cons, show item (a :: rest) 1 0 = a from rfl, min_self]
      rfl
    exact min?_eq_some_iff.mp hmin

theorem highest_spec (z : Zone) (m : ℤ) :
    (offsets_near z.rules m).foldl max (item (offsets_near z.rules m) 1 0) ∈ offsets_near z.rules m ∧
      ∀ o ∈ offsets_near z.rules m, o ≤ (offsets_near z.rules m).foldl max (item (offsets_near z.rules m) 1 0) := by
  cases hl : offsets_near z.rules m with
  | nil => exact absurd hl (offsets_near_ne_nil z.valid.ascending m)
  | cons a rest =>
    have hmax : (a :: rest).max? = some ((a :: rest).foldl max (item (a :: rest) 1 0)) := by
      rw [foldl_cons, show item (a :: rest) 1 0 = a from rfl, max_self]
      rfl
    exact max?_eq_some_iff.mp hmax

variable {c : CivilFields}

theorem resolve_reading {s : ℤ} {how : Disambiguation} (hc : seconds_of c = .ok m)
    (hoffset : ∀ t ∈ named z.rules m, some (m - t) ≠ c.offset) (hhow : how = .earlier ∨ how = .compatible)
    (hs : IsLeast {s | s + zone_offset (some z) s = m} s) : resolve c (some z) how = .ok s := by
  obtain ⟨rest, hnamed⟩ := named_first hs
  have hnone : (named z.rules m).filter (fun t => some (m - t) = c.offset) = [] := by
    rw [filter_eq_nil_iff]
    exact fun t ht h => hoffset t ht (of_decide_eq_true h)
  rw [hnamed] at hnone
  unfold resolve
  simp only [hc, hnamed, hnone]
  rw [if_neg (by rw [length_cons]; omega)]
  split
  · rfl
  · rcases hhow with rfl | rfl
    · rw [if_neg (by decide), if_neg (by decide)]
      rfl
    · rw [if_neg (by decide), if_neg (by decide)]
      rfl

theorem resolve_skipped {t : ℤ} {how : Disambiguation} (hc : seconds_of c = .ok m)
    (hnot : ∀ s, s + zone_offset (some z) s ≠ m) (ht : Skips (zone_offset (some z)) m t)
    (hbefore : ∀ s, m - 2 * DAY ≤ s → s < t → zone_offset (some z) s = zone_offset (some z) (t - 1))
    (hafter : ∀ s, t ≤ s → s ≤ m + 2 * DAY → zone_offset (some z) s = zone_offset (some z) t) (hhow : how ≠ .reject) :
    resolve c (some z) how =
      .ok (m - if how = .earlier then zone_offset (some z) t else zone_offset (some z) (t - 1)) := by
  have hnone : named z.rules m = [] := eq_nil_iff_forall_not_mem.mpr fun s hs => hnot s (mem_named.mp hs)
  obtain ⟨hlow, hleast⟩ := lowest_spec z m
  obtain ⟨hhigh, hgreatest⟩ := highest_spec z m
  unfold resolve
  simp only [hc, hnone]
  generalize (offsets_near z.rules m).foldl min (item (offsets_near z.rules m) 1 0) = lowest at hlow hleast ⊢
  generalize (offsets_near z.rules m).foldl max (item (offsets_near z.rules m) 1 0) = highest at hhigh hgreatest ⊢
  have hrange := offsets_near_range z.valid hlow
  have hrange' := offsets_near_range z.valid hhigh
  have hnear := kind_at_range z.valid t
  have hnear' := kind_at_range z.valid (t - 1)
  change -89999 ≤ zone_offset (some z) t ∧ zone_offset (some z) t ≤ 93599 at hnear
  change -89999 ≤ zone_offset (some z) (t - 1) ∧ zone_offset (some z) (t - 1) ≤ 93599 at hnear'
  have hskip := ht
  unfold Skips at hskip
  -- The lowest offset is the one before the change or lower, so by it the reading is after the change.
  have hlowest : lowest ≤ zone_offset (some z) (t - 1) :=
    hleast _ (offset_mem_near z.valid (by unfold DAY; omega) (by unfold DAY; omega))
  have hhighest : zone_offset (some z) t ≤ highest :=
    hgreatest _ (offset_mem_near z.valid (by unfold DAY; omega) (by unfold DAY; omega))
  have hlast : zone_offset (some z) (m - lowest) = zone_offset (some z) t :=
    hafter _ (by omega) (by unfold DAY; omega)
  have hfirst : zone_offset (some z) (m - highest) = zone_offset (some z) (t - 1) :=
    hbefore _ (by unfold DAY; omega) (by omega)
  rw [if_pos (by rfl), if_neg hhow]
  refine congrArg Except.ok ?_
  split
  · exact congrArg (m - ·) hlast
  · exact congrArg (m - ·) hfirst

end

/-! ## The answer -/

theorem year_of_first {c : Date} (hmonth : 1 ≤ c.month ∧ c.month ≤ 12) (hday : 1 ≤ c.day ∧ c.day ≤ month_days c.year c.month)
    {s : ℤ} (hnear : c.number * DAY - 2 * DAY < s ∧ s < c.number * DAY + 2 * DAY)
    (hrange : -2 ^ 63 ≤ s * NS ∧ s * NS < 2 ^ 63) : 1676 ≤ c.year ∧ c.year ≤ 2263 := by
  have hdays := month_days_bounds (y := c.year) hmonth.1 hmonth.2
  have hyear := civil_in_year (y := c.year) hmonth ⟨hday.1, hday.2.trans hdays.2⟩
  unfold Date.number at hnear
  unfold NS at hrange
  unfold DAY at hnear
  constructor
  · by_contra hlt
    have hle : c.year + 1 ≤ 1676 := by omega
    have := jan1_le hle
    have hjan : jan1 1676 = -107381 := by decide
    omega
  · by_contra hlt
    have hle : 2264 ≤ c.year := by omega
    have := jan1_le hle
    have hjan : jan1 2264 = 107381 := by decide
    omega

/-- `parse_date` answers the first moment of the day, for every zone whose changes are rare and every date whose
first moment is in the range, exactly where its midnight is reached. -/
theorem parse_date_first {zone : Option Zone} (hrare : Rare zone) {text : Bytes} {c : Date} (htext : Spells text c) {t : ℤ}
    (ht : FirstMoment zone c.number t) (hrange : -2 ^ 63 ≤ t ∧ t < 2 ^ 63) :
    parse_date text zone = .ok t ↔ Reached zone c.number := by
  have hclock := zone_clock hrare
  obtain ⟨hdate, hlen⟩ := date_into_spells htext
  have hfinish : finish text { at_ := 11, why := none } = { at_ := 11, why := none } := by
    exact if_neg (by
      dsimp only
      omega)
  unfold parse_date
  simp only [hdate, hfinish]
  rcases first_moment_cases hrare ht with ⟨s, rfl, hs⟩ | ⟨s, rfl, hs⟩
  · have hread : s + zone_offset zone s = c.number * DAY := hs.1
    have hnear := hclock.near s
    have hseconds := seconds_of_midnight (year_of_first htext.month htext.day ⟨by omega, by omega⟩ hrange) htext.month htext.day
    have hreached : Reached zone c.number := fun t ht => absurd hread (hclock.not_reading ht s)
    refine iff_of_true ?_ hreached
    cases zone with
    | none =>
      have hmoment : moment (midnight_of c) 0 = .ok (s * NS) := by
        unfold moment
        rw [hseconds]
        show instant (c.number * DAY - 0) 0 = _
        rw [show c.number * DAY - 0 = s by
          change s + 0 = _ at hread
          omega, instant_whole, if_pos hrange]
      simp only [hmoment]
    | some z =>
      have hresolve := resolve_reading hseconds (by simp [midnight_of]) (.inl rfl) hs
      have hcivil : from_civil (midnight_of c) (some z) .earlier = .ok (s * NS) := by
        unfold from_civil
        rw [hresolve]
        dsimp only [midnight_of]
        rw [instant_whole, if_pos hrange]
      have hlo : s * NS / NS = s := Int.mul_ediv_cancel s (by decide)
      simp only [hseconds, hcivil, hlo]
      exact if_pos hread
  · have hnear := hclock.skips_near hs
    have hseconds := seconds_of_midnight (year_of_first htext.month htext.day hnear hrange) htext.month htext.day
    -- No other change skips this midnight.
    have honly : ∀ s', Skips (zone_offset zone) (c.number * DAY) s' → s' = s := by
      intro s' hs'
      by_contra hne
      rcases lt_or_gt_of_ne hne with hlt | hlt
      · have := hclock.before_skip hs hlt
        have := hs'.2
        omega
      · have := hclock.before_skip hs' hlt
        have := hs.2
        omega
    have hreached : Reached zone c.number ↔ s ≤ c.number * DAY - zone_offset zone s + 2 * DAY ∧
        -2 ^ 63 ≤ (c.number * DAY - zone_offset zone s) * NS := by
      constructor
      · exact fun h => h s hs
      · intro h s' hs'
        rwa [honly s' hs']
    rw [hreached]
    cases zone with
    | none =>
      have h₁ : s + 0 ≤ c.number * DAY := hs.1
      have h₂ : c.number * DAY < s + 0 := hs.2
      omega
    | some z =>
      have hresolve := resolve_skipped hseconds (hclock.not_reading hs) hs (hclock.skipped hs).1
        (hclock.skipped hs).2 (show Disambiguation.earlier ≠ .reject by decide)
      rw [if_pos rfl] at hresolve
      obtain ⟨hs₁, hs₂⟩ := hs
      generalize hlo : c.number * DAY - zone_offset (some z) s = lo at hresolve ⊢
      have hlt : lo < s := by omega
      by_cases hmin : -2 ^ 63 ≤ lo * NS
      · have hmax : lo * NS < 2 ^ 63 := by
          unfold NS at hrange ⊢
          omega
        have hcivil : from_civil (midnight_of c) (some z) .earlier = .ok (lo * NS) := by
          unfold from_civil
          rw [hresolve]
          dsimp only [midnight_of]
          rw [instant_whole, if_pos ⟨hmin, hmax⟩]
        have hdiv : lo * NS / NS = lo := Int.mul_ediv_cancel lo (by decide)
        have hskipped : ¬lo + (kind_at z.rules lo).offset = c.number * DAY := hclock.not_reading ⟨hs₁, hs₂⟩ lo
        have hfound : close_in (fun mid => mid + (kind_at z.rules mid).offset ≥ c.number * DAY) (2 * DAY).toNat lo
            (lo + 2 * DAY) = min s (lo + 2 * DAY) := by
          refine close_in_eq (fun x hx₁ hx₂ => ?_) hlt (by unfold DAY; omega) (by unfold DAY; omega)
          rw [decide_eq_true_iff]
          constructor
          · intro hge
            by_contra hxs
            have hx := hclock.before_skip ⟨hs₁, hs₂⟩ (Int.not_le.mp hxs)
            exact absurd hge (Int.not_le.mpr hx)
          · intro hsx
            have hx := hclock.after_change (by omega) hsx (by omega)
            change x + zone_offset (some z) x ≥ c.number * DAY
            omega
        simp only [hseconds, hcivil, hdiv, if_neg hskipped, hfound, instant_whole]
        by_cases hreach : s ≤ lo + 2 * DAY
        · rw [min_eq_left hreach, if_pos hrange]
          exact iff_of_true rfl ⟨hreach, hmin⟩
        rw [min_eq_right (Int.not_le.mp hreach).le]
        refine iff_of_false (fun hok => ?_) fun h => hreach h.1
        split at hok
        next hwhy => cases hok
        next ns hns =>
          split at hns
          · cases hns
            have hsame := Int.eq_of_mul_eq_mul_right (by decide) (ok.inj hok)
            omega
          · cases hns
      · have hcivil : from_civil (midnight_of c) (some z) .earlier = .error (refuse RANGE) := by
          unfold from_civil
          rw [hresolve]
          dsimp only [midnight_of]
          rw [instant_whole, if_neg fun h => hmin h.1]
        simp only [hseconds, hcivil]
        exact iff_of_false (fun h => by cases h) fun h => hmin h.2

/-! ## Zones of one change -/

/-- A zone that changes once, at `at_`, from the offset `o₁` to `o₂`. -/
def one_change (at_ o₁ o₂ : ℤ) (h₁ : -89999 ≤ o₁ ∧ o₁ ≤ 93599) (h₂ : -89999 ≤ o₂ ∧ o₂ ≤ 93599) : Zone where
  name := lit "One/Change"
  rules :=
    { transitions := [at_]
      kinds := [{ offset := o₂, abbreviation := lit "NEW", dst := false }]
      first := { offset := o₁, abbreviation := lit "OLD", dst := false }
      footer := none }
  valid :=
    { ascending := pairwise_singleton _ _
      each := rfl
      kinds := fun k hk => by
        rw [mem_singleton.mp hk]
        exact h₂
      first := h₁
      footer := fun _ hp => by cases hp }

section

variable (at_ : ℤ) {o₁ o₂ : ℤ} (h₁ : -89999 ≤ o₁ ∧ o₁ ≤ 93599) (h₂ : -89999 ≤ o₂ ∧ o₂ ≤ 93599)

theorem one_change_offset (s : ℤ) : zone_offset (some (one_change at_ o₁ o₂ h₁ h₂)) s = if s < at_ then o₁ else o₂ := by
  unfold zone_offset kind_at one_change
  by_cases hs : s < at_
  · simp only [length_singleton, Nat.one_ne_zero, false_or, item, Nat.sub_self, getD_cons_zero, hs, if_true]
  · simp only [length_singleton, Nat.one_ne_zero, false_or, item, Nat.sub_self, getD_cons_zero, hs, if_false,
      kind_at.latest, last_passing, lt_irrefl]

theorem one_change_rare : Rare (some (one_change at_ o₁ o₂ h₁ h₂)) := by
  intro a b ha hb hab
  simp only [one_change_offset] at ha hb
  omega

theorem one_change_first {day : ℤ} (h : at_ + o₁ ≤ day * DAY ∧ day * DAY < at_ + o₂) :
    FirstMoment (some (one_change at_ o₁ o₂ h₁ h₂)) day (at_ * NS) := by
  refine first_moment_of ?_ fun u hu => ?_
  · rw [one_change_offset, if_neg (lt_irrefl _)]
    exact h.2.le
  · rw [one_change_offset, if_pos hu]
    omega

end

def epoch_day : Date := { year := 1970, month := 1, day := 1 }

theorem epoch_day_spelled : Spells (lit "1970-01-01") epoch_day where
  month := by decide
  day := by decide
  text := ⟨lit "1970", lit "01", lit "01", rfl, by decide,
    ⟨all_eq_true.mp rfl, all_eq_true.mp rfl, all_eq_true.mp rfl⟩, by decide, by decide, by decide⟩

/-- A clock moved an hour ahead at midnight: the day begins there. -/
theorem parse_date_first_hour :
    parse_date (lit "1970-01-01") (some (one_change 0 0 3600 (by decide) (by decide))) = .ok 0 := by
  have hfirst : FirstMoment (some (one_change 0 0 3600 (by decide) (by decide))) epoch_day.number (0 * NS) :=
    one_change_first 0 (by decide) (by decide) (by decide)
  refine (parse_date_first (one_change_rare 0 _ _) epoch_day_spelled hfirst (by decide)).mpr fun c hc => ?_
  unfold Skips at hc
  simp only [one_change_offset] at hc ⊢
  rw [show epoch_day.number = 0 by decide] at hc ⊢
  unfold NS DAY
  split at hc <;> split at hc <;> split <;> omega

/-- A clock moved 51 hours ahead: the search for the change, more than two days after where it begins, ends
before it, on the day before. -/
theorem first_moment_missed : ¬∀ (zone : Option Zone) (text : Bytes) (c : Date) (t : ℤ), Rare zone → Spells text c →
    FirstMoment zone c.number t → -2 ^ 63 ≤ t ∧ t < 2 ^ 63 → parse_date text zone = .ok t := by
  intro h
  have hfirst : FirstMoment (some (one_change 85000 (-89999) 93599 (by decide) (by decide))) epoch_day.number (85000 * NS) :=
    one_change_first 85000 (by decide) (by decide) (by decide)
  have hok := h _ _ _ _ (one_change_rare 85000 _ _) epoch_day_spelled hfirst (by decide)
  have hanswer : parse_date (lit "1970-01-01") (some (one_change 85000 (-89999) 93599 (by decide) (by decide))) =
      .ok (79201 * NS) := by decide +kernel
  exact absurd (ok.inj hok) (by decide)

end Cosmic.Time
