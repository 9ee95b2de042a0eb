/-
The users that a root caller's sandboxes run as: `user_id` and `in_pool` of `sandbox/init.tl`.

A map is text, each of whose lines may be a range: its first id inside, its first outside, and how many. Ids are
64-bit, so the sums that end a range or begin the pool may wrap round.
-/
import Cosmic.Base.Numeral

set_option autoImplicit false

namespace Cosmic.Sandbox

open Cosmic.Base List Option

/-! ## The source -/

def refuse (why : Bytes) : Except Bytes ℤ := .error (lit "sandbox: " ++ why)

/-- A sum of the source's integers. -/
def wrap (n : ℤ) : ℤ := Int.bmod n (2 ^ 64)

/-- What `^%s*(%d+)%s+(%d+)%s+(%d+)` captures, but for the second. -/
def range_of (line : Bytes) : Option (Bytes × Bytes) :=
  let word := line.dropWhile isSpace
  let first := word.takeWhile isDigit
  let word := (word.dropWhile isDigit).dropWhile isSpace
  let outside := word.takeWhile isDigit
  let word := (word.dropWhile isDigit).dropWhile isSpace
  let count := word.takeWhile isDigit
  if first ≠ [] ∧ outside ≠ [] ∧ count ≠ [] then some (first, count) else none

/-- `math.tointeger(tonumber(digits))`: digits past 64 bits are a float too great for an integer. -/
def to_integer (digits : Bytes) : Option ℤ :=
  if digits_value 10 digits < 2 ^ 63 then some (digits_value 10 digits) else none

/-- The ranges that a map's lines hold. -/
def ranges (text : Bytes) : List (ℤ × ℤ) :=
  (text.splitOn 10).filterMap fun line => do
    let (first, count) ← range_of line
    return (← to_integer first, ← to_integer count)

/-- `from + many - 1` -/
def last_of (range : ℤ × ℤ) : ℤ := wrap (range.1 + range.2 - 1)

def mapped_run (text : Bytes) (low high : ℤ) : Bool :=
  (ranges text).any fun range => decide (range.1 ≤ low ∧ last_of range ≥ high)

def highest_mapped (text : Bytes) : Option ℤ :=
  (ranges text).foldl (fun top range =>
    if range.2 > 0 ∧ top.all (last_of range > ·) then some (last_of range) else top) none

def USER_POOL : ℤ := 4096

def pool_top (uid_top gid_top : ℤ) : ℤ :=
  let top := min (min uid_top gid_top) 4294967293
  if top = 65534 ∨ top = 65535 then 65533 else top

def pool_first (top : ℤ) : ℤ := wrap (top - USER_POOL + 1)

def user_id (uid_map gid_map : Bytes) (serial : ℤ) : Except Bytes ℤ :=
  match highest_mapped uid_map, highest_mapped gid_map with
  | some uid_top, some gid_top =>
    let top := pool_top uid_top gid_top
    let first := pool_first top
    if first < 1 ∨ ¬mapped_run uid_map first top ∨ ¬mapped_run gid_map first top then
      refuse (lit "this user namespace maps no run of 4096 ids ending at " ++ (if top < 0 then lit "-" else []) ++
        tostring top.natAbs ++ lit ", from which a sandbox's own user is taken: a root caller's program never " ++
        lit "runs as root, so it needs a namespace that maps more ids, as a host's does")
    else .ok (wrap (first + serial % USER_POOL))
  | _, _ => refuse (lit "this user namespace maps no user or no group")

def in_pool (uid_map gid_map : Bytes) (id : ℤ) : Bool :=
  match user_id uid_map gid_map 0 with
  | .ok first => decide (id ≥ first ∧ id < wrap (first + USER_POOL))
  | .error _ => false

example : user_id (lit "0 0 4294967295\n") (lit "0 0 4294967295\n") 5 = .ok 4294963203 := by decide

/-! ## What is asked of the ids -/

/-- A line of the map holds `id`. -/
def Maps (text : Bytes) (id : ℤ) : Prop :=
  ∃ line ∈ text.splitOn 10, ∃ first count, range_of line = some (first, count) ∧
    (digits_value 10 first : ℤ) ≤ id ∧ id < digits_value 10 first + digits_value 10 count

/-- An id that a sandbox may be given. -/
structure Safe (uid_map gid_map : Bytes) (id : ℤ) : Prop where
  uid : Maps uid_map id
  gid : Maps gid_map id
  root : id ≠ 0
  nobody : id ≠ 65534
  overflow : id ≠ 65535
  below : id < 4294967294

/-- The ids of a root caller's sandboxes are safe and their own, and `in_pool` knows them. -/
structure Pooled (uid_map gid_map : Bytes) : Prop where
  safe : ∀ serial id, user_id uid_map gid_map serial = .ok id → Safe uid_map gid_map id
  apart : ∀ serial serial' id, serial % USER_POOL ≠ serial' % USER_POOL → user_id uid_map gid_map serial = .ok id →
    user_id uid_map gid_map serial' ≠ .ok id
  in_pool : ∀ id, in_pool uid_map gid_map id = true ↔ ∃ serial, user_id uid_map gid_map serial = .ok id

/-- The maps hold the pool that ends at `top`. -/
structure Held (uid_map gid_map : Bytes) (top : ℤ) : Prop where
  ends : ∃ uid_top gid_top, highest_mapped uid_map = some uid_top ∧ highest_mapped gid_map = some gid_top ∧
    top = pool_top uid_top gid_top
  first : 1 ≤ pool_first top
  uid : mapped_run uid_map (pool_first top) top = true
  gid : mapped_run gid_map (pool_first top) top = true

/-! ## The pool -/

theorem wrap_eq {n : ℤ} (h : -(2 ^ 63) ≤ n) (h' : n < 2 ^ 63) : wrap n = n := Int.bmod_eq_of_le (by omega) (by omega)

theorem wrap_bounds (n : ℤ) : -(2 ^ 63) ≤ wrap n ∧ wrap n < 2 ^ 63 := by
  have hle := Int.le_bmod (x := n) (m := 2 ^ 64) (by decide)
  have hlt := Int.bmod_lt (x := n) (m := 2 ^ 64) (by decide)
  unfold wrap
  omega

variable {uid_map gid_map : Bytes}

theorem user_id_ok_iff {serial id : ℤ} : user_id uid_map gid_map serial = .ok id ↔
    ∃ top, Held uid_map gid_map top ∧ id = wrap (pool_first top + serial % USER_POOL) := by
  unfold user_id
  constructor
  · intro h
    split at h
    · next uid_top gid_top hu hg =>
      dsimp only at h
      split at h
      · cases h
      · next hrun =>
        push Not at hrun
        exact ⟨_, ⟨⟨uid_top, gid_top, hu, hg, rfl⟩, hrun.1, hrun.2.1, hrun.2.2⟩, (Except.ok.inj h).symm⟩
    · cases h
  · rintro ⟨top, ⟨⟨uid_top, gid_top, hu, hg, rfl⟩, hfirst, hur, hgr⟩, rfl⟩
    rw [hu, hg]
    dsimp only
    rw [if_neg]
    rintro (h | h | h)
    · omega
    · exact h hur
    · exact h hgr

theorem Held.unique {top top' : ℤ} (h : Held uid_map gid_map top)
    (h' : Held uid_map gid_map top') : top = top' := by
  obtain ⟨u, g, hu, hg, rfl⟩ := h.ends
  obtain ⟨u', g', hu', hg', rfl⟩ := h'.ends
  rw [hu] at hu'
  rw [hg] at hg'
  rw [some.inj hu', some.inj hg']

theorem pool_top_le (uid_top gid_top : ℤ) : pool_top uid_top gid_top ≤ 4294967293 ∧ pool_top uid_top gid_top ≠ 65534 ∧
    pool_top uid_top gid_top ≠ 65535 := by
  unfold pool_top
  dsimp only
  split <;> omega

theorem Held.plain {top : ℤ} (h : Held uid_map gid_map top) (hpos : 0 ≤ top) :
    pool_first top = top - 4095 ∧ 4096 ≤ top ∧ top ≤ 4294967293 ∧ top ≠ 65534 ∧ top ≠ 65535 := by
  have hfirst := h.first
  obtain ⟨u, g, -, -, rfl⟩ := h.ends
  obtain ⟨hle, hnobody, hoverflow⟩ := pool_top_le u g
  have heq : pool_first (pool_top u g) = pool_top u g - 4095 := by
    unfold pool_first USER_POOL
    rw [wrap_eq (by omega) (by omega)]
    omega
  exact ⟨heq, by omega, hle, hnobody, hoverflow⟩

theorem last_of_highest {text : Bytes} {top : ℤ} (h : highest_mapped text = some top) : -(2 ^ 63) ≤ top := by
  have hfold : ∀ (l : List (ℤ × ℤ)) (acc : Option ℤ), (∀ t ∈ acc, -(2 ^ 63) ≤ t) → ∀ t ∈ l.foldl (fun top range =>
        if range.2 > 0 ∧ top.all (last_of range > ·) then some (last_of range) else top) acc, -(2 ^ 63) ≤ t := by
    intro l
    induction l with
    | nil => exact fun acc h => h
    | cons range l ih =>
      intro acc hacc
      refine ih _ ?_
      intro t ht
      dsimp only at ht
      split at ht
      · rw [← some.inj ht]
        exact (wrap_bounds _).1
      · exact hacc t ht
  exact hfold (ranges text) none (fun _ h => nomatch h) top h

theorem Held.wrapped {top : ℤ} (h : Held uid_map gid_map top) (hneg : top < 0) :
    4294967294 ≤ pool_first top := by
  have hfirst := h.first
  obtain ⟨u, g, hu, hg, htop⟩ := h.ends
  have hbound : -(2 ^ 63) ≤ top := by
    have hu := last_of_highest hu
    have hg := last_of_highest hg
    rw [htop]
    unfold pool_top
    dsimp only
    split <;> omega
  have hlow : ¬-(2 ^ 63) ≤ top - USER_POOL + 1 := by
    intro hle
    unfold pool_first at hfirst
    unfold USER_POOL at hle hfirst
    rw [wrap_eq (by omega) (by omega)] at hfirst
    omega
  have hadd : wrap (top - USER_POOL + 1) = wrap (top - USER_POOL + 1 + 2 ^ 64) := by
    exact (Int.add_bmod_right _ _).symm
  unfold pool_first
  unfold USER_POOL at hlow hadd ⊢
  rw [hadd, wrap_eq (by omega) (by omega)]
  omega

theorem mapped_run_maps {text : Bytes} {low high id : ℤ} (h : mapped_run text low high = true) (hhigh : 0 ≤ high)
    (hlow : low ≤ id) (hid : id ≤ high) : Maps text id := by
  obtain ⟨range, hmem, hrun⟩ := any_eq_true.mp h
  obtain ⟨hfrom, hlast⟩ := of_decide_eq_true hrun
  obtain ⟨line, hline, hread⟩ := mem_filterMap.mp hmem
  cases hrange : range_of line with
  | none =>
    rw [hrange] at hread
    cases hread
  | some words =>
    obtain ⟨first, count⟩ := words
    rw [hrange] at hread
    simp only [to_integer, bind_eq_bind, bind_some, Option.pure_def] at hread
    by_cases hf : digits_value 10 first < 2 ^ 63
    · by_cases hc : digits_value 10 count < 2 ^ 63
      · rw [if_pos hf, if_pos hc] at hread
        cases hread
        refine ⟨line, hline, first, count, hrange, hfrom.trans hlow, ?_⟩
        by_contra hover
        have hwrap : last_of ((digits_value 10 first : ℤ), (digits_value 10 count : ℤ)) < 0 := by
          unfold last_of
          by_cases hsum : (digits_value 10 first : ℤ) + digits_value 10 count - 1 < 2 ^ 63
          · rw [last_of, wrap_eq (by omega) hsum] at hlast
            omega
          · have hsub : wrap ((digits_value 10 first : ℤ) + digits_value 10 count - 1) =
                wrap ((digits_value 10 first : ℤ) + digits_value 10 count - 1 - 2 ^ 64) := by
              exact (Int.sub_bmod_right _ _).symm
            rw [hsub, wrap_eq (by omega) (by omega)]
            omega
        omega
      · rw [if_pos hf, if_neg hc] at hread
        cases hread
    · rw [if_neg hf] at hread
      cases hread

theorem Held.safe {top k : ℤ} (h : Held uid_map gid_map top) (hpos : 0 ≤ top)
    (hwindow : ¬(65536 ≤ top ∧ top ≤ 69630)) (hk : 0 ≤ k) (hk' : k < 4096) :
    wrap (pool_first top + k) = top - 4095 + k ∧ Safe uid_map gid_map (top - 4095 + k) := by
  obtain ⟨hfirst, hleast, hmost, hnobody, hoverflow⟩ := h.plain hpos
  have huid := h.uid
  have hgid := h.gid
  rw [hfirst] at huid hgid ⊢
  refine ⟨wrap_eq (by omega) (by omega), ?_⟩
  exact {
    uid := mapped_run_maps huid hpos (by omega) (by omega)
    gid := mapped_run_maps hgid hpos (by omega) (by omega)
    root := by omega
    nobody := by omega
    overflow := by omega
    below := by omega }

/-! ## When the ids are safe -/

/-- The ids are safe, and their own, exactly where the pool that the maps hold, if any, ends neither below 0 nor from
65536 to 69630. -/
theorem pooled_iff (uid_map gid_map : Bytes) : Pooled uid_map gid_map ↔
    ∀ top, Held uid_map gid_map top → 0 ≤ top ∧ ¬(65536 ≤ top ∧ top ≤ 69630) := by
  constructor
  · intro h top hheld
    have hanswer : ∀ serial, Safe uid_map gid_map (wrap (pool_first top + serial % USER_POOL)) := fun serial =>
      h.safe serial _ (user_id_ok_iff.mpr ⟨top, hheld, rfl⟩)
    by_cases hpos : 0 ≤ top
    · refine ⟨hpos, fun hwindow => ?_⟩
      obtain ⟨hfirst, -⟩ := hheld.plain hpos
      -- The pool ends past 65535, so it holds nobody, or begins at 65535.
      by_cases hlast : top ≤ 69629
      · have hserial := hanswer (65534 - (top - 4095))
        rw [hfirst, USER_POOL, Int.emod_eq_of_lt (by omega) (by omega), wrap_eq (by omega) (by omega)] at hserial
        exact hserial.nobody (by omega)
      · have hserial := hanswer 0
        rw [hfirst, Int.zero_emod, wrap_eq (by omega) (by omega)] at hserial
        exact hserial.overflow (by omega)
    · have hbelow := (hanswer 0).below
      have hfirst := hheld.wrapped (by omega)
      have hlow : -(2 ^ 63) ≤ pool_first top := by omega
      have hhigh : pool_first top < 2 ^ 63 := (wrap_bounds _).2
      rw [Int.zero_emod, Int.add_zero, wrap_eq hlow hhigh] at hbelow
      omega
  · intro hcondition
    have hmod : ∀ serial : ℤ, 0 ≤ serial % USER_POOL ∧ serial % USER_POOL < 4096 := fun serial =>
      ⟨Int.emod_nonneg _ (by decide), Int.emod_lt_of_pos _ (by decide)⟩
    constructor
    · intro serial id h
      obtain ⟨top, hheld, rfl⟩ := user_id_ok_iff.mp h
      obtain ⟨hpos, hwindow⟩ := hcondition top hheld
      obtain ⟨heq, hsafe⟩ := hheld.safe hpos hwindow (hmod serial).1 (hmod serial).2
      rwa [heq]
    · intro serial serial' id hne h h'
      obtain ⟨top, hheld, rfl⟩ := user_id_ok_iff.mp h
      obtain ⟨top', hheld', heq'⟩ := user_id_ok_iff.mp h'
      obtain rfl := hheld.unique hheld'
      obtain ⟨hpos, hwindow⟩ := hcondition top hheld
      rw [(hheld.safe hpos hwindow (hmod serial).1 (hmod serial).2).1,
        (hheld.safe hpos hwindow (hmod serial').1 (hmod serial').2).1] at heq'
      omega
    · intro id
      unfold in_pool
      cases hfirst : user_id uid_map gid_map 0 with
      | error why =>
        refine ⟨nofun, ?_⟩
        rintro ⟨serial, h⟩
        obtain ⟨top, hheld, -⟩ := user_id_ok_iff.mp h
        rw [user_id_ok_iff.mpr ⟨top, hheld, rfl⟩] at hfirst
        cases hfirst
      | ok first =>
        obtain ⟨top, hheld, rfl⟩ := user_id_ok_iff.mp hfirst
        obtain ⟨hpos, hwindow⟩ := hcondition top hheld
        have hmost := (hheld.plain hpos).2.2.1
        have hzero := (hheld.safe hpos hwindow (hmod 0).1 (hmod 0).2).1
        rw [hzero, Int.zero_emod]
        dsimp only
        rw [USER_POOL, wrap_eq (by omega) (by omega), decide_eq_true_eq]
        constructor
        · rintro ⟨hge, hlt⟩
          refine ⟨id - (top - 4095), user_id_ok_iff.mpr ⟨top, hheld, ?_⟩⟩
          rw [(hheld.safe hpos hwindow (hmod _).1 (hmod _).2).1, USER_POOL, Int.emod_eq_of_lt (by omega) (by omega)]
          omega
        · rintro ⟨serial, h⟩
          obtain ⟨top', hheld', rfl⟩ := user_id_ok_iff.mp h
          obtain rfl := hheld.unique hheld'
          rw [(hheld.safe hpos hwindow (hmod serial).1 (hmod serial).2).1]
          have hserial := hmod serial
          omega

/-- In a namespace of 66001 ids, a sandbox is given the id of nobody. -/
theorem nobody_given : user_id (lit "0 0 66001\n") (lit "0 0 66001\n") 3629 = .ok 65534 ∧
    ¬Pooled (lit "0 0 66001\n") (lit "0 0 66001\n") := by
  have hanswer : user_id (lit "0 0 66001\n") (lit "0 0 66001\n") 3629 = .ok 65534 := by decide
  exact ⟨hanswer, fun h => (h.safe _ _ hanswer).nobody rfl⟩

end Cosmic.Sandbox
