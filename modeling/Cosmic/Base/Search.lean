/-
Reading a byte string by position, as Lua's `string` library does: positions count from 1, a
byte past the end is `nil`, and a search answers where it found something.
-/
import Cosmic.Base.Text
import Mathlib.Tactic.ByContra

set_option autoImplicit false

namespace Cosmic.Base

open List Option

/-! ## Bytes and substrings -/

/-- The byte at position `i`. -/
def byte (s : Bytes) : ℕ → Option UInt8
  | 0 => none
  | i + 1 => s[i]?

/-- The bytes from position `i` to position `j`, both included. -/
def sub (s : Bytes) (i j : ℕ) : Bytes := (s.take j).drop (i - 1)

/-! ## Classes of bytes -/

def isAlpha (b : UInt8) : Bool := (65 ≤ b && b ≤ 90) || (97 ≤ b && b ≤ 122)

def isHex (b : UInt8) : Bool := isDigit b || (65 ≤ b && b ≤ 70) || (97 ≤ b && b ≤ 102)

/-- `[%w_]` -/
def isWord (b : UInt8) : Bool := isAlpha b || isDigit b || b == 95

/-- A line break byte, `\n` or `\r`. -/
def isBreak (b : UInt8) : Bool := b == 10 || b == 13

/-- `[ \t\v\f]` -/
def isBlank (b : UInt8) : Bool := b == 32 || b == 9 || b == 11 || b == 12

/-- `%s` -/
def isSpace (b : UInt8) : Bool := isBlank b || isBreak b

/-- `%c` -/
def isControl (b : UInt8) : Bool := b < 32 || b == 127

/-! ## Searches -/

/-- The first position from `i` on whose byte passes `p`. -/
def find (p : UInt8 → Bool) (s : Bytes) (i : ℕ) : Option ℕ := ((s.drop (i - 1)).findIdx? p).map (· + i)

/-- How far into `s` the text `t` first stands. -/
def index_of (t : Bytes) : Bytes → Option ℕ
  | [] => if t = [] then some 0 else none
  | b :: s => if t.isPrefixOf (b :: s) then some 0 else (index_of t s).map (· + 1)

/-- The first and the last position of the first `t` of `s` from `i` on. -/
def find_text (t s : Bytes) (i : ℕ) : Option (ℕ × ℕ) :=
  (index_of t (s.drop (i - 1))).map (fun k => (k + i, k + i + t.length - 1))

/-- How many bytes pass `p` at the start of `s`, up to `most`. -/
def run_length (p : UInt8 → Bool) : ℕ → Bytes → ℕ
  | 0, _ => 0
  | _ + 1, [] => 0
  | most + 1, b :: s => if p b then run_length p most s + 1 else 0

/-- The last position of the longest run of at most `most` bytes passing `p` that begins at `i`:
`i - 1` for no byte at all. -/
def run_end (p : UInt8 → Bool) (most : ℕ) (s : Bytes) (i : ℕ) : ℕ := i - 1 + run_length p most (s.drop (i - 1))

/-! ## Where a search ends -/

variable {i : ℕ}

theorem byte_eq (s : Bytes) (h : 1 ≤ i) : byte s i = s[i - 1]? := by
  obtain ⟨k, rfl⟩ : ∃ k, i = k + 1 := ⟨i - 1, by omega⟩
  rfl

variable {s : Bytes} {b : UInt8}

theorem byte_some_le (h : byte s i = some b) : 1 ≤ i ∧ i ≤ s.length := by
  cases i with
  | zero => cases h
  | succ k =>
    have hk : k < s.length := (List.getElem?_eq_some_iff.mp h).1
    omega

theorem byte_of_le (h₁ : 1 ≤ i) (h₂ : i ≤ s.length) : ∃ b, byte s i = some b := by
  rw [byte_eq s h₁]
  exact ⟨_, getElem?_eq_getElem (by omega)⟩

variable {j : ℕ}

theorem sub_length (h₁ : 1 ≤ i) (hij : i ≤ j + 1) (hj : j ≤ s.length) : (sub s i j).length = j + 1 - i := by
  simp only [sub, length_drop, length_take]
  omega

variable {k : ℕ}

theorem byte_sub (h₁ : 1 ≤ i) (hk : 1 ≤ k) (hkj : i + k ≤ j + 1) : byte (sub s i j) k = byte s (i + k - 1) := by
  rw [byte_eq _ hk, byte_eq _ (by omega), sub, getElem?_drop, getElem?_take_of_lt (by omega)]
  congr 1
  omega

theorem byte_sub_none (h₁ : 1 ≤ i) (hk : 1 ≤ k) (hkj : j + 1 < i + k) : byte (sub s i j) k = none := by
  rw [byte_eq _ hk, sub, getElem?_drop]
  exact getElem?_eq_none (by rw [length_take]; omega)

theorem sub_of_sub {a z : ℕ} (ha : 1 ≤ a) (hi : 1 ≤ i) (hj : a + j ≤ z + 1) :
    sub (sub s a z) i j = sub s (a + i - 1) (a + j - 1) := by
  rw [sub, sub, sub, take_drop, take_take, drop_drop]
  congr 1
  · omega
  · congr 1
    omega

variable {p : UInt8 → Bool}

theorem find_some {q : ℕ} (hi : 1 ≤ i) (h : find p s i = some q) : i ≤ q ∧ (∃ b, byte s q = some b ∧ p b = true) ∧
      ∀ k b, i ≤ k → k < q → byte s k = some b → p b = false := by
  obtain ⟨n, hn, rfl⟩ := map_eq_some_iff.mp h
  obtain ⟨hlt, hp, hbefore⟩ := findIdx?_eq_some_iff_getElem.mp hn
  rw [length_drop] at hlt
  have hq : byte s (n + i) = some s[i - 1 + n] := by
    rw [byte_eq s (by omega), show n + i - 1 = i - 1 + n by omega]
    exact getElem?_eq_getElem (by omega)
  refine ⟨Nat.le_add_left i n, ⟨_, hq, by simpa using hp⟩, fun k b hik hkq hb => ?_⟩
  have hkn : k - i < n := by omega
  have hno := hbefore (k - i) hkn
  rw [byte_eq s (by omega)] at hb
  obtain ⟨hk, hval⟩ := List.getElem?_eq_some_iff.mp hb
  have hkey : s[i - 1 + (k - i)] = b := by
    rw [← hval]
    congr 1
    omega
  rw [getElem_drop, hkey] at hno
  simpa using hno

theorem find_none (hi : 1 ≤ i) (h : find p s i = none) (hik : i ≤ k) (hb : byte s k = some b) : p b = false := by
  have hn := map_eq_none_iff.mp h
  rw [byte_eq s (by omega)] at hb
  obtain ⟨hk, rfl⟩ := List.getElem?_eq_some_iff.mp hb
  refine findIdx?_eq_none_iff.mp hn _ (mem_iff_getElem.mpr ⟨k - i, ?_, ?_⟩)
  · rw [length_drop]
    omega
  · rw [getElem_drop]
    congr 1
    omega

theorem find_eq_some {q : ℕ} (hi : 1 ≤ i) (hiq : i ≤ q) (hq : byte s q = some b) (hp : p b = true)
    (hno : ∀ k b, i ≤ k → k < q → byte s k = some b → p b = false) : find p s i = some q := by
  cases hf : find p s i with
  | none =>
    have hfalse := find_none hi hf hiq hq
    rw [hp] at hfalse
    cases hfalse
  | some q' =>
    obtain ⟨hiq', ⟨b', hb', hp'⟩, hno'⟩ := find_some hi hf
    rcases Nat.lt_trichotomy q q' with hlt | rfl | hlt
    · have hfalse := hno' q b hiq hlt hq
      rw [hp] at hfalse
      cases hfalse
    · rfl
    · have hfalse := hno q' b' hiq' hlt hb'
      rw [hp'] at hfalse
      cases hfalse

theorem find_eq_none (hi : 1 ≤ i) (hno : ∀ k b, i ≤ k → byte s k = some b → p b = false) : find p s i = none := by
  cases hf : find p s i with
  | none => rfl
  | some q =>
    obtain ⟨hiq, ⟨b, hb, hp⟩, _⟩ := find_some hi hf
    have hfalse := hno q b hiq hb
    rw [hp] at hfalse
    cases hfalse

theorem index_of_le {t : Bytes} (h : index_of t s = some k) : k + t.length ≤ s.length := by
  induction s generalizing k with
  | nil =>
    rw [index_of] at h
    split at h
    · next ht =>
      subst ht
      rw [← some.inj h]
      rfl
    · cases h
  | cons b s ih =>
    rw [index_of] at h
    split at h
    · next ht =>
      rw [← some.inj h]
      have hle := (List.isPrefixOf_iff_prefix.mp ht).length_le
      omega
    · obtain ⟨k', hk', rfl⟩ := map_eq_some_iff.mp h
      have hle := ih hk'
      rw [length_cons]
      omega

theorem find_text_some {t : Bytes} {cs ce : ℕ} (ht : t ≠ []) (hi : 1 ≤ i) (h : find_text t s i = some (cs, ce)) :
    i ≤ cs ∧ ce + 1 = cs + t.length ∧ ce ≤ s.length := by
  obtain ⟨k, hk, heq⟩ := map_eq_some_iff.mp h
  cases heq
  have hle := index_of_le hk
  have hpos := length_pos_of_ne_nil ht
  rw [length_drop] at hle
  omega

theorem run_length_le (p : UInt8 → Bool) (most : ℕ) (s : Bytes) : run_length p most s ≤ most := by
  induction most generalizing s with
  | zero => exact Nat.le_refl 0
  | succ most ih =>
    cases s with
    | nil => exact Nat.zero_le _
    | cons b s =>
      rw [run_length]
      have hle := ih s
      split <;> omega

variable {most : ℕ}

theorem run_length_get (h : k < run_length p most s) : ∃ b, s[k]? = some b ∧ p b = true := by
  induction most generalizing s k with
  | zero => exact absurd h (Nat.not_lt_zero k)
  | succ most ih =>
    cases s with
    | nil => exact absurd h (Nat.not_lt_zero k)
    | cons b s =>
      rw [run_length] at h
      split at h
      · next hb =>
        cases k with
        | zero => exact ⟨b, rfl, hb⟩
        | succ k =>
          have hk : k < run_length p most s := by omega
          rw [getElem?_cons_succ]
          exact ih hk
      · exact absurd h (Nat.not_lt_zero k)

theorem run_length_stop (h : run_length p most s < most) (hb : s[run_length p most s]? = some b) : p b = false := by
  induction most generalizing s with
  | zero => exact absurd h (Nat.not_lt_zero _)
  | succ most ih =>
    cases s with
    | nil => cases hb
    | cons c s =>
      rw [run_length] at h hb
      split at h
      · next hc =>
        rw [if_pos hc] at hb
        exact ih (by omega) hb
      · next hc =>
        rw [if_neg hc] at hb
        rw [← some.inj hb]
        simpa using hc

theorem byte_drop (s : Bytes) (hi : 1 ≤ i) : (s.drop (i - 1))[k]? = byte s (i + k) := by
  rw [getElem?_drop, byte_eq s (by omega)]
  congr 1
  omega

/-- What a run is: bytes that pass, as many as there are up to `most`. -/
structure IsRun (p : UInt8 → Bool) (most : ℕ) (s : Bytes) (i e : ℕ) : Prop where
  first : i ≤ e + 1
  last : e + 1 ≤ i + most
  passes : ∀ k, i ≤ k → k ≤ e → ∃ b, byte s k = some b ∧ p b = true
  stops : ∀ b, e + 1 < i + most → byte s (e + 1) = some b → p b = false

theorem run_end_isRun (p : UInt8 → Bool) (most : ℕ) (s : Bytes) (hi : 1 ≤ i) :
    IsRun p most s i (run_end p most s i) := by
  have hle := run_length_le p most (s.drop (i - 1))
  refine ⟨by rw [run_end]; omega, by rw [run_end]; omega, fun k hik hke => ?_, fun b hlt hb => ?_⟩
  · rw [run_end] at hke
    have hk : k - i < run_length p most (s.drop (i - 1)) := by omega
    obtain ⟨b, hb, hp⟩ := run_length_get hk
    rw [byte_drop s hi, show i + (k - i) = k by omega] at hb
    exact ⟨b, hb, hp⟩
  · rw [run_end] at hlt hb
    have hless : run_length p most (s.drop (i - 1)) < most := by omega
    refine run_length_stop hless ?_
    rw [byte_drop s hi, ← hb]
    congr 1
    omega

/-- There is one run from each position. -/
theorem IsRun.unique {e e' : ℕ} (h : IsRun p most s i e) (h' : IsRun p most s i e') : e = e' := by
  have hle : ∀ {e e'}, IsRun p most s i e → IsRun p most s i e' → e' ≤ e := by
    intro e e' h h'
    by_contra hlt
    have hlast := h'.last
    have hfirst := h.first
    obtain ⟨b, hb, hp⟩ := h'.passes (e + 1) hfirst (by omega)
    have hstop := h.stops b (by omega) hb
    rw [hp] at hstop
    cases hstop
  exact Nat.le_antisymm (hle h' h) (hle h h')

theorem IsRun.le_length {e : ℕ} (h : IsRun p most s i e) (hi : i ≤ s.length + 1) : e ≤ s.length := by
  rcases Nat.lt_or_ge e i with hlt | hge
  · omega
  · obtain ⟨b, hb, _⟩ := h.passes e hge (Nat.le_refl e)
    exact (byte_some_le hb).2

end Cosmic.Base
