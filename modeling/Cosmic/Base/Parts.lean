/-
Texts of parts with a separator between them: joined, split again, and searched for two separators
in a row. Numbers in decimal and hexadecimal, and letters in lower case, which such parts are
written in.
-/
import Cosmic.Base.Items
import Cosmic.Base.Numeral
import Mathlib.Tactic.IntervalCases

set_option autoImplicit false

namespace Cosmic.Base

open List

/-! ## Hexadecimal -/

/-- `("%x"):format(n)` -/
def hex (n : ℕ) : Bytes := (Nat.toDigits 16 n).map (fun c => UInt8.ofNat c.toNat)

theorem hex_ne_nil (n : ℕ) : hex n ≠ [] := by
  simp only [hex, ne_eq, map_eq_nil_iff]
  exact Nat.toDigits_ne_nil

variable {n : ℕ}

theorem hex_of_lt (h : n < 16) : hex n = [UInt8.ofNat n.digitChar.toNat] := by
  unfold hex
  rw [Nat.toDigits_of_lt_base h]
  rfl

theorem hex_of_le (h : 16 ≤ n) : hex n = hex (n / 16) ++ hex (n % 16) := by
  rw [hex_of_lt (Nat.mod_lt n (by decide))]
  unfold hex
  rw [Nat.toDigits_of_base_le (by decide) h, map_append, map_singleton]

variable {k : ℕ}

theorem hex_length_le (hk : 0 < k) : (hex n).length ≤ k ↔ n < 16 ^ k := by
  unfold hex
  rw [length_map]
  exact Nat.length_toDigits_le_iff (by decide) hk

/-- `0` to `9` and `a` to `f`. -/
def isLowerHex (b : UInt8) : Bool := isDigit b || (97 ≤ b && b ≤ 102)

variable {b : UInt8}

theorem isHex_of_isLowerHex (h : isLowerHex b = true) : isHex b = true := by
  simp only [isLowerHex, isHex, Bool.or_eq_true] at h ⊢
  rcases h with h | h
  · exact .inl (.inl h)
  · exact .inr h

theorem hex_digit (h : n < 16) : isLowerHex (UInt8.ofNat n.digitChar.toNat) = true ∧
      digit_value (UInt8.ofNat n.digitChar.toNat) = n ∧
      (UInt8.ofNat n.digitChar.toNat = 48 → n = 0) := by
  interval_cases n <;> decide

theorem isLowerHex_of_mem_hex (h : b ∈ hex n) : isLowerHex b = true := by
  induction n using Nat.strongRecOn with
  | ind n ih =>
    by_cases hn : n < 16
    · rw [hex_of_lt hn, mem_singleton] at h
      rw [h]
      exact (hex_digit hn).1
    · rw [hex_of_le (Nat.le_of_not_lt hn), mem_append] at h
      rcases h with h | h
      · exact ih _ (by omega) h
      · exact ih _ (by omega) h

theorem digits_value_hex (n : ℕ) : digits_value 16 (hex n) = n := by
  induction n using Nat.strongRecOn with
  | ind n ih =>
    by_cases hn : n < 16
    · rw [hex_of_lt hn]
      have hd := (hex_digit hn).2.1
      simp only [digits_value, foldl_cons, foldl_nil]
      omega
    · have hlt : n % 16 < 16 := Nat.mod_lt n (by decide)
      rw [hex_of_le (Nat.le_of_not_lt hn), digits_value_append, ih _ (by omega), hex_of_lt hlt,
        foldl_cons, foldl_nil, (hex_digit hlt).2.1]
      omega

theorem hexadecimal_hex (n : ℕ) : hexadecimal (hex n) = some n := by
  rw [hexadecimal_of_digits (hex_ne_nil n)
    fun b hb => isHex_of_isLowerHex (isLowerHex_of_mem_hex hb), digits_value_hex]

/-- No number but zero begins with a zero. -/
theorem hex_head (h : (hex n).head? = some 48) : n = 0 := by
  induction n using Nat.strongRecOn with
  | ind n ih =>
    by_cases hn : n < 16
    · rw [hex_of_lt hn, head?_cons, Option.some_inj] at h
      exact (hex_digit hn).2.2 h
    · rw [hex_of_le (Nat.le_of_not_lt hn), head?_append_of_ne_nil _ (hex_ne_nil _)] at h
      have hzero := ih _ (by omega) h
      omega

/-! ## Decimal -/

theorem tostring_of_lt (h : n < 10) : tostring n = [UInt8.ofNat n.digitChar.toNat] := by
  unfold tostring
  rw [Nat.toDigits_of_lt_base h]
  rfl

theorem tostring_of_le (h : 10 ≤ n) : tostring n = tostring (n / 10) ++ tostring (n % 10) := by
  rw [tostring_of_lt (Nat.mod_lt n (by decide))]
  unfold tostring
  rw [Nat.toDigits_of_base_le (by decide) h, map_append, map_singleton]

theorem digit_value_digit (h : isDigit b = true) : digit_value b = b.toNat - 48 ∧ 48 ≤ b.toNat ∧ b.toNat ≤ 57 := by
  have hb := h
  simp only [isDigit, Bool.and_eq_true, decide_eq_true_eq, UInt8.le_iff_toNat_le] at hb
  unfold digit_value
  rw [if_pos h]
  exact ⟨rfl, hb.1, hb.2⟩

theorem tostring_digit (h : isDigit b = true) : tostring (digit_value b) = [b] := by
  obtain ⟨hval, hlo, hhi⟩ := digit_value_digit h
  have hchar : ∀ n, n < 10 → n.digitChar.toNat = 48 + n := by decide
  rw [hval, tostring_of_lt (by omega), hchar _ (by omega), show 48 + (b.toNat - 48) = b.toNat by omega,
    UInt8.ofNat_toNat]

variable {s : Bytes}

/-- A run of digits that does not begin with a zero is its value written. The induction is on the
run from the right, a digit at a time. -/
theorem tostring_digits_value (hs : s ≠ []) (hd : ∀ b ∈ s, isDigit b = true) (hz : s.head? = some 48 → s.length = 1)
    : tostring (digits_value 10 s) = s := by
  induction s using reverseRecOn with
  | nil => exact absurd rfl hs
  | append_singleton s b ih =>
    have hb : isDigit b = true := hd b (mem_append_right s mem_cons_self)
    obtain ⟨hval, hlo, hhi⟩ := digit_value_digit hb
    by_cases hnil : s = []
    · rw [hnil, nil_append]
      simpa [digits_value] using tostring_digit hb
    have hlead : s.head? ≠ some 48 := by
      intro h
      have hone := hz (by rw [head?_append_of_ne_nil _ hnil, h])
      have hpos := length_pos_of_ne_nil hnil
      rw [length_append, length_singleton] at hone
      omega
    have ih' := ih hnil (fun c hc => hd c (mem_append_left _ hc)) (fun h => absurd h hlead)
    have hpos : 0 < digits_value 10 s := by
      apply Nat.pos_of_ne_zero
      intro hzero
      rw [hzero] at ih'
      exact hlead (by rw [← ih']; rfl)
    rw [digits_value_append, foldl_cons, foldl_nil, tostring_of_le (by omega),
      show (10 * digits_value 10 s + digit_value b) / 10 = digits_value 10 s by omega,
      show (10 * digits_value 10 s + digit_value b) % 10 = digit_value b by omega, ih',
      tostring_digit hb]

/-- No number but zero begins with a zero. -/
theorem tostring_head (h : (tostring n).head? = some 48) : n = 0 := by
  induction n using Nat.strongRecOn with
  | ind n ih =>
    by_cases hn : n < 10
    · have hdigit : ∀ n, n < 10 → (tostring n).head? = some 48 → n = 0 := by decide
      exact hdigit n hn h
    · rw [tostring_of_le (by omega), head?_append_of_ne_nil _ (tostring_ne_nil _)] at h
      have hzero := ih _ (by omega) h
      omega

/-! ## Lower case -/

/-- `%u` -/
def isUpper (b : UInt8) : Bool := 65 ≤ b && b ≤ 90

/-- `string.lower`, of ASCII letters. -/
def lower (s : Bytes) : Bytes := s.map (fun b => if isUpper b then b + 32 else b)

@[simp] theorem lower_length (s : Bytes) : (lower s).length = s.length := length_map _

@[simp] theorem lower_nil : lower [] = [] := rfl

theorem lower_eq_nil : lower s = [] ↔ s = [] := map_eq_nil_iff

/-- A text without capitals is in lower case. -/
theorem lower_of_forall (h : ∀ b ∈ s, isUpper b = false) : lower s = s := by
  unfold lower
  rw [map_congr_left, map_id]
  intro b hb
  rw [h b hb]
  rfl

/-! ## Every item read -/

theorem mapM_eq_some_iff {α β : Type} {f : α → Option β} {s : List α} {r : List β} :
    s.mapM f = some r ↔ s.map f = r.map some := by
  induction s generalizing r with
  | nil =>
    rw [mapM_nil, map_nil]
    constructor
    · intro h
      rw [← Option.some.inj h]
      rfl
    · intro h
      rw [map_eq_nil_iff.mp h.symm]
      rfl
  | cons a s ih =>
    rw [mapM_cons, map_cons]
    constructor
    · intro h
      obtain ⟨b, hb, h⟩ := Option.bind_eq_some_iff.mp h
      obtain ⟨t, ht, h⟩ := Option.bind_eq_some_iff.mp h
      rw [← Option.some.inj h, hb, ih.mp ht]
      rfl
    · intro h
      cases r with
      | nil => cases h
      | cons b t =>
        obtain ⟨hb, ht⟩ := List.cons.inj h
        rw [hb, ih.mpr ht]
        rfl

/-! ## Joined and split -/

theorem concat_eq_intercalate (sep : Bytes) (ps : List Bytes) : concat sep ps = sep.intercalate ps := by
  induction ps with
  | nil => rfl
  | cons p ps ih =>
    cases ps with
    | nil => simp [concat, intercalate]
    | cons q ps => rw [concat, ih, intercalate_cons_cons]

/-- A text is its parts joined. -/
theorem concat_splitOn (c : UInt8) (s : Bytes) : concat [c] (s.splitOn c) = s := by
  rw [concat_eq_intercalate, intercalate_splitOn]

variable {c : UInt8} {ps : List Bytes}

/-- Parts that do not hold the separator are found again. -/
theorem splitOn_concat (hps : ps ≠ []) (hc : ∀ p ∈ ps, c ∉ p) : (concat [c] ps).splitOn c = ps := by
  rw [concat_eq_intercalate, splitOn_intercalate c hc hps]

variable {p : Bytes}

theorem not_mem_of_mem_splitOn (h : p ∈ s.splitOn c) : c ∉ p := by
  induction s generalizing p with
  | nil =>
    rw [splitOn_nil, mem_singleton] at h
    rw [h]
    exact not_mem_nil
  | cons b s ih =>
    rw [splitOn_cons_eq_if_modifyHead] at h
    split at h
    · rcases mem_cons.mp h with rfl | h
      · exact not_mem_nil
      · exact ih h
    next hb =>
    obtain ⟨q, qs, hq⟩ := exists_cons_of_ne_nil (splitOn_ne_nil c s)
    rw [hq, modifyHead_cons, mem_cons] at h
    rcases h with rfl | h
    · intro hmem
      rcases mem_cons.mp hmem with rfl | hmem
      · exact hb (by simp)
      · exact ih (hq ▸ mem_cons_self) hmem
    · exact ih (hq ▸ mem_cons_of_mem q h)

theorem mem_concat {sep : Bytes} (h : b ∈ concat sep ps) : b ∈ sep ∨ ∃ p ∈ ps, b ∈ p := by
  induction ps with
  | nil => exact absurd h not_mem_nil
  | cons p ps ih =>
    cases ps with
    | nil => exact .inr ⟨p, mem_cons_self, h⟩
    | cons q ps =>
      rw [concat, append_assoc, mem_append, mem_append] at h
      rcases h with h | h | h
      · exact .inr ⟨p, mem_cons_self, h⟩
      · exact .inl h
      · rcases ih h with h | ⟨r, hr, h⟩
        · exact .inl h
        · exact .inr ⟨r, mem_cons_of_mem p hr, h⟩

theorem concat_cons_append (sep p : Bytes) (h : ps ≠ []) : concat sep (p :: ps) = p ++ sep ++ concat sep ps := by
  obtain ⟨q, qs, rfl⟩ := exists_cons_of_ne_nil h
  rfl

theorem concat_append {sep : Bytes} {qs : List Bytes} (hp : ps ≠ []) (hq : qs ≠ []) :
    concat sep (ps ++ qs) = concat sep ps ++ sep ++ concat sep qs := by
  induction ps with
  | nil => exact absurd rfl hp
  | cons p ps ih =>
    rw [cons_append]
    cases ps with
    | nil => exact concat_cons_append sep p hq
    | cons r ps =>
      rw [concat_cons_append sep p (by simp), ih (by simp), concat_cons_append sep p (by simp)]
      simp only [append_assoc]

/-- A text of parts of at most `k` bytes and separators of one. -/
theorem concat_length_le (h : ∀ p ∈ ps, p.length ≤ k) : (concat [c] ps).length + 1 ≤ ps.length * (k + 1) + 1 := by
  induction ps with
  | nil => exact Nat.le_add_left _ _
  | cons p ps ih =>
    have hp : p.length ≤ k := h p mem_cons_self
    have hps := ih fun q hq => h q (mem_cons_of_mem p hq)
    have hmul : (p :: ps).length * (k + 1) = ps.length * (k + 1) + (k + 1) := by
      rw [length_cons, Nat.succ_mul]
    rw [hmul]
    by_cases hnil : ps = []
    · rw [hnil]
      simp only [concat, length_nil, Nat.zero_mul]
      omega
    · rw [concat_cons_append _ _ hnil]
      simp only [length_append, length_singleton]
      omega

/-! ## Two separators in a row -/

variable {t : Bytes}

theorem index_of_none (h : ∀ k, ¬t <+: s.drop k) : index_of t s = none := by
  induction s with
  | nil =>
    rw [index_of, if_neg]
    exact fun ht => h 0 (by rw [ht]; exact nil_prefix)
  | cons b s ih =>
    have hhere : ¬t.isPrefixOf (b :: s) = true := fun hp => h 0 (List.isPrefixOf_iff_prefix.mp hp)
    rw [index_of, if_neg hhere, ih fun k => h (k + 1)]
    rfl

/-- What is found is found where more follows. -/
theorem index_of_more (h : index_of t s = some k) (more : Bytes) :
    index_of t (s ++ more) = some k ∧ k + t.length ≤ s.length := by
  induction s generalizing k with
  | nil =>
    rw [index_of] at h
    split at h
    · next ht =>
      cases h
      subst ht
      refine ⟨?_, le_rfl⟩
      cases more with
      | nil => rfl
      | cons b more => rfl
    · cases h
  | cons b s ih =>
    rw [index_of] at h
    rw [cons_append, index_of]
    split at h
    · next hprefix =>
      cases h
      have hbegins : t <+: b :: s := isPrefixOf_iff_prefix.mp hprefix
      refine ⟨if_pos (List.isPrefixOf_iff_prefix.mpr (hbegins.trans (prefix_append (b :: s) more))), ?_⟩
      rw [Nat.zero_add]
      exact hbegins.length_le
    · next hnot =>
      obtain ⟨k', hk', rfl⟩ := Option.map_eq_some_iff.mp h
      obtain ⟨hmore, hle⟩ := ih hk'
      refine ⟨?_, by rw [length_cons]; omega⟩
      -- what is looked for is no longer than the text, so more of the text does not make it begin so
      rw [if_neg, hmore]
      · rfl
      · intro hprefix
        have hprefix : t <+: (b :: s) ++ more := isPrefixOf_iff_prefix.mp hprefix
        refine hnot (List.isPrefixOf_iff_prefix.mpr ?_)
        exact prefix_of_prefix_length_le hprefix (prefix_append _ _) (by rw [length_cons]; omega)

theorem index_of_append {w : Bytes} (h : c ∉ w) :
    index_of (c :: t) (w ++ s) = (index_of (c :: t) s).map (· + w.length) := by
  induction w with
  | nil =>
    rw [nil_append]
    simp
  | cons b w ih =>
    have hb : b ≠ c := fun he => h (he ▸ mem_cons_self)
    rw [cons_append, index_of, if_neg, ih fun hm => h (mem_cons_of_mem b hm), Option.map_map]
    · congr 1
    · intro hp
      exact hb (cons_prefix_cons.mp (List.isPrefixOf_iff_prefix.mp hp)).1.symm

theorem index_of_not_mem {w : Bytes} (h : c ∉ w) : index_of (c :: t) w = none := by
  apply index_of_none
  intro k hp
  exact h (mem_of_mem_drop (hp.subset mem_cons_self))

/-- The first of a byte in a text is after a part of it without that byte. -/
theorem index_of_byte (h : index_of [c] s = some k) : ∃ u v, s = u ++ c :: v ∧ c ∉ u ∧ u.length = k := by
  by_cases hmem : c ∈ s
  · obtain ⟨u, v, rfl, hu⟩ := eq_append_cons_of_mem hmem
    rw [index_of_append hu, index_of, if_pos (by simp)] at h
    exact ⟨u, v, rfl, hu, by simpa using h⟩
  · rw [index_of_not_mem hmem] at h
    cases h

theorem index_of_single (h : b ≠ c) :
    index_of (c :: c :: t) (c :: b :: s) = (index_of (c :: c :: t) (b :: s)).map (· + 1) := by
  conv_lhs => rw [index_of]
  rw [if_neg]
  intro hp
  have hp' := (cons_prefix_cons.mp (List.isPrefixOf_iff_prefix.mp hp)).2
  exact h (cons_prefix_cons.mp hp').1.symm

/-- Parts that hold something and no separator: no two separators are in a row among them. -/
structure Parts (c : UInt8) (ps : List Bytes) : Prop where
  filled : ∀ p ∈ ps, p ≠ []
  apart : ∀ p ∈ ps, c ∉ p

theorem Parts.tail (h : Parts c (p :: ps)) : Parts c ps :=
  ⟨fun q hq => h.filled q (mem_cons_of_mem p hq),
    fun q hq => h.apart q (mem_cons_of_mem p hq)⟩

theorem Parts.concat_cons (h : Parts c (p :: ps)) : ∃ b s, concat [c] (p :: ps) = b :: s ∧ b ≠ c := by
  obtain ⟨b, s, rfl⟩ := exists_cons_of_ne_nil (h.filled p mem_cons_self)
  refine ⟨b, s ++ (concat [c] ((b :: s) :: ps)).drop (s.length + 1), ?_, ?_⟩
  · cases ps with
    | nil => simp [concat]
    | cons q ps => simp [concat]
  · exact fun he => h.apart _ mem_cons_self (he ▸ mem_cons_self)

theorem Parts.index_of_append (h : Parts c ps) : index_of (c :: c :: t) (concat [c] ps ++ s) =
      (index_of (c :: c :: t) s).map (· + (concat [c] ps).length) := by
  induction ps with
  | nil => simp [concat]
  | cons p ps ih =>
    have hp : c ∉ p := h.apart p mem_cons_self
    cases ps with
    | nil => exact Base.index_of_append hp
    | cons q ps =>
      obtain ⟨b, u, hu, hb⟩ := h.tail.concat_cons
      have hstep := ih h.tail
      rw [concat, append_assoc, append_assoc, Base.index_of_append hp, singleton_append]
      rw [hu, cons_append] at hstep ⊢
      rw [index_of_single hb, hstep, Option.map_map, Option.map_map]
      congr 1
      funext k
      simp only [Function.comp_apply, length_append, length_cons, length_nil]
      omega

theorem Parts.index_of_none (h : Parts c ps) : index_of (c :: c :: t) (concat [c] ps) = none := by
  induction ps with
  | nil => simp [concat, index_of]
  | cons p ps ih =>
    have hp : c ∉ p := h.apart p mem_cons_self
    cases ps with
    | nil => exact index_of_not_mem hp
    | cons q ps =>
      obtain ⟨b, u, hu, hb⟩ := h.tail.concat_cons
      have hstep := ih h.tail
      rw [concat, append_assoc, Base.index_of_append hp, singleton_append]
      rw [hu] at hstep ⊢
      rw [index_of_single hb, hstep]
      rfl

end Cosmic.Base
