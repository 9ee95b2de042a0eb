/-
What escaping a text and splitting a path keep: `unescape` undoes `escape`, and `segments` answers the
segments of exactly the paths that a server can join under a directory.
-/
import Cosmic.Web.Router

set_option autoImplicit false

namespace Cosmic.Web.Url

open Cosmic.Base Option Except

variable {s t : Bytes}

/-! ## What an escaped text spells -/

/-- `s` spells `t`: a byte spells itself, and `%` with two hexadecimal digits the byte they name. -/
inductive Spells : Bytes → Bytes → Prop
  | done : Spells [] []
  | plain {b : UInt8} {s t : Bytes} (hb : b ≠ 37) (h : Spells s t) : Spells (b :: s) (b :: t)
  | escaped {x y : UInt8} {s t : Bytes} (hx : isHex x = true) (hy : isHex y = true) (h : Spells s t) :
      Spells (37 :: x :: y :: s) (UInt8.ofNat (digits_value 16 [x, y]) :: t)

/-- Every `%` is followed by two hexadecimal digits. -/
def Escaped (s : Bytes) : Prop :=
  ∀ i : ℕ, s[i]? = some 37 → ∃ x y, s[i + 1]? = some x ∧ s[i + 2]? = some y ∧ isHex x = true ∧ isHex y = true

theorem escaped_nil : Escaped [] := fun i hi => by simp at hi

theorem escaped_cons {b : UInt8} (hb : b ≠ 37) : Escaped (b :: s) ↔ Escaped s := by
  constructor
  · intro h i hi
    exact h (i + 1) hi
  · intro h i hi
    cases i with
    | zero => exact absurd (some.inj hi) hb
    | succ i => exact h i hi

theorem hex_ne_percent {x : UInt8} (hx : isHex x = true) : x ≠ 37 := by
  rintro rfl
  cases hx

theorem escaped_percent {x y : UInt8} (hx : isHex x = true) (hy : isHex y = true) :
    Escaped (37 :: x :: y :: s) ↔ Escaped s := by
  have hdigits : Escaped (x :: y :: s) ↔ Escaped s :=
    (escaped_cons (hex_ne_percent hx)).trans (escaped_cons (hex_ne_percent hy))
  refine Iff.trans ?_ hdigits
  constructor
  · intro h i hi
    exact h (i + 1) hi
  · intro h i hi
    cases i with
    | zero => exact ⟨x, y, rfl, rfl, hx, hy⟩
    | succ i => exact h i hi

theorem unescape_plain (i : ℕ) {b : UInt8} (hb : b ≠ 37) (s : Bytes) :
    unescape i (b :: s) = (unescape (i + 1) s).map (b :: ·) := by
  rw [unescape.eq_def]
  dsimp only
  rw [if_neg hb]
  cases unescape (i + 1) s <;> rfl

theorem unescape_ok_iff (i : ℕ) (s t : Bytes) : unescape i s = .ok t ↔ Spells s t := by
  induction i, s using unescape.induct generalizing t with
  | case1 i =>
    rw [unescape]
    constructor
    · intro h
      cases h
      exact .done
    · intro h
      cases h
      rfl
  | case2 i x y s hhex why hwhy ih =>
    rw [Bool.and_eq_true] at hhex
    rw [unescape, if_pos rfl]
    simp only [hhex.1, hhex.2, Bool.and_self, if_true, hwhy]
    constructor
    · intro h
      cases h
    · intro h
      cases h with
      | plain hb => exact absurd rfl hb
      | escaped _ _ h => exact absurd ((ih _).mpr h) (by simp [hwhy])
  | case3 i x y s hhex bytes hbytes ih =>
    rw [Bool.and_eq_true] at hhex
    rw [unescape, if_pos rfl]
    simp only [hhex.1, hhex.2, Bool.and_self, if_true, hbytes]
    constructor
    · intro h
      cases h
      exact .escaped hhex.1 hhex.2 ((ih _).mp hbytes)
    · intro h
      cases h with
      | plain hb => exact absurd rfl hb
      | escaped _ _ h =>
        rw [(ih _).mpr h] at hbytes
        cases hbytes
        rfl
  | case4 i x y s hhex =>
    rw [Bool.and_eq_true] at hhex
    rw [unescape, if_pos rfl]
    simp only [Bool.and_eq_true, hhex, if_false]
    constructor
    · intro h
      cases h
    · intro h
      cases h with
      | plain hb => exact absurd rfl hb
      | escaped hx hy _ => exact absurd ⟨hx, hy⟩ hhex
  | case5 i s hshort =>
    constructor
    · intro h
      rw [unescape, if_pos rfl] at h
      · cases h
      · exact hshort
    · intro h
      cases h with
      | plain hb => exact absurd rfl hb
      | escaped _ _ _ => exact absurd rfl (hshort _ _ _)
  | case6 i b s hb why hwhy ih =>
    rw [unescape_plain i hb, hwhy]
    constructor
    · intro h
      cases h
    · intro h
      cases h with
      | plain _ h => exact absurd ((ih _).mpr h) (by simp [hwhy])
      | escaped => exact absurd rfl hb
  | case7 i b s hb bytes hbytes ih =>
    rw [unescape_plain i hb, hbytes]
    constructor
    · intro h
      cases h
      exact .plain hb ((ih _).mp hbytes)
    · intro h
      cases h with
      | plain _ h =>
        rw [(ih _).mpr h] at hbytes
        cases hbytes
        rfl
      | escaped => exact absurd rfl hb

theorem Spells.unique {t' : Bytes} (h : Spells s t) (h' : Spells s t') : t = t' := by
  have hread := (unescape_ok_iff 1 s t).mpr h
  rw [(unescape_ok_iff 1 s t').mpr h'] at hread
  exact (ok.inj hread).symm

theorem spells_iff (s : Bytes) : (∃ t, Spells s t) ↔ Escaped s := by
  constructor
  · rintro ⟨t, h⟩
    induction h with
    | done => exact escaped_nil
    | plain hb _ ih => exact (escaped_cons hb).mpr ih
    | escaped hx hy _ ih => exact (escaped_percent hx hy).mpr ih
  · intro h
    -- On the length of `s`: an escape takes three bytes of it at once.
    induction hn : s.length using Nat.strong_induction_on generalizing s with
    | _ n ih =>
      cases s with
      | nil => exact ⟨[], .done⟩
      | cons b s =>
        by_cases hb : b = 37
        · subst hb
          obtain ⟨x, y, hx', hy', hx, hy⟩ := h 0 rfl
          obtain ⟨s', rfl⟩ : ∃ s', s = x :: y :: s' := by
            match s, hx', hy' with
            | a :: c :: s', hx', hy' =>
              exact ⟨s', by rw [← some.inj hx', ← some.inj hy']⟩
          simp only [List.length_cons] at hn
          obtain ⟨t, ht⟩ := ih s'.length (by omega) s' ((escaped_percent hx hy).mp h) rfl
          exact ⟨_, .escaped hx hy ht⟩
        · rw [List.length_cons] at hn
          obtain ⟨t, ht⟩ := ih s.length (by omega) s ((escaped_cons hb).mp h) rfl
          exact ⟨_, .plain hb ht⟩

/-! ## What `escape` writes -/

def escape_of (b : UInt8) : Bytes :=
  if is_unreserved b then [b] else [37, upper_digit (b / 16), upper_digit (b % 16)]

theorem escape_cons (b : UInt8) (s : Bytes) : escape (b :: s) = escape_of b ++ escape s := rfl

theorem upper_digit_spec (n : Fin 16) :
    isHex (upper_digit (UInt8.ofNat n)) = true ∧ digit_value (upper_digit (UInt8.ofNat n)) = n := by
  revert n
  decide

theorem hex_digits (b : UInt8) : isHex (upper_digit (b / 16)) = true ∧ isHex (upper_digit (b % 16)) = true ∧
    UInt8.ofNat (digits_value 16 [upper_digit (b / 16), upper_digit (b % 16)]) = b := by
  have hb := b.toNat_lt
  obtain ⟨hx, hhigh⟩ := upper_digit_spec ⟨b.toNat / 16, by omega⟩
  obtain ⟨hy, hlow⟩ := upper_digit_spec ⟨b.toNat % 16, by omega⟩
  have hdiv : UInt8.ofNat (b.toNat / 16) = b / 16 := by
    rw [← UInt8.toNat_inj, UInt8.toNat_div, UInt8.toNat_ofNat_of_lt' (show _ < 256 by omega)]
    rfl
  have hmod : UInt8.ofNat (b.toNat % 16) = b % 16 := by
    rw [← UInt8.toNat_inj, UInt8.toNat_mod, UInt8.toNat_ofNat_of_lt' (show _ < 256 by omega)]
    rfl
  rw [hdiv] at hx hhigh
  rw [hmod] at hy hlow
  have hvalue : digits_value 16 [upper_digit (b / 16), upper_digit (b % 16)] = 16 * (b.toNat / 16) + b.toNat % 16 := by
    rw [digits_value, List.foldl_cons, List.foldl_cons, List.foldl_nil, hhigh, hlow, Nat.mul_zero, Nat.zero_add]
  refine ⟨hx, hy, ?_⟩
  rw [hvalue, Nat.div_add_mod, UInt8.ofNat_toNat]

theorem unreserved_of_hex {b : UInt8} (h : isHex b = true) : is_unreserved b = true := by
  simp only [isHex, isDigit, Bool.or_eq_true, Bool.and_eq_true, decide_eq_true_eq, UInt8.le_iff_toNat_le,
    UInt8.toNat_ofNat] at h
  have halpha : isAlpha b = true ∨ isDigit b = true := by
    simp only [isAlpha, isDigit, Bool.or_eq_true, Bool.and_eq_true, decide_eq_true_eq, UInt8.le_iff_toNat_le,
      UInt8.toNat_ofNat]
    omega
  unfold is_unreserved
  rcases halpha with h | h
  · rw [h]
    rfl
  · rw [h, Bool.or_true]
    rfl

theorem mem_escape_of {b c : UInt8} (h : c ∈ escape_of b) : is_unreserved c = true ∨ c = 37 := by
  obtain ⟨hx, hy, -⟩ := hex_digits b
  unfold escape_of at h
  split at h
  next hb =>
    rw [List.mem_singleton] at h
    exact .inl (h ▸ hb)
  next =>
    simp only [List.mem_cons, List.not_mem_nil, or_false] at h
    rcases h with rfl | rfl | rfl
    · exact .inr rfl
    · exact .inl (unreserved_of_hex hx)
    · exact .inl (unreserved_of_hex hy)

theorem mem_escape {c : UInt8} (h : c ∈ escape s) : is_unreserved c = true ∨ c = 37 := by
  obtain ⟨b, -, hb⟩ := List.mem_flatMap.mp h
  exact mem_escape_of hb

theorem escape_spells (s : Bytes) : Spells (escape s) s := by
  induction s with
  | nil => exact .done
  | cons b s ih =>
    rw [escape_cons, escape_of]
    split
    · next hb =>
      refine .plain ?_ ih
      rintro rfl
      cases hb
    · obtain ⟨hx, hy, hvalue⟩ := hex_digits b
      have h := Spells.escaped hx hy ih
      rwa [hvalue] at h

theorem unescape_escape (i : ℕ) (s : Bytes) : unescape i (escape s) = .ok s :=
  (unescape_ok_iff i _ _).mpr (escape_spells s)

theorem slash_not_mem_escape (s : Bytes) : 47 ∉ escape s := by
  intro h
  rcases mem_escape h with h | h
  · cases h
  · cases h

/-! ## The segments of a path -/

/-- A segment that a path may spell. -/
structure Allowed (text : Bytes) : Prop where
  climbs : text ≠ lit ".."
  slash : 47 ∉ text
  nul : 0 ∉ text

structure Answered (text : Bytes) : Prop where
  allowed : Allowed text
  empty : text ≠ []
  dot : text ≠ lit "."

/-- The segments answered of those a path spells: an empty one and a `.` are dropped. -/
def answered (texts : List Bytes) : List Bytes := texts.filter fun text => text ≠ [] && text ≠ lit "."

theorem answered_eq {texts : List Bytes} (h : ∀ text ∈ texts, Answered text) : answered texts = texts := by
  refine List.filter_eq_self.mpr fun text htext => ?_
  simp [(h text htext).empty, (h text htext).dot]

structure Joinable (path : Bytes) : Prop where
  start : path.head? = some 47
  escaped : Escaped path
  allowed : ∀ piece ∈ (path.drop 1).splitOn 47, ∀ text, Spells piece text → Allowed text

theorem Spells.ne_nil (h : Spells s t) (hs : s ≠ []) : t ≠ [] := by
  cases h with
  | done => exact absurd rfl hs
  | plain => exact List.cons_ne_nil _ _
  | escaped => exact List.cons_ne_nil _ _

theorem spells_nil (h : Spells [] t) : t = [] := by
  cases h
  rfl

theorem allowed_nil : Allowed [] := ⟨by decide, List.not_mem_nil, List.not_mem_nil⟩

theorem segments_of_cons {i : ℕ} {piece text : Bytes} {pieces : List Bytes} (hpiece : piece ≠ [])
    (hspells : Spells piece text) (hallowed : Allowed text) :
    segments_of i (piece :: pieces) =
      (segments_of (i + piece.length + 1) pieces).map fun texts => if text = lit "." then texts else text :: texts := by
  have hslash : text.contains 47 = false := by simpa using hallowed.slash
  have hnul : text.contains 0 = false := by simpa using hallowed.nul
  rw [segments_of, if_neg hpiece, (unescape_ok_iff i piece text).mpr hspells]
  simp only [hallowed.climbs, if_false, hslash, hnul, Bool.false_eq_true]
  cases segments_of (i + piece.length + 1) pieces <;> rfl

theorem segments_of_head {i : ℕ} {piece : Bytes} {pieces segs : List Bytes} (hpiece : piece ≠ [])
    (h : segments_of i (piece :: pieces) = .ok segs) : ∃ text, Spells piece text ∧ Allowed text := by
  rw [segments_of, if_neg hpiece] at h
  split at h
  · cases h
  next text htext =>
    split at h
    · cases h
    next hclimbs =>
      split at h
      · cases h
      next hslash =>
        split at h
        · cases h
        next hnul =>
          refine ⟨text, (unescape_ok_iff i piece text).mp htext, hclimbs, ?_, ?_⟩
          · simpa using hslash
          · simpa using hnul

theorem segments_of_ok_iff (i : ℕ) (pieces segs : List Bytes) : segments_of i pieces = .ok segs ↔
      ∃ texts, List.Forall₂ Spells pieces texts ∧ (∀ text ∈ texts, Allowed text) ∧ segs = answered texts := by
  induction pieces generalizing i segs with
  | nil =>
    rw [segments_of]
    constructor
    · intro h
      cases h
      exact ⟨[], .nil, List.forall_mem_nil _, rfl⟩
    · rintro ⟨texts, htexts, -, rfl⟩
      cases htexts
      rfl
  | cons piece pieces ih =>
    by_cases hpiece : piece = []
    · -- An empty piece spells the empty segment, which is dropped.
      subst hpiece
      rw [segments_of, if_pos rfl, ih]
      constructor
      · rintro ⟨texts, htexts, hallowed, rfl⟩
        exact ⟨[] :: texts, .cons .done htexts, List.forall_mem_cons.mpr ⟨allowed_nil, hallowed⟩, rfl⟩
      · rintro ⟨texts, htexts, hallowed, rfl⟩
        cases htexts with
        | cons hhead htail =>
          cases spells_nil hhead
          exact ⟨_, htail, (List.forall_mem_cons.mp hallowed).2, rfl⟩
    · have hstep : ∀ {text : Bytes} (texts : List Bytes), Spells piece text →
          answered (text :: texts) = if text = lit "." then answered texts else text :: answered texts := by
        intro text texts htext
        unfold answered
        by_cases hdot : text = lit "."
        · rw [if_pos hdot, List.filter_cons_of_neg (by simp [hdot])]
        · rw [if_neg hdot, List.filter_cons_of_pos (by simp [hdot, htext.ne_nil hpiece])]
      constructor
      · intro h
        obtain ⟨text, htext, hallowed⟩ := segments_of_head hpiece h
        rw [segments_of_cons hpiece htext hallowed] at h
        cases hrest : segments_of (i + piece.length + 1) pieces with
        | error why =>
          rw [hrest] at h
          cases h
        | ok rest =>
          obtain ⟨texts, htexts, hall, rfl⟩ := (ih _ _).mp hrest
          rw [hrest] at h
          refine ⟨text :: texts, .cons htext htexts, List.forall_mem_cons.mpr ⟨hallowed, hall⟩, ?_⟩
          rw [hstep texts htext]
          exact (ok.inj h).symm
      · rintro ⟨texts, htexts, hall, rfl⟩
        cases htexts with
        | @cons _ text _ texts htext htexts =>
          obtain ⟨hallowed, hall⟩ := List.forall_mem_cons.mp hall
          rw [segments_of_cons hpiece htext hallowed, (ih _ _).mpr ⟨texts, htexts, hall, rfl⟩, hstep texts htext]
          rfl

/-! ## The paths that are read -/

theorem escaped_append (s t : Bytes) : Escaped (s ++ 47 :: t) ↔ Escaped s ∧ Escaped t := by
  induction hn : s.length using Nat.strong_induction_on generalizing s with
  | _ n ih =>
    cases s with
    | nil =>
      rw [List.nil_append, escaped_cons (by decide)]
      exact ⟨fun h => ⟨escaped_nil, h⟩, fun h => h.2⟩
    | cons b s =>
      rw [List.length_cons] at hn
      by_cases hb : b = 37
      · subst hb
        -- A `%` whose two digits would be read past the `/` has none.
        match s, hn with
        | x :: y :: s, hn =>
          rw [List.length_cons, List.length_cons] at hn
          by_cases hhex : isHex x = true ∧ isHex y = true
          · rw [List.cons_append, List.cons_append, List.cons_append, escaped_percent hhex.1 hhex.2,
              escaped_percent hhex.1 hhex.2]
            exact ih s.length (by omega) s rfl
          constructor
          · intro h
            obtain ⟨x', y', hx, hy, hhex'⟩ := h 0 rfl
            cases hx
            cases hy
            exact absurd hhex' hhex
          · rintro ⟨h, -⟩
            obtain ⟨x', y', hx, hy, hhex'⟩ := h 0 rfl
            cases hx
            cases hy
            exact absurd hhex' hhex
        | [x], _ =>
          constructor
          · intro h
            obtain ⟨x', y', hx, hy, hhex⟩ := h 0 rfl
            cases hy
            exact absurd hhex.2 (by decide)
          · rintro ⟨h, -⟩
            obtain ⟨x', y', hx, hy, hhex⟩ := h 0 rfl
            cases hy
        | [], _ =>
          constructor
          · intro h
            obtain ⟨x', y', hx, hy, hhex⟩ := h 0 rfl
            cases hx
            exact absurd hhex.1 (by decide)
          · rintro ⟨h, -⟩
            obtain ⟨x', y', hx, hy, hhex⟩ := h 0 rfl
            cases hx
      · rw [List.cons_append, escaped_cons hb, escaped_cons hb]
        exact ih s.length (by omega) s rfl

theorem escaped_concat (pieces : List Bytes) : Escaped (concat [47] pieces) ↔ ∀ piece ∈ pieces, Escaped piece := by
  induction pieces with
  | nil => exact ⟨fun _ => List.forall_mem_nil _, fun _ => escaped_nil⟩
  | cons piece pieces ih =>
    rw [List.forall_mem_cons]
    by_cases hpieces : pieces = []
    · subst hpieces
      exact ⟨fun h => ⟨h, List.forall_mem_nil _⟩, fun h => h.1⟩
    · rw [concat_cons_append [47] piece hpieces, List.append_assoc, ← ih]
      exact escaped_append piece _

theorem forall₂_spells {pieces : List Bytes} (h : ∀ piece ∈ pieces, ∃ text, Spells piece text) :
    ∃ texts, List.Forall₂ Spells pieces texts := by
  induction pieces with
  | nil => exact ⟨[], .nil⟩
  | cons piece pieces ih =>
    obtain ⟨⟨text, htext⟩, hrest⟩ := List.forall_mem_cons.mp h
    obtain ⟨texts, htexts⟩ := ih hrest
    exact ⟨text :: texts, .cons htext htexts⟩

theorem spelled_of_mem {pieces texts : List Bytes} (h : List.Forall₂ Spells pieces texts) :
    ∀ piece ∈ pieces, ∃ text ∈ texts, Spells piece text := by
  induction h with
  | nil => exact List.forall_mem_nil _
  | @cons _ text _ texts htext _ ih =>
    refine List.forall_mem_cons.mpr ⟨⟨text, List.mem_cons_self, htext⟩, fun piece hpiece => ?_⟩
    obtain ⟨text', hmem, htext'⟩ := ih piece hpiece
    exact ⟨text', List.mem_cons_of_mem text hmem, htext'⟩

theorem piece_of_mem {pieces texts : List Bytes} (h : List.Forall₂ Spells pieces texts) :
    ∀ text ∈ texts, ∃ piece ∈ pieces, Spells piece text := by
  induction h with
  | nil => exact List.forall_mem_nil _
  | @cons piece _ pieces _ htext _ ih =>
    refine List.forall_mem_cons.mpr ⟨⟨piece, List.mem_cons_self, htext⟩, fun text hmem => ?_⟩
    obtain ⟨piece', hpiece', htext'⟩ := ih text hmem
    exact ⟨piece', List.mem_cons_of_mem piece hpiece', htext'⟩

theorem segments_slash (s : Bytes) : segments (47 :: s) = segments_of 2 (s.splitOn 47) := if_pos rfl

theorem segments_start {path : Bytes} {segs : List Bytes} (h : segments path = .ok segs) : ∃ s, path = 47 :: s := by
  unfold segments at h
  split at h
  next hstart =>
    match path, hstart with
    | b :: s, hstart => exact ⟨s, by rw [(List.cons.inj hstart).1]; rfl⟩
  next => cases h

theorem segments_ok_iff (s : Bytes) (segs : List Bytes) : segments (47 :: s) = .ok segs ↔
    ∃ texts, List.Forall₂ Spells (s.splitOn 47) texts ∧ (∀ text ∈ texts, Allowed text) ∧ segs = answered texts := by
  rw [segments_slash, segments_of_ok_iff]

/-- The paths that are read. -/
theorem segments_joinable (path : Bytes) : (∃ segs, segments path = .ok segs) ↔ Joinable path := by
  constructor
  · rintro ⟨segs, h⟩
    obtain ⟨s, rfl⟩ := segments_start h
    obtain ⟨texts, htexts, hall, -⟩ := (segments_ok_iff s segs).mp h
    refine ⟨rfl, ?_, ?_⟩
    · rw [escaped_cons (by decide), ← concat_splitOn 47 s, escaped_concat]
      intro piece hpiece
      obtain ⟨text, -, htext⟩ := spelled_of_mem htexts piece hpiece
      exact (spells_iff piece).mp ⟨text, htext⟩
    · intro piece hpiece text htext
      obtain ⟨text', hmem, htext'⟩ := spelled_of_mem htexts piece hpiece
      rw [htext.unique htext']
      exact hall text' hmem
  · intro h
    obtain ⟨s, rfl⟩ : ∃ s, path = 47 :: s := by
      match path, h.start with
      | b :: s, hstart => exact ⟨s, by rw [some.inj hstart]⟩
    have hescaped := (escaped_cons (by decide)).mp h.escaped
    rw [← concat_splitOn 47 s, escaped_concat] at hescaped
    obtain ⟨texts, htexts⟩ := forall₂_spells fun piece hpiece => (spells_iff piece).mpr (hescaped piece hpiece)
    refine ⟨answered texts, (segments_ok_iff s _).mpr ⟨texts, htexts, ?_, rfl⟩⟩
    intro text htext
    obtain ⟨piece, hpiece, hspells⟩ := piece_of_mem htexts text htext
    exact h.allowed piece hpiece text hspells

/-- What a server that joins the segments relies on. -/
theorem segments_answered {path : Bytes} {segs : List Bytes} (h : segments path = .ok segs) :
    ∀ seg ∈ segs, Answered seg := by
  obtain ⟨s, rfl⟩ := segments_start h
  obtain ⟨texts, -, hall, rfl⟩ := (segments_ok_iff s segs).mp h
  intro seg hseg
  obtain ⟨hmem, hkept⟩ := List.mem_filter.mp hseg
  rw [Bool.and_eq_true, decide_eq_true_eq, decide_eq_true_eq] at hkept
  exact ⟨hall seg hmem, hkept.1, hkept.2⟩

/-- The escapes of segments, joined, are read as the segments. -/
theorem segments_joined {segs : List Bytes} (h : ∀ seg ∈ segs, Answered seg) :
    segments (lit "/" ++ concat (lit "/") (segs.map escape)) = .ok segs := by
  refine (segments_ok_iff _ _).mpr ?_
  by_cases hsegs : segs = []
  · subst hsegs
    exact ⟨[[]], .cons .done .nil, List.forall_mem_singleton.mpr allowed_nil, rfl⟩
  have hsplit : (concat [47] (segs.map escape)).splitOn 47 = segs.map escape := by
    refine splitOn_concat (by simpa using hsegs) fun piece hpiece => ?_
    obtain ⟨seg, -, rfl⟩ := List.mem_map.mp hpiece
    exact slash_not_mem_escape seg
  refine ⟨segs, ?_, fun seg hseg => (h seg hseg).allowed, (answered_eq h).symm⟩
  show List.Forall₂ Spells ((concat [47] (segs.map escape)).splitOn 47) segs
  rw [hsplit, List.forall₂_map_left_iff]
  exact List.forall₂_same.mpr fun seg _ => escape_spells seg

end Cosmic.Web.Url
