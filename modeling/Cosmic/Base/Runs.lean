/-
Runs of records that say themselves where they end.

A text is read as a run of records, one after another from its start. Where a record's end is known
from its front, as a length written first makes it, no two records begin the same text, so the
records of the longest run are known, and a reader that takes one record at a time takes them in
their order.
-/
import Mathlib.Data.List.Basic

set_option autoImplicit false

namespace Cosmic.Base.Runs

open List

variable {β : Type} {R : List β → Prop}

/-- Records that are not empty and whose end is known from their front. -/
structure Delimited (R : List β → Prop) : Prop where
  ne_nil : ∀ {r}, R r → r ≠ []
  unique : ∀ {r r' s}, R r → R r' → r <+: s → r' <+: s → r = r'

/-- The records `rs` stand one after another at the start of `s`. -/
structure Run (R : List β → Prop) (rs : List (List β)) (s : List β) : Prop where
  records : ∀ r ∈ rs, R r
  starts : rs.flatten <+: s

/-- No run of `s` reaches further than `rs`. -/
structure Longest (R : List β → Prop) (rs : List (List β)) (s : List β) : Prop extends Run R rs s where
  most : ∀ rs', Run R rs' s → rs'.flatten.length ≤ rs.flatten.length

/-! ## One record more -/

theorem Run.nil (R : List β → Prop) (s : List β) : Run R [] s where
  records _ h := absurd h not_mem_nil
  starts := nil_prefix

variable {r s : List β} {rs : List (List β)}

theorem Run.cons (hr : R r) (h : Run R rs s) : Run R (r :: rs) (r ++ s) where
  records := forall_mem_cons.mpr ⟨hr, h.records⟩
  starts := by
    rw [flatten_cons]
    exact (prefix_append_right_inj r).mpr h.starts

theorem Run.of_cons (hR : Delimited R) (hr : R r) (h : Run R rs (r ++ s)) :
    rs = [] ∨ ∃ rs', rs = r :: rs' ∧ Run R rs' s := by
  cases rs with
  | nil => exact .inl rfl
  | cons r' rs' =>
    obtain ⟨hr', hrs'⟩ := forall_mem_cons.mp h.records
    have hstarts := h.starts
    have heq : r' = r := hR.unique hr' hr ((prefix_append _ _).trans hstarts) (prefix_append _ _)
    rw [heq] at hstarts ⊢
    exact .inr ⟨rs', rfl, hrs', (prefix_append_right_inj r).mp hstarts⟩

theorem Longest.nil (h : ∀ r, R r → ¬r <+: s) : Longest R [] s where
  toRun := Run.nil R s
  most rs' h' := by
    cases rs' with
    | nil => exact Nat.le_refl _
    | cons r rs' =>
      have hstarts := h'.starts
      exact absurd ((prefix_append _ _).trans hstarts) (h r (h'.records r mem_cons_self))

theorem Longest.cons (hR : Delimited R) (hr : R r) (h : Longest R rs s) : Longest R (r :: rs) (r ++ s) where
  toRun := h.toRun.cons hr
  most rs' h' := by
    rcases h'.of_cons hR hr with rfl | ⟨rs'', rfl, h''⟩
    · exact Nat.zero_le _
    · have := h.most rs'' h''
      rw [flatten_cons, flatten_cons, length_append, length_append]
      omega

theorem Longest.tail (hr : R r) (h : Longest R (r :: rs) (r ++ s)) (hrun : Run R rs s) : Longest R rs s where
  toRun := hrun
  most rs' h' := by
    have := h.most _ (h'.cons hr)
    rw [flatten_cons, flatten_cons, length_append, length_append] at this
    omega

/-! ## The longest run -/

theorem exists_longest (hR : Delimited R) (s : List β) :
    ∃ rs rest, s = rs.flatten ++ rest ∧ Longest R rs s ∧ ∀ r, R r → ¬r <+: rest := by
  by_cases hs : ∃ r, R r ∧ r <+: s
  · obtain ⟨r, hr, t, rfl⟩ := hs
    have hlt : t.length < (r ++ t).length := by
      have := length_pos_of_ne_nil (hR.ne_nil hr)
      rw [length_append]
      omega
    obtain ⟨rs, rest, heq, hlongest, hrest⟩ := exists_longest hR t
    refine ⟨r :: rs, rest, ?_, hlongest.cons hR hr, hrest⟩
    rw [flatten_cons, append_assoc, ← heq]
  · have hnone : ∀ r, R r → ¬r <+: s := fun r hr hstarts => hs ⟨r, hr, hstarts⟩
    exact ⟨[], s, rfl, Longest.nil hnone, hnone⟩
termination_by s.length

theorem Longest.unique (hR : Delimited R) {rs' : List (List β)} (h : Longest R rs s) (h' : Longest R rs' s) :
    rs = rs' := by
  induction rs generalizing rs' s with
  | nil =>
    cases rs' with
    | nil => rfl
    | cons r' rs' =>
      have hmost := h.most _ h'.toRun
      have hpos := length_pos_of_ne_nil (hR.ne_nil (h'.records r' mem_cons_self))
      rw [flatten_cons, length_append, flatten_nil, length_nil] at hmost
      omega
  | cons r rs ih =>
    obtain ⟨hr, hrs⟩ := forall_mem_cons.mp h.records
    obtain ⟨t, ht⟩ := h.starts
    rw [flatten_cons, append_assoc] at ht
    subst ht
    rcases h'.toRun.of_cons hR hr with rfl | ⟨rs'', rfl, h''⟩
    · have hmost := h'.most _ h.toRun
      have hpos := length_pos_of_ne_nil (hR.ne_nil hr)
      rw [flatten_cons, length_append, flatten_nil, length_nil] at hmost
      omega
    · rw [ih (h.tail hr ⟨hrs, prefix_append _ _⟩) (h'.tail hr h'')]

theorem Run.length_le (hR : Delimited R) (h : Run R rs s) : rs.length ≤ s.length := by
  have hcount : rs.length ≤ rs.flatten.length := by
    have hrecords := h.records
    clear h
    induction rs with
    | nil => exact Nat.le_refl _
    | cons r rs ih =>
      obtain ⟨hr, hrs⟩ := forall_mem_cons.mp hrecords
      have hpos := length_pos_of_ne_nil (hR.ne_nil hr)
      have := ih hrs
      rw [flatten_cons, length_append, length_cons]
      omega
  exact Nat.le_trans hcount h.starts.length_le

end Cosmic.Base.Runs
