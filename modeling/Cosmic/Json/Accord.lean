/-
What the reader of RFC 8259 reads is well formed: its numbers are texts of numbers, and its strings are
UTF-8.
-/
import Cosmic.Json.Agree

set_option autoImplicit false

namespace Cosmic.Json

open Cosmic.Base List Except

/-- A scalar that a text of RFC 8259 may hold. -/
structure Sound (s : Val) : Prop where
  raw : ∀ t, s = .raw t → is_json_number t = true
  str : ∀ u, s = .str u → is_utf8 u = true
  num : ∀ n, s ≠ .num n

variable {s rest : Bytes}

theorem string_utf8 {u : Bytes} (h : Rfc.string s = some (u, rest)) : is_utf8 u = true := by
  obtain ⟨r, -, hr⟩ := Option.bind_eq_some_iff.mp h
  split_ifs at hr with hutf8
  cases hr
  exact hutf8

variable {v : Val}

theorem sound_scalar (h : Rfc.scalar s = some (v, rest)) : ∀ s' ∈ v.scalars, Sound s' := by
  unfold Rfc.scalar at h
  split_ifs at h
  · cases h
    exact fun s' hs' => by rw [mem_singleton.mp hs']; exact ⟨nofun, nofun, nofun⟩
  · cases h
    exact fun s' hs' => by rw [mem_singleton.mp hs']; exact ⟨nofun, nofun, nofun⟩
  · cases h
    exact fun s' hs' => by rw [mem_singleton.mp hs']; exact ⟨nofun, nofun, nofun⟩
  · split at h
    · obtain ⟨r, hr, heq⟩ := Option.map_eq_some_iff.mp h
      cases heq
      intro s' hs'
      rw [mem_singleton.mp hs']
      refine ⟨nofun, ?_, nofun⟩
      rintro u hu
      rw [← Val.str.inj hu]
      exact string_utf8 hr
    · unfold Rfc.number at h
      split_ifs at h with hjson
      cases h
      intro s' hs'
      rw [mem_singleton.mp hs']
      refine ⟨?_, nofun, nofun⟩
      rintro t ht
      rwa [← Val.raw.inj ht]

theorem sound_key {k : Key} (h : Rfc.key s = some (k, rest)) : Sound (.str k.text) := by
  unfold Rfc.key at h
  split at h
  · obtain ⟨r, hr, hcolon⟩ := Option.bind_eq_some_iff.mp h
    split at hcolon
    · cases hcolon
      refine ⟨nofun, ?_, nofun⟩
      rintro u hu
      rw [← Val.str.inj hu]
      exact string_utf8 hr
    · cases hcolon
  · cases h

theorem sound_value (n : ℕ) : (∀ s v rest, Rfc.value n s = some (v, rest) → ∀ s' ∈ v.scalars, Sound s') ∧
    (∀ s vs rest, Rfc.items n s = some (vs, rest) → ∀ s' ∈ scalars_items vs, Sound s') ∧
      ∀ s ms rest, Rfc.members n s = some (ms, rest) → ∀ s' ∈ scalars_members ms, Sound s' := by
  induction n with
  | zero =>
    refine ⟨fun s v rest h => ?_, fun s vs rest h => ?_, fun s ms rest h => ?_⟩
    · cases h
    · cases h
    · cases h
  | succ n ih =>
    obtain ⟨hvalue, hitems, hmembers⟩ := ih
    refine ⟨fun s v rest h => ?_, fun s vs rest h => ?_, fun s ms rest h => ?_⟩
    · unfold Rfc.value at h
      split at h
      · rename_i heq
        exact absurd heq (Nat.succ_ne_zero n)
      · rename_i n' s' heq
        cases heq
        split at h
        · cases h
          exact forall_mem_nil _
        · obtain ⟨r, hr, hr'⟩ := Option.map_eq_some_iff.mp h
          cases hr'
          exact hitems _ _ _ hr
      · rename_i n' s' heq
        cases heq
        split at h
        · cases h
          exact forall_mem_nil _
        · obtain ⟨r, hr, hr'⟩ := Option.map_eq_some_iff.mp h
          cases hr'
          exact hmembers _ _ _ hr
      · exact sound_scalar h
    · rw [Rfc.items] at h
      obtain ⟨r, hr, hmore⟩ := Option.bind_eq_some_iff.mp h
      split at hmore
      · obtain ⟨t, ht, heq⟩ := Option.map_eq_some_iff.mp hmore
        cases heq
        rw [scalars_items, forall_mem_append]
        exact ⟨hvalue _ _ _ hr, hitems _ _ _ ht⟩
      · cases hmore
        rw [scalars_items, scalars_items, append_nil]
        exact hvalue _ _ _ hr
      · cases hmore
    · rw [Rfc.members] at h
      obtain ⟨k, hk, hafter⟩ := Option.bind_eq_some_iff.mp h
      obtain ⟨r, hr, hmore⟩ := Option.bind_eq_some_iff.mp hafter
      split at hmore
      · obtain ⟨t, ht, heq⟩ := Option.map_eq_some_iff.mp hmore
        cases heq
        rw [scalars_members, forall_mem_cons, forall_mem_append]
        exact ⟨sound_key hk, hvalue _ _ _ hr, hmembers _ _ _ ht⟩
      · cases hmore
        rw [scalars_members, scalars_members, append_nil, forall_mem_cons]
        exact ⟨sound_key hk, hvalue _ _ _ hr⟩
      · cases hmore

theorem sound_text (h : Rfc.text s = some v) : ∀ s' ∈ v.scalars, Sound s' := by
  obtain ⟨r, hr, hend⟩ := Option.bind_eq_some_iff.mp h
  split_ifs at hend
  cases hend
  exact (sound_value _).1 _ _ _ hr

/-! ## Texts of a number's bytes -/

theorem text_of_number_bytes (hne : s ≠ []) (h : ∀ b ∈ s, Rfc.number_byte b = true) :
    Rfc.text s = if is_json_number s then some (.raw s) else none := by
  obtain ⟨b, t, rfl⟩ := exists_cons_of_ne_nil hne
  have hb := h b (mem_cons_self ..)
  have hother (c : UInt8) (hc : Rfc.number_byte c = false) : b ≠ c := by
    rintro rfl
    rw [hb] at hc
    cases hc
  have hskip : Rfc.skip (b :: t) = b :: t := by
    refine skip_head ?_ t
    simp [Rfc.space, hother 32 (by decide), hother 9 (by decide), hother 10 (by decide), hother 13 (by decide)]
  have htake : (b :: t).takeWhile Rfc.number_byte = b :: t := takeWhile_eq_self_iff.mpr h
  have hdrop : (b :: t).dropWhile Rfc.number_byte = [] := dropWhile_eq_nil_iff.mpr h
  have hnot (c : UInt8) (hc : Rfc.number_byte c = false) (w : Bytes) : ¬(c :: w).isPrefixOf (b :: t) = true := by
    rw [List.isPrefixOf_iff_prefix]
    exact fun hw => hother c hc (cons_prefix_cons.mp hw).1.symm
  have hnull : ¬(lit "null").isPrefixOf (b :: t) = true := hnot 110 (by decide) (lit "ull")
  have htrue : ¬(lit "true").isPrefixOf (b :: t) = true := hnot 116 (by decide) (lit "rue")
  have hfalse : ¬(lit "false").isPrefixOf (b :: t) = true := hnot 102 (by decide) (lit "alse")
  have hscalar : Rfc.scalar (b :: t) = if is_json_number (b :: t) then some (.raw (b :: t), []) else none := by
    rw [Rfc.scalar, if_neg hnull, if_neg htrue, if_neg hfalse]
    · rw [Rfc.number, htake, hdrop]
    · rintro s' heq
      exact hother 34 (by decide) (List.cons.inj heq).1
  rw [Rfc.text, hskip, value_scalar _ _ (hother 91 (by decide)) (hother 123 (by decide)), hscalar]
  split_ifs
  · rfl
  · rfl

theorem number_bytes_of_digits {ds : Bytes} (h : Digits ds) : ∀ b ∈ ds, Rfc.number_byte b = true := by
  intro b hb
  simp [Rfc.number_byte, h b hb]

theorem number_bytes_of_exponent (h : after_exponent s = some []) : ∀ b ∈ s, Rfc.number_byte b = true := by
  intro b hb
  rcases after_exponent_bytes h b hb with he | rfl | rfl | hdigit
  · rcases Bool.or_eq_true_iff.mp he with he | he
    · rw [of_decide_eq_true he]
      rfl
    · rw [of_decide_eq_true he]
      rfl
  · rfl
  · rfl
  · simp [Rfc.number_byte, hdigit]

theorem text_of_decimal5 (h : is_decimal5 s = true) :
    Rfc.text s = if is_json_number s then some (.raw s) else none := by
  have hbytes : ∀ b ∈ s, Rfc.number_byte b = true := by
    obtain ⟨sign, hs, hsign⟩ := after_sign_parts s
    have hparts : after_sign s = (after_sign s).takeWhile isDigit ++ (after_sign s).dropWhile isDigit :=
      takeWhile_append_dropWhile.symm
    unfold is_decimal5 at h
    rw [Bool.and_eq_true] at h
    have htail : ∀ b ∈ (after_sign s).dropWhile isDigit, Rfc.number_byte b = true := by
      have htail := h.2
      unfold is_tail5 at htail
      split at htail
      · rename_i t ht
        rw [Bool.and_eq_true, decide_eq_true_iff] at htail
        rw [ht, forall_mem_cons, ← takeWhile_append_dropWhile (p := isDigit) (l := t), forall_mem_append]
        exact ⟨rfl, number_bytes_of_digits (digits_takeWhile t), number_bytes_of_exponent htail.2⟩
      · rw [Bool.and_eq_true, decide_eq_true_iff] at htail
        exact number_bytes_of_exponent htail.2
    rw [hs, forall_mem_append, hparts, forall_mem_append]
    refine ⟨?_, number_bytes_of_digits (digits_takeWhile _), htail⟩
    rcases hsign with rfl | rfl | rfl
    · exact nofun
    · exact fun b hb => by rw [mem_singleton.mp hb]; rfl
    · exact fun b hb => by rw [mem_singleton.mp hb]; rfl
  refine text_of_number_bytes ?_ hbytes
  obtain ⟨sign, whole, frac, point, exponent, hfive⟩ := five_of_decimal5 h
  obtain ⟨b, t, hbody, -⟩ := hfive.body_head
  rintro rfl
  have hnil := (append_eq_nil_iff.mp hfive.text.symm).2
  rw [show whole ++ ((if point then 46 :: frac else []) ++ exponent) = b :: t from hbody] at hnil
  exact cons_ne_nil _ _ hnil

/-!
That `decode`, `check` and `format` agree, gathered; with a reader and a writer of numbers that the
assumptions hold of, in which 1e400 is past a double's range.

RFC 8259 refuses such a number, so what `format` writes of one from JSON5 reads as JSON5 alone.
-/

/-! ## A reader and a writer -/

def wide_digits (f : Double) : Decimal :=
  if f = one then ⟨false, [49], 1⟩
  else ⟨f.negative, tostring (10 * (f.bits.toNat % 2 ^ 52) + 3), f.exponent - 2000⟩

/-- The double of a number: an infinity past the range. -/
def wide_double (d : Decimal) : Double :=
  if d.digits = [] then .zero
  else if 309 < d.point then ⟨0x7ff0000000000000⟩
  else if d = ⟨false, [49], 1⟩ then one
  else
    ⟨UInt64.ofNat ((if d.negative then 2 ^ 63 else 0) + (d.point + 2000).toNat * 2 ^ 52 + digits_value 10 d.digits / 10)⟩

/-- A number, none being held as an integer. -/
def wide_number (_ : Bool) (d : Decimal) : Number := .real (wide_double d)

def wide_scalar : Val → Val
  | .raw t => .num (.real (wide_double (decimal_of t)))
  | v => v

/-- Whether a scalar is in a double's range. -/
def wide_finite : Val → Bool
  | .raw t => (wide_double (decimal_of t)).isfinite
  | _ => true

def wide_read (flags : Flags) (s : Bytes) : Except ReadErr Val :=
  if flags.json5 && is_decimal5 s then
    if flags.number_as_raw then .ok (.raw s) else .ok (.num (.real (wide_double (decimal5_of s))))
  else
    (Rfc.text s).elim (.error ⟨.other, 0, []⟩) fun v =>
      if flags.number_as_raw then .ok v
      else if flags.json5 || v.scalars.all wide_finite then .ok (v.over wide_scalar)
      else .error ⟨.other, 0, lit "number is infinity"⟩

def wide : Yyjson where
  read := wide_read
  write_number
    | .real f => if f.isfinite then some (number_to_string (wide_digits f)) else none
    | _ => none
  of_integer _ := .zero

theorem scalar_wide : Scalar wide_scalar := by
  refine ⟨fun s h => ?_, fun s => rfl⟩
  cases s with
  | raw t => rfl
  | _ => exact h

theorem wide_normal (f : Double) : Normal (wide_digits f) := by
  unfold wide_digits
  split_ifs with hone
  · exact ⟨by decide, fun b hb => by rw [mem_singleton.mp hb]; rfl, by decide, by decide⟩
  · obtain ⟨hdigits, hfirst, hlast⟩ := normal_digits (f.bits.toNat % 2 ^ 52)
    exact ⟨tostring_ne_nil _, hdigits, hfirst, hlast⟩

theorem wide_double_digits {f : Double} : wide_double (wide_digits f) = f := by
  have hexponent : f.exponent < 2048 := Nat.mod_lt _ (by decide)
  unfold wide_digits
  split_ifs with hone
  · rw [hone]
    decide
  have hne : (⟨f.negative, tostring (10 * (f.bits.toNat % 2 ^ 52) + 3), f.exponent - 2000⟩ : Decimal) ≠
      ⟨false, [49], 1⟩ := by
    intro heq
    have hdigits : tostring (10 * (f.bits.toNat % 2 ^ 52) + 3) = tostring 1 := (Decimal.mk.inj heq).2.1
    have hvalue := tostring_inj hdigits
    omega
  unfold wide_double
  rw [if_neg (tostring_ne_nil _), if_neg (by dsimp only; omega), if_neg hne]
  rw [digits_value_tostring, show ((f.exponent : ℤ) - 2000 + 2000).toNat = f.exponent by omega,
    show (10 * (f.bits.toNat % 2 ^ 52) + 3) / 10 = f.bits.toNat % 2 ^ 52 by omega, bits_parts, UInt64.ofNat_toNat]

variable {flags : Flags} {t : Bytes}

theorem wide_read_number (hvalued : flags.valued) (h : flags.has t) : wide_read flags t =
      if flags.json5 || (wide_double (decimal5_of t)).isfinite then .ok (.num (.real (wide_double (decimal5_of t))))
      else .error ⟨.other, 0, lit "number is infinity"⟩ := by
  unfold wide_read
  by_cases hfive : flags.json5 && is_decimal5 t
  · have hflag : flags.json5 = true := (Bool.and_eq_true _ _ |>.mp hfive).1
    rw [if_pos hfive, if_neg (by rw [hvalued.1]; exact Bool.false_ne_true), hflag, Bool.true_or, if_pos rfl]
  · have hjson : is_json_number t = true := h.resolve_right fun hother => hfive (by rw [hother.1, hother.2]; rfl)
    rw [if_neg hfive, (reads_number hjson).text, Option.elim_some, unplus_json hjson]
    rw [if_neg (by rw [hvalued.1]; exact Bool.false_ne_true)]
    simp only [Val.scalars, all_cons, all_nil, Bool.and_true, wide_finite]
    rfl

theorem wide_read_text (hvalued : flags.valued) (h : Rfc.text s = some v)
    (hrange : flags.json5 = true ∨ v.scalars.all wide_finite = true) :
    wide_read flags s = .ok (v.over wide_scalar) := by
  unfold wide_read
  by_cases hfive : flags.json5 && is_decimal5 s
  · have hdecimal := text_of_decimal5 (Bool.and_eq_true _ _ |>.mp hfive).2
    rw [if_pos hfive, if_neg (by rw [hvalued.1]; exact Bool.false_ne_true)]
    rw [h] at hdecimal
    split_ifs at hdecimal with hjson
    rw [Option.some.inj hdecimal, unplus_json hjson]
    rfl
  · rw [if_neg hfive, h, Option.elim_some, if_neg (by rw [hvalued.1]; exact Bool.false_ne_true), if_pos]
    rwa [Bool.or_eq_true]

theorem wide_read_raw (hraw : flags.number_as_raw = true) (h : Rfc.text s = some v) : wide_read flags s = .ok v := by
  unfold wide_read
  by_cases hfive : flags.json5 && is_decimal5 s
  · have hdecimal := text_of_decimal5 (Bool.and_eq_true _ _ |>.mp hfive).2
    rw [if_pos hfive, if_pos hraw]
    rw [h] at hdecimal
    split_ifs at hdecimal
    rw [Option.some.inj hdecimal]
  · rw [if_neg hfive, h, Option.elim_some, if_pos hraw]

theorem wide_read_cases {root : Val} (hvalued : flags.valued) (h : wide_read flags s = .ok root) :
    (flags.json5 = true ∧ is_decimal5 s = true ∧ root = .num (.real (wide_double (decimal5_of s)))) ∨
      ∃ v, Rfc.text s = some v ∧ (flags.json5 = true ∨ v.scalars.all wide_finite = true) ∧
        root = v.over wide_scalar := by
  have hraw : ¬flags.number_as_raw = true := by
    rw [hvalued.1]
    exact Bool.false_ne_true
  unfold wide_read at h
  by_cases hfive : flags.json5 && is_decimal5 s
  · obtain ⟨hflag, hdecimal⟩ := Bool.and_eq_true _ _ |>.mp hfive
    rw [if_pos hfive, if_neg hraw] at h
    exact .inl ⟨hflag, hdecimal, (ok.inj h).symm⟩
  · rw [if_neg hfive] at h
    rcases htext : Rfc.text s with _ | v
    · rw [htext] at h
      cases h
    · rw [htext, Option.elim_some, if_neg hraw] at h
      split_ifs at h with hrange
      rw [Bool.or_eq_true] at hrange
      exact .inr ⟨v, rfl, hrange, (ok.inj h).symm⟩

theorem wide_read_num {n : Number} (hvalued : flags.valued) (h : wide_read flags t = .ok (.num n)) :
    ∃ f, n = .real f := by
  rcases wide_read_cases hvalued h with ⟨-, -, hn⟩ | ⟨v, htext, -, hv⟩
  · exact ⟨_, Val.num.inj hn⟩
  · cases v with
    | raw t' => exact ⟨_, Val.num.inj hv⟩
    | num n' => exact absurd rfl ((sound_text htext _ (mem_singleton_self _)).num n')
    | _ => cases hv

theorem wide_number_eq (hvalued : flags.valued) (hjson : is_json_number t = true) (hmem : .raw t ∈ v.scalars)
    (hrange : flags.json5 = true ∨ v.scalars.all wide_finite = true) :
    wide_read flags t = .ok (wide_scalar (.raw t)) := by
  rw [wide_read_number hvalued (.inl hjson), unplus_json hjson, if_pos]
  · rfl
  rw [Bool.or_eq_true]
  refine hrange.imp_right fun hall => ?_
  exact all_eq_true.mp hall (.raw t) hmem

theorem wide_over (hvalued : flags.valued) (htext : Rfc.text s = some v)
    (hrange : flags.json5 = true ∨ v.scalars.all wide_finite = true) :
    v.over wide_scalar = v.over (wide.number flags) := by
  refine over_congr v fun s' hs' => ?_
  cases s' with
  | raw t =>
    exact (number_raw (wide_number_eq hvalued ((sound_text htext _ hs').raw t rfl) hs' hrange)).symm
  | _ => rfl

theorem wide_reader : Reader wide := by
  constructor
  · intro flags s v hraw hbig htext hnumbers
    have hrange : flags.json5 = true ∨ v.scalars.all wide_finite = true := by
      by_cases hflag : flags.json5 = true
      · exact .inl hflag
      right
      rw [all_eq_true]
      intro s' hs'
      cases s' with
      | raw t =>
        obtain ⟨hjson, n, hn⟩ := hnumbers t hs'
        have hread : wide_read flags t = .ok (.num n) := hn
        rw [wide_read_number ⟨hraw, hbig⟩ (.inl hjson), unplus_json hjson] at hread
        split_ifs at hread with hfinite
        rw [Bool.or_eq_true] at hfinite
        exact hfinite.resolve_left hflag
      | _ => rfl
    refine ⟨v.over wide_scalar, wide_read_text ⟨hraw, hbig⟩ htext hrange, ?_⟩
    rw [plain_eq_over, over_over scalar_wide, ← wide_over ⟨hraw, hbig⟩ htext hrange]
    rfl
  · intro flags s root hraw hbig hread t ht
    rcases wide_read_cases ⟨hraw, hbig⟩ hread with ⟨-, -, rfl⟩ | ⟨v, -, -, rfl⟩
    · exact absurd (mem_singleton.mp ht) (by simp)
    · rw [scalars_over scalar_wide] at ht
      obtain ⟨s', -, hs'⟩ := mem_map.mp ht
      cases s' with
      | raw t' => cases hs'
      | _ => cases hs'

theorem wide_grammar : Grammar wide wide_number := by
  refine ⟨wide_reader, ?_, ?_, ?_, ?_, ?_, ?_, ?_⟩
  · intro flags s v hraw htext
    exact ⟨v, wide_read_raw hraw htext, rfl⟩
  · intro flags s root hvalued hread
    rcases wide_read_cases hvalued hread with ⟨hflag, hdecimal, rfl⟩ | ⟨v, htext, hrange, rfl⟩
    · have hnum : wide_read flags s = .ok (.num (.real (wide_double (decimal5_of s)))) := hread
      refine ⟨.raw s, ?_, (number_raw hnum).symm, fun t ht => ?_⟩
      · show wide_read flags.as_raw s = _
        unfold wide_read
        rw [if_pos (by rw [show flags.as_raw.json5 = flags.json5 from rfl, hflag, hdecimal]; rfl)]
        rfl
      · obtain rfl := Val.raw.inj (mem_singleton.mp ht)
        exact ⟨_, hnum⟩
    · refine ⟨v, wide_read_raw rfl htext, ?_, fun t ht => ?_⟩
      · rw [plain_eq_over, over_over scalar_wide, ← wide_over hvalued htext hrange]
        rfl
      · exact ⟨_, wide_number_eq hvalued ((sound_text htext _ ht).raw t rfl) ht hrange⟩
  · intro flags s raw hraw hread
    have hread' : wide_read flags s = .ok raw := hread
    unfold wide_read at hread'
    by_cases hfive : flags.json5 && is_decimal5 s
    · rw [if_pos hfive, if_pos hraw] at hread'
      rw [← ok.inj hread']
      refine ⟨fun n hn => absurd (mem_singleton.mp hn) (by simp),
        fun u hu => absurd (mem_singleton.mp hu) (by simp), fun t ht => ?_⟩
      obtain rfl := Val.raw.inj (mem_singleton.mp ht)
      exact .inl (.inr (Bool.and_eq_true _ _ |>.mp hfive))
    · rw [if_neg hfive] at hread'
      rcases htext : Rfc.text s with _ | v
      · rw [htext] at hread'
        cases hread'
      · rw [htext, Option.elim_some, if_pos hraw] at hread'
        cases hread'
        have hsound := sound_text htext
        exact ⟨fun n hn => (hsound _ hn).num n rfl, fun u hu => (hsound _ hu).str u rfl,
          fun t ht => .inl (.inl ((hsound _ ht).raw t rfl))⟩
  · intro flags t n hvalued hhas
    show wide_read flags t = .ok (.num n) ↔ _
    rw [wide_read_number hvalued hhas]
    split_ifs with hrange
    · rw [Bool.or_eq_true] at hrange
      constructor
      · intro heq
        obtain rfl := Val.num.inj (ok.inj heq)
        exact ⟨rfl, hrange⟩
      · rintro ⟨rfl, -⟩
        rfl
    · rw [Bool.or_eq_true] at hrange
      refine iff_of_false (by simp) ?_
      rintro ⟨rfl, hrange'⟩
      exact hrange hrange'
  · intro flags flags' t hvalued hvalued' hflag hflag' _
    show wide_read flags t = wide_read flags' t
    unfold wide_read
    rw [hflag, hflag', hvalued.1, hvalued'.1]
  · intro flags t n hvalued hread hfinite
    obtain ⟨f, rfl⟩ := wide_read_num hvalued hread
    have hfinite' : f.isfinite = true := hfinite
    refine ⟨number_to_string (wide_digits f), if_pos hfinite', fun flags' hvalued' => ?_⟩
    have hjson := number_to_string_json (wide_normal f)
    have hdecimal : decimal5_of (number_to_string (wide_digits f)) = wide_digits f := by
      rw [unplus_json hjson, decimal_number_to_string (wide_normal f)]
    refine ⟨.real f, ?_, .inl rfl⟩
    show wide_read flags' _ = _
    rw [wide_read_number hvalued' (.inl hjson), hdecimal, wide_double_digits, hfinite', Bool.or_true, if_pos rfl]
  · intro n text h
    cases n with
    | real f =>
      have h' : (if f.isfinite then some (number_to_string (wide_digits f)) else none) = some text := h
      split_ifs at h'
      rw [← Option.some.inj h']
      exact number_to_string_json (wide_normal f)
    | uint n => cases h
    | sint n => cases h

/-! ## The three agree -/

/-- `check` answers as `decode` does, `format` fails as `decode` does, and what `format` writes decodes to the
value the text does, its members in the text's order, and is written again as it is: read with json5 as given,
or as RFC 8259 when no number is past a double's range. Else only such a number, or none at all, is refused. -/
theorem decode_check_format {y : Yyjson} {number : Bool → Decimal → Number} (hy : Grammar y number) :
    (∀ o null big text, (json_check y o big text).isOk = (json_decode y o null big text).isOk ∧
      ∀ message, json_check y o big text = .error message ↔ json_decode y o null big text = .error message) ∧
    (∀ (d : Decoding) depth v,
      first_problem d.max_depth d.duplicate_keys depth v = found_of (push_value y d depth v)) ∧
    (∀ o null pretty text message, json_decode y o null false text = .error message →
      json_format y o pretty false text = .error message) ∧
    (∀ (o o' : Options) pretty text out, json_format y o pretty false text = .ok out →
      o.max_depth.n ≤ o'.max_depth.n → o'.duplicate_keys = o.duplicate_keys → (o'.json5 = true ∨ InRange y o text) →
          (∀ null, ∃ x, json_decode y o null false text = .ok x ∧ json_decode y o' null false out = .ok x) ∧
            json_format y o' pretty false out = .ok out) ∧
    (∀ (o : Options) text, o.json5 = false → InRange y o text) ∧
    (∀ o pretty text out doc, read_text y o.reading text = .ok doc → json_format y o pretty false text = .ok out →
      ∃ w, Rfc.text out = some w ∧ outline w = outline doc.root) ∧
    ∀ o null pretty text x message, json_decode y o null false text = .ok x →
      json_format y o pretty false text = .error message →
        ∃ doc n, read_text y o.reading text = .ok doc ∧ .num n ∈ doc.root.scalars ∧
          (y.get_num n).isfinite = false := by
  refine ⟨check_decode y, fun d depth v => first_problem_eq depth v, ?_, ?_, fun o text h => inRange_of_rfc hy h text,
    fun o pretty text out doc hread h => format_outline hy hread h, ?_⟩
  · intro o null pretty text message h
    exact format_of_refused (decode_error h) pretty
  · intro o o' pretty text out h hdepth hdup hrange
    exact ⟨format_decode hy h hdepth hdup hrange, format_again hy h hdepth hdup hrange⟩
  · intro o null pretty text x message hdecode h
    rcases hread : read_text y o.reading text with message' | doc
    · have hcheck : json_check y o false text = .error message' := by rw [check_read_text, hread]; rfl
      rw [((check_decode y o null false text).2 message').mp hcheck] at hdecode
      cases hdecode
    · obtain ⟨n, hn, hfinite⟩ := format_refuses hy hread h
      exact ⟨doc, n, rfl, hn, hfinite⟩

/-- A number past a double's range is written as it is, and reads as JSON5. -/
theorem decode_check_format_wide : json_format wide { json5 := true } false false (lit "+1e400") = .ok (lit "1e400") ∧
      json_format wide { json5 := true } false false (lit "1e400") = .ok (lit "1e400") ∧
        ∃ x, json_decode wide { json5 := true } none false (lit "+1e400") = .ok x ∧
          json_decode wide { json5 := true } none false (lit "1e400") = .ok x := by
  have hformat : json_format wide { json5 := true } false false (lit "+1e400") = .ok (lit "1e400") := by
    decide +kernel
  obtain ⟨-, -, -, hall, -⟩ := decode_check_format wide_grammar
  obtain ⟨hdecode, hagain⟩ := hall { json5 := true } { json5 := true } _ _ _ hformat le_rfl rfl (.inl rfl)
  exact ⟨hformat, hagain, hdecode none⟩

/-- As RFC 8259 what `format` writes of such a number does not decode. -/
theorem format_past_range : ¬∀ (y : Yyjson) (number : Bool → Decimal → Number), Grammar y number →
    ∀ (o : Options) pretty text out null, json_format y o pretty false text = .ok out →
      json_decode y { o with json5 := false } null false out = json_decode y o null false text := by
  intro hall
  have hformat : json_format wide { json5 := true } false false (lit "1e400") = .ok (lit "1e400") := by
    decide +kernel
  have hsame := hall wide wide_number wide_grammar { json5 := true } false (lit "1e400") (lit "1e400") none hformat
  have hrfc : (json_decode wide { json5 := false } none false (lit "1e400")).isOk = false := by decide +kernel
  have hfive : (json_decode wide { json5 := true } none false (lit "1e400")).isOk = true := by decide +kernel
  rw [← hsame] at hfive
  exact Bool.false_ne_true (hrfc.symm.trans hfive)

end Cosmic.Json
