/-
The canonical form is canonical: two texts have the same one exactly when they hold the same value, and
it is its own.

What is relied on of yyjson is stated here: that it reads a text of RFC 8259 as the grammar says, each
number as it would alone, and that the digits it writes of a double are the shortest that it reads as
the double again.
-/
import Cosmic.Json.Meaning

set_option autoImplicit false

namespace Cosmic.Json

open Cosmic.Base List

/-! ## What is relied on -/

/-- The number that a text of one reads as, alone. -/
def Yyjson.number (y : Yyjson) (flags : Flags) : Val → Val
  | .raw text =>
    match y.read flags text with
    | .ok (.num n) => .num n
    | _ => .raw text
  | v => v

structure Reader (y : Yyjson) : Prop where
  /-- A text is read as the grammar says, each number as it is alone. -/
  whole : ∀ flags s v, flags.number_as_raw = false → flags.bignum_as_raw = false → Rfc.text s = some v →
    (∀ t, .raw t ∈ v.scalars → is_json_number t = true ∧ ∃ n, y.read flags t = .ok (.num n)) →
      ∃ root, y.read flags s = .ok root ∧ root.plain = v.over (y.number flags)
  /-- No number is kept as its text unless that is asked for. -/
  not_raw : ∀ flags s root, flags.number_as_raw = false → flags.bignum_as_raw = false →
    y.read flags s = .ok root → ∀ t, .raw t ∉ root.scalars

/-- A writer and a reader of doubles: `shortest` has the digits written of one, and `nearest` is the double
that a number is read as. -/
structure Doubles (y : Yyjson) (shortest : Double → Decimal) (nearest : Decimal → Double) : Prop where
  json : ∀ n t, y.write_number n = some t → is_json_number t = true
  writes : ∀ f, f.isfinite = true → f.is_zero = false →
    ∃ t, y.write_number (.real f) = some t ∧ decimal_of t = shortest f
  ne : ∀ f, f.isfinite = true → f.is_zero = false → (shortest f).digits ≠ []
  length : ∀ f, f.isfinite = true → f.is_zero = false → (shortest f).digits.length ≤ 17
  sign : ∀ f, f.isfinite = true → f.is_zero = false → (shortest f).negative = f.negative
  nearest_shortest : ∀ f, f.isfinite = true → f.is_zero = false → nearest (shortest f) = f
  nearest_zero : ∀ d, d.digits = [] → (nearest d).is_zero = true
  reads : ∀ flags t, flags.number_as_raw = false → flags.bignum_as_raw = false → is_json_number t = true →
    (nearest (decimal_of t)).isfinite = true →
      ∃ n, y.read flags t = .ok (.num n) ∧ (y.get_num n).unsigned = (nearest (decimal_of t)).unsigned

variable {t : Bytes}

theorem number_raw {y : Yyjson} {flags : Flags} {n : Number} (h : y.read flags t = .ok (.num n)) :
    y.number flags (.raw t) = .num n := by
  rw [Yyjson.number, h]

theorem scalar_number (y : Yyjson) (flags : Flags) : Scalar (y.number flags) := by
  refine ⟨fun s h => ?_, fun s => rfl⟩
  cases s with
  | raw t =>
    rw [Yyjson.number]
    split <;> rfl
  | _ => exact h

/-! ## Doubles -/

variable {f : Double}

theorem isfinite_of_zero (h : f.is_zero = true) : f.isfinite = true := by
  unfold Double.is_zero at h
  unfold Double.isfinite Double.exponent
  rw [decide_eq_true_iff] at h ⊢
  omega

theorem isfinite_unsigned (f : Double) : f.unsigned.isfinite = f.isfinite := by
  unfold Double.unsigned
  split_ifs with hzero
  · rw [isfinite_of_zero hzero]
    rfl
  · rfl

variable {y : Yyjson} {shortest : Double → Decimal} {nearest : Decimal → Double}

def canonical_text (shortest : Double → Decimal) (f : Double) : Bytes :=
  if f.is_zero then [48] else number_to_string (shortest f)

theorem Doubles.put (h : Doubles y shortest nearest) (hfinite : f.isfinite = true) :
    put_canonical_number y f = .ok (canonical_text shortest f) := by
  unfold canonical_text
  by_cases hzero : f.is_zero = true
  · rw [put_canonical_number, if_pos hzero, if_pos hzero]
  rw [Bool.not_eq_true] at hzero
  obtain ⟨t, hwrite, hdecimal⟩ := h.writes f hfinite hzero
  have hlength := h.length f hfinite hzero
  rw [if_neg (by rw [hzero]; exact Bool.false_ne_true), ← hdecimal]
  refine put_canonical_number_eq hzero hwrite (h.json _ _ hwrite) ?_ ?_ ?_
  · rw [hdecimal]
    exact h.ne f hfinite hzero
  · rw [hdecimal]
    exact hlength.trans (by decide)
  · rw [hdecimal]
    exact h.sign f hfinite hzero

theorem Doubles.normal (h : Doubles y shortest nearest) (hfinite : f.isfinite = true) (hzero : f.is_zero = false) :
    Normal (shortest f) := by
  obtain ⟨t, hwrite, hdecimal⟩ := h.writes f hfinite hzero
  rw [← hdecimal]
  refine normal_decimal_of (h.json _ _ hwrite) ?_
  rw [hdecimal]
  exact h.ne f hfinite hzero

theorem Doubles.text_json (h : Doubles y shortest nearest) (hfinite : f.isfinite = true) :
    is_json_number (canonical_text shortest f) = true := by
  unfold canonical_text
  split_ifs with hzero
  · rfl
  · rw [Bool.not_eq_true] at hzero
    exact number_to_string_json (h.normal hfinite hzero)

theorem Doubles.text_nearest (h : Doubles y shortest nearest) (hfinite : f.isfinite = true) :
    (nearest (decimal_of (canonical_text shortest f))).unsigned = f.unsigned := by
  unfold canonical_text
  split_ifs with hzero
  · have hnearest : (nearest (decimal_of [48])).is_zero = true := h.nearest_zero _ (by decide +kernel)
    rw [Double.unsigned, Double.unsigned, if_pos hnearest, if_pos hzero]
  · rw [Bool.not_eq_true] at hzero
    rw [decimal_number_to_string (h.normal hfinite hzero), h.nearest_shortest f hfinite hzero]

theorem Doubles.numeral (h : Doubles y shortest nearest) (s : Val) : Numeral y s := by
  constructor
  · intro s out _ hout
    unfold put_raw_number at hout
    dsimp only at hout
    split_ifs at hout with hjson hjson'
    · rwa [← Except.ok.inj hout]
    · rwa [← Except.ok.inj hout]
    rcases hread : y.read { json5 := true, hash_comments := false } s with err | v
    · rw [hread] at hout
      dsimp only at hout
      split_ifs at hout
    rw [hread] at hout
    cases v with
    | num n =>
      dsimp only at hout
      split_ifs at hout
      rcases hwrite : y.write_number n with _ | t
      · rw [hwrite] at hout
        cases hout
      · rw [hwrite] at hout
        rw [← Except.ok.inj hout]
        exact h.json n t hwrite
    | _ => cases hout
  · intro n out _ hout
    have hfinite : (y.get_num n).isfinite = true := finite_of_writes ⟨out, hout⟩
    rw [put_number_finite hfinite, h.put hfinite] at hout
    rw [← Except.ok.inj hout]
    exact h.text_json hfinite

/-! ## Texts that `canonical` accepts -/

/-- What a text holds, if `canonical` reads it. -/
def held (y : Yyjson) (nearest : Decimal → Double) (o : Options) (text : Bytes) : Option Meaning :=
  (read_text y { o with duplicate_keys := false }.reading text).toOption.map fun doc => meaning y nearest doc.root

/-- `root` is a document that `canonical` reads and writes. -/
structure Canonical (y : Yyjson) (max_depth : ℕ) (root : Val) : Prop where
  clear : Clear max_depth false 0 root
  plain : ∀ s ∈ root.scalars, Plain y s

variable {root : Val}

theorem Canonical.distinct {max_depth : ℕ} (h : Canonical y max_depth root) : Distinct root := ⟨_, _, h.clear⟩

variable {r : Reading} {text : Bytes}

theorem read_doc_read {doc : Doc} (h : read_doc y r text = .ok doc) : y.read r.flags doc.text = .ok doc.root := by
  unfold read_doc at h
  rcases hread : y.read r.flags text with err | root
  · rw [hread] at h
    dsimp only at h
    split_ifs at h
    rcases hcopy : y.read r.flags (repair_surrogates text.length text).1 with err' | root
    · rw [hcopy] at h
      cases h
    · rw [hcopy] at h
      rwa [← Except.ok.inj h]
  · rw [hread] at h
    rwa [← Except.ok.inj h]

theorem read_text_ok {doc : Doc} (h : read_text y r text = .ok doc) :
    read_doc y r text = .ok doc ∧ Clear r.max_depth.n r.duplicate_keys 0 doc.root := by
  unfold read_text at h
  rcases hdoc : read_doc y r text with message | doc'
  · rw [hdoc] at h
    cases h
  rw [hdoc] at h
  dsimp only at h
  rcases hfirst : first_problem r.max_depth.n r.duplicate_keys 0 doc'.root with _ | found
  · rw [hfirst] at h
    rw [← Except.ok.inj h]
    exact ⟨rfl, (first_problem_none 0 doc'.root).mp hfirst⟩
  · rw [hfirst] at h
    cases h

theorem read_text_of_read (h : y.read r.flags text = .ok root)
    (hclear : Clear r.max_depth.n r.duplicate_keys 0 root) : read_text y r text = .ok ⟨text, root⟩ := by
  unfold read_text read_doc
  rw [h]
  dsimp only
  rw [(first_problem_none 0 root).mpr hclear]

variable {o : Options} {out : Bytes}

theorem canonical_ok (nearest : Decimal → Double) (hy : Reader y) (h : canonical y o text = .ok out) :
    ∃ root, Canonical y o.max_depth.n root ∧ put_text_value y ⟨false, true⟩ 0 root = .ok out ∧
      held y nearest o text = some (meaning y nearest root) := by
  unfold canonical json_format format_doc at h
  rcases hdoc : read_text y { o with duplicate_keys := false }.reading text with message | doc
  · rw [hdoc] at h
    cases h
  rw [hdoc] at h
  dsimp only at h
  rw [if_pos rfl] at h
  dsimp only at h
  rcases hput : put_text_value y ⟨false, true⟩ 0 doc.root with e | out'
  · rw [show (!true && false) = false from rfl, hput] at h
    cases h
  rw [show (!true && false) = false from rfl, hput] at h
  cases h
  obtain ⟨hread, hclear⟩ := read_text_ok hdoc
  refine ⟨doc.root, ⟨hclear, fun s hs => ⟨?_, ?_⟩⟩, hput, ?_⟩
  · exact (put_text_value_ok _ _ _).mp ⟨_, hput⟩ s hs
  · rintro t rfl
    exact hy.not_raw _ _ _ rfl rfl (read_doc_read hread) t hs
  · rw [held, hdoc]
    rfl

variable {v : Val}

theorem canonical_unique (hd : Doubles y shortest nearest) {w : Val} {out' : Bytes}
    (hv : put_text_value y ⟨false, true⟩ 0 v = .ok out) (hw : put_text_value y ⟨false, true⟩ 0 w = .ok out')
    (h : told y true v = told y true w) : out = out' := by
  have hagain := told_again ⟨false, true⟩ 0 v (fun s _ => hd.numeral s) out hv
  have hagain' := told_again ⟨false, true⟩ 0 w (fun s _ => hd.numeral s) out' hw
  rw [h, hagain'] at hagain
  exact (Except.ok.inj hagain).symm

theorem told_num (hd : Doubles y shortest nearest) {n : Number} (hfinite : (y.get_num n).isfinite = true) :
    told y false (.num n) = .raw (canonical_text shortest (y.get_num n)) := by
  rw [told, put_number_finite hfinite, hd.put hfinite, text_of_ok]

theorem meaning_told_all (hd : Doubles y shortest nearest) (hdistinct : Distinct v)
    (hplain : ∀ s ∈ v.scalars, Plain y s) : meaning y nearest (told y true v) = meaning y nearest v := by
  rw [meaning_told v hdistinct, told_eq_over]
  refine meaning_over v fun s hs => ?_
  have hscalar := is_scalar_of_mem hs
  cases s with
  | raw t => exact absurd rfl ((hplain _ hs).not_raw t)
  | num n =>
    have hfinite := finite_of_writes (hplain _ hs).writes
    rw [told_num hd hfinite, meaning, meaning, hd.text_nearest hfinite]
  | arr items => exact absurd hscalar Bool.false_ne_true
  | obj members => exact absurd hscalar Bool.false_ne_true
  | _ => rfl

theorem told_raw (hd : Doubles y shortest nearest) (hplain : ∀ s ∈ v.scalars, Plain y s)
    (h : .raw t ∈ (told y true v).scalars) :
    is_json_number t = true ∧ (nearest (decimal_of t)).isfinite = true := by
  obtain ⟨s, hs, htold⟩ := (mem_scalars_told v).mp h
  have hscalar := is_scalar_of_mem hs
  cases s with
  | raw t => exact absurd rfl ((hplain _ hs).not_raw t)
  | num n =>
    have hfinite := finite_of_writes (hplain _ hs).writes
    rw [told_num hd hfinite] at htold
    cases htold
    refine ⟨hd.text_json hfinite, ?_⟩
    rwa [← isfinite_unsigned, hd.text_nearest hfinite, isfinite_unsigned]
  | arr items => exact absurd hscalar Bool.false_ne_true
  | obj members => exact absurd hscalar Bool.false_ne_true
  | _ => cases htold

theorem canonical_read (hy : Reader y) (hd : Doubles y shortest nearest) {max_depth : ℕ}
    (hroot : Canonical y max_depth root) (hput : put_text_value y ⟨false, true⟩ 0 root = .ok out) (flags : Flags)
    (hraw : flags.number_as_raw = false) (hbig : flags.bignum_as_raw = false) :
    ∃ root', y.read flags out = .ok root' ∧ Canonical y max_depth root' ∧
      meaning y nearest root' = meaning y nearest root := by
  have hreads := (put_text_value_reads ⟨false, true⟩ 0 root out (fun s _ => hd.numeral s) hput).text
  have hnumber : ∀ t, .raw t ∈ (told y true root).scalars → ∃ n, y.read flags t = .ok (.num n) ∧
      (y.get_num n).unsigned = (nearest (decimal_of t)).unsigned := by
    intro t ht
    obtain ⟨hjson, hfinite⟩ := told_raw hd hroot.plain ht
    exact hd.reads flags t hraw hbig hjson hfinite
  obtain ⟨root', hread, hplain⟩ := hy.whole flags out _ hraw hbig hreads fun t ht => by
    obtain ⟨n, hn, -⟩ := hnumber t ht
    exact ⟨(told_raw hd hroot.plain ht).1, n, hn⟩
  rw [plain_eq_over] at hplain
  refine ⟨root', hread, ⟨?_, ?_⟩, ?_⟩
  · -- it has the shape that was written
    rw [← clear_over scalar_id, hplain, clear_over (scalar_number y flags), clear_told]
    exact hroot.clear
  · intro s hs
    have hmem : s ∈ (root'.over id).scalars := by
      rwa [scalars_over scalar_id, map_id]
    rw [hplain, scalars_over (scalar_number y flags)] at hmem
    obtain ⟨s', hs', rfl⟩ := mem_map.mp hmem
    refine ⟨?_, ?_⟩
    · obtain ⟨s'', hs'', rfl⟩ := (mem_scalars_told root).mp hs'
      have hscalar := is_scalar_of_mem hs''
      cases s'' with
      | raw t => exact absurd rfl ((hroot.plain _ hs'').not_raw t)
      | num n =>
        have hfinite := finite_of_writes (hroot.plain _ hs'').writes
        rw [told_num hd hfinite] at hs' ⊢
        obtain ⟨n', hn', hsame⟩ := hnumber _ hs'
        have hfinite' : (y.get_num n').isfinite = true := by
          rwa [← isfinite_unsigned, hsame, hd.text_nearest hfinite, isfinite_unsigned]
        rw [number_raw hn']
        refine ⟨canonical_text shortest (y.get_num n'), ?_⟩
        rw [put_text_value, put_number_finite hfinite', hd.put hfinite']
      | arr items => exact absurd hscalar Bool.false_ne_true
      | obj members => exact absurd hscalar Bool.false_ne_true
      | _ => exact (hroot.plain _ hs'').writes
    · intro t ht
      rw [ht] at hs
      exact hy.not_raw flags out root' hraw hbig hread t hs
  · rw [← meaning_told_all hd hroot.distinct hroot.plain]
    have hsame : meaning y nearest root' = meaning y nearest (root'.over id) := (meaning_over root' fun _ _ => rfl).symm
    rw [hsame, hplain]
    refine meaning_over _ fun s hs => ?_
    cases s with
    | raw t =>
      obtain ⟨n, hn, hnearest⟩ := hnumber t hs
      rw [number_raw hn, meaning, meaning, hnearest]
    | _ => rfl

/-! ## The canonical form -/

variable {a : Bytes}

theorem canonical_eq_iff (hy : Reader y) (hd : Doubles y shortest nearest) {o' : Options} {b out' : Bytes}
    (ha : canonical y o a = .ok out) (hb : canonical y o' b = .ok out') :
    out = out' ↔ held y nearest o a = held y nearest o' b := by
  obtain ⟨v, hv, hput, hheld⟩ := canonical_ok nearest hy ha
  obtain ⟨w, hw, hput', hheld'⟩ := canonical_ok nearest hy hb
  rw [hheld, hheld', Option.some_inj]
  constructor
  · rintro rfl
    have hread := (put_text_value_reads ⟨false, true⟩ 0 v out (fun s _ => hd.numeral s) hput).text
    have hread' := (put_text_value_reads ⟨false, true⟩ 0 w out (fun s _ => hd.numeral s) hput').text
    rw [hread, Option.some_inj] at hread'
    rw [← meaning_told_all hd hv.distinct hv.plain, ← meaning_told_all hd hw.distinct hw.plain]
    exact congrArg _ hread'
  · intro hmeaning
    exact canonical_unique hd hput hput' (told_of_meaning v w hv.distinct hw.distinct hv.plain hw.plain hmeaning)

theorem canonical_idempotent (hy : Reader y) (hd : Doubles y shortest nearest) {o' : Options}
    (h : canonical y o a = .ok out) (hdepth : o.max_depth.n ≤ o'.max_depth.n) : canonical y o' out = .ok out := by
  obtain ⟨v, hv, hput, -⟩ := canonical_ok nearest hy h
  obtain ⟨root, hread, hroot, hmeaning⟩ := canonical_read hy hd hv hput
    ({ o' with duplicate_keys := false } : Options).reading.flags rfl rfl
  have hdoc := read_text_of_read hread (hroot.clear.mono (by rw [Nat.zero_add, Nat.zero_add]; exact hdepth))
  obtain ⟨out', hput'⟩ := (put_text_value_ok ⟨false, true⟩ 0 root).mpr fun s hs => (hroot.plain s hs).writes
  have hsame : out = out' := canonical_unique hd hput hput'
    (told_of_meaning v root hv.distinct hroot.distinct hv.plain hroot.plain hmeaning.symm)
  unfold canonical json_format format_doc
  rw [hdoc]
  dsimp only
  rw [if_pos rfl]
  dsimp only
  rw [show (!true && false) = false from rfl, hput', hsame]

theorem canonical_ordered (hy : Reader y) (hd : Doubles y shortest nearest) (h : canonical y o a = .ok out) :
    ∃ w, Rfc.text out = some w ∧ Ordered w := by
  obtain ⟨v, hv, hput, -⟩ := canonical_ok nearest hy h
  exact ⟨_, (put_text_value_reads ⟨false, true⟩ 0 v out (fun s _ => hd.numeral s) hput).text, ordered_told v hv.distinct hv.plain⟩

/-- The canonical form is canonical. -/
theorem canonical_form (hy : Reader y) (hd : Doubles y shortest nearest) :
    (∀ o o' a b out out', canonical y o a = .ok out → canonical y o' b = .ok out' →
      (out = out' ↔ held y nearest o a = held y nearest o' b)) ∧
    (∀ o o' a out, canonical y o a = .ok out → o.max_depth.n ≤ o'.max_depth.n → canonical y o' out = .ok out) ∧
    (∀ o a out, canonical y o a = .ok out → ∃ w, Rfc.text out = some w ∧ Ordered w) ∧
    (∀ s t, is_utf8 s = true → is_utf8 t = true →
      (compare_utf16 s t < 0 ↔ key_units s < key_units t) ∧ (compare_utf16 s t = 0 ↔ s = t) ∧
        (0 < compare_utf16 s t ↔ key_units t < key_units s)) ∧
    ∀ f : Double, f.isfinite = true → put_canonical_number y f = .ok (canonical_text shortest f) := by
  refine ⟨fun o o' a b out out' ha hb => canonical_eq_iff hy hd ha hb,
    fun o o' a out h hdepth => canonical_idempotent hy hd h hdepth, fun o a out h => canonical_ordered hy hd h, ?_,
    fun f hfinite => hd.put hfinite⟩
  intro s t hs ht
  obtain ⟨cs, rfl⟩ := is_utf8_iff.mp hs
  obtain ⟨ds, rfl⟩ := is_utf8_iff.mp ht
  rw [key_units_encode, key_units_encode]
  rcases compare_utf16_spec cs ds with ⟨hlt, hneg⟩ | ⟨rfl, hzero⟩ | ⟨hgt, hpos⟩
  · refine ⟨iff_of_true hneg hlt, iff_of_false (by omega) ?_, iff_of_false (by omega) (lt_asymm hlt)⟩
    intro heq
    rw [encode_inj heq] at hlt
    exact lt_irrefl _ hlt
  · exact ⟨iff_of_false (by omega) (lt_irrefl _), iff_of_true hzero rfl, iff_of_false (by omega) (lt_irrefl _)⟩
  · refine ⟨iff_of_false (by omega) (lt_asymm hgt), iff_of_false (by omega) ?_, iff_of_true hpos hgt⟩
    intro heq
    rw [encode_inj heq] at hgt
    exact lt_irrefl _ hgt

/-! ## A reader and a writer of doubles

Every double that is not 1 has its own digits here, made of its bits. -/

def one : Double := ⟨0x3ff0000000000000⟩

def digits_by_bits (f : Double) : Decimal :=
  if f = one then ⟨false, [49], 1⟩
  else ⟨f.negative, tostring (10 * (f.bits.toNat % 2 ^ 52) + 3), f.exponent⟩

def double_by_bits (d : Decimal) : Double :=
  if d.digits = [] then .zero
  else if d = ⟨false, [49], 1⟩ then one
  else
    ⟨UInt64.ofNat ((if d.negative then 2 ^ 63 else 0) + d.point.toNat * 2 ^ 52 + digits_value 10 d.digits / 10)⟩

def number_by_bits : Val → Val
  | .raw t => .num (.real (double_by_bits (decimal_of t)))
  | v => v

def read_by_bits (s : Bytes) : Except ReadErr Val :=
  (Rfc.text s).elim (.error ⟨.other, 0, []⟩) fun v => .ok (v.over number_by_bits)

def yyjson_by_bits : Yyjson where
  read _ s := read_by_bits s
  write_number
    | .real f => if f.isfinite && !f.is_zero then some (number_to_string (digits_by_bits f)) else none
    | _ => none
  of_integer _ := .zero

theorem scalar_number_by_bits : Scalar number_by_bits := by
  refine ⟨fun s h => ?_, fun s => rfl⟩
  cases s with
  | raw t => rfl
  | _ => exact h

theorem read_by_bits_number (h : is_json_number t = true) :
    read_by_bits t = .ok (.num (.real (double_by_bits (decimal_of t)))) := by
  rw [read_by_bits, (reads_number h).text]
  rfl

theorem reader_by_bits : Reader yyjson_by_bits := by
  constructor
  · intro flags s v _ _ htext hnumbers
    refine ⟨v.over number_by_bits, ?_, ?_⟩
    · show read_by_bits s = _
      rw [read_by_bits, htext]
      rfl
    · rw [plain_eq_over, over_over scalar_number_by_bits]
      refine over_congr v fun s hs => ?_
      cases s with
      | raw t => exact (number_raw (read_by_bits_number (hnumbers t hs).1)).symm
      | _ => rfl
  · intro flags s root _ _ hread t ht
    have hread' : read_by_bits s = .ok root := hread
    rw [read_by_bits] at hread'
    rcases htext : Rfc.text s with _ | v
    · rw [htext] at hread'
      cases hread'
    · rw [htext] at hread'
      rw [← Except.ok.inj hread', scalars_over scalar_number_by_bits] at ht
      obtain ⟨s', -, hs'⟩ := mem_map.mp ht
      cases s' with
      | _ => cases hs'

theorem bits_parts (f : Double) :
    (if f.negative then 2 ^ 63 else 0) + f.exponent * 2 ^ 52 + f.bits.toNat % 2 ^ 52 = f.bits.toNat := by
  have hlt := f.bits.toNat_lt
  unfold Double.negative Double.exponent
  simp only [decide_eq_true_iff]
  split_ifs <;> omega

theorem normal_digits (n : ℕ) : Digits (tostring (10 * n + 3)) ∧
    (tostring (10 * n + 3)).dropWhile zero_digit = tostring (10 * n + 3) ∧
      (tostring (10 * n + 3)).rdropWhile zero_digit = tostring (10 * n + 3) := by
  refine ⟨fun b hb => isDigit_of_mem_tostring hb, ?_, ?_⟩
  · obtain ⟨b, t, hbt⟩ := exists_cons_of_ne_nil (tostring_ne_nil (10 * n + 3))
    rw [hbt]
    refine dropWhile_cons_of_neg fun hb => ?_
    rw [zero_digit_iff] at hb
    have hzero : 10 * n + 3 = 0 := tostring_head (by rw [hbt, hb]; rfl)
    omega
  · have hlast : ∃ t, tostring (10 * n + 3) = t ++ [51] := by
      rcases Nat.lt_or_ge (10 * n + 3) 10 with hlt | hge
      · obtain rfl : n = 0 := by omega
        exact ⟨[], by decide⟩
      · refine ⟨tostring ((10 * n + 3) / 10), ?_⟩
        rw [tostring_of_le hge, show (10 * n + 3) % 10 = 3 by omega]
        rfl
    obtain ⟨t, ht⟩ := hlast
    rw [ht]
    exact rdropWhile_concat_neg _ _ _ (by decide)

theorem normal_by_bits (f : Double) : Normal (digits_by_bits f) := by
  unfold digits_by_bits
  split_ifs with hone
  · exact ⟨by decide, fun b hb => by rw [mem_singleton.mp hb]; rfl, by decide, by decide⟩
  · obtain ⟨hdigits, hfirst, hlast⟩ := normal_digits (f.bits.toNat % 2 ^ 52)
    exact ⟨tostring_ne_nil _, hdigits, hfirst, hlast⟩

theorem double_by_bits_digits (f : Double) : double_by_bits (digits_by_bits f) = f := by
  unfold digits_by_bits
  split_ifs with hone
  · rw [hone]
    decide
  have hne : (⟨f.negative, tostring (10 * (f.bits.toNat % 2 ^ 52) + 3), f.exponent⟩ : Decimal) ≠ ⟨false, [49], 1⟩ := by
    intro heq
    have hdigits : tostring (10 * (f.bits.toNat % 2 ^ 52) + 3) = tostring 1 := (Decimal.mk.inj heq).2.1
    have hvalue := tostring_inj hdigits
    omega
  unfold double_by_bits
  rw [if_neg (tostring_ne_nil _), if_neg hne]
  rw [digits_value_tostring, Int.toNat_natCast,
    show (10 * (f.bits.toNat % 2 ^ 52) + 3) / 10 = f.bits.toNat % 2 ^ 52 by omega, bits_parts, UInt64.ofNat_toNat]

theorem doubles_by_bits : Doubles yyjson_by_bits digits_by_bits double_by_bits := by
  have hwrite {f : Double} (hfinite : f.isfinite = true) (hzero : f.is_zero = false) :
      yyjson_by_bits.write_number (.real f) = some (number_to_string (digits_by_bits f)) := by
    show (if f.isfinite && !f.is_zero then some (number_to_string (digits_by_bits f)) else none) = _
    rw [if_pos (by simp [hfinite, hzero])]
  refine ⟨?_, ?_, fun f _ _ => (normal_by_bits f).ne, ?_, ?_, fun f _ _ => double_by_bits_digits f, ?_, ?_⟩
  · intro n t h
    cases n with
    | real f =>
      have h' : (if f.isfinite && !f.is_zero then some (number_to_string (digits_by_bits f)) else none) = some t := h
      split_ifs at h'
      rw [← Option.some.inj h']
      exact number_to_string_json (normal_by_bits f)
    | uint n => cases h
    | sint n => cases h
  · intro f hfinite hzero
    exact ⟨_, hwrite hfinite hzero, decimal_number_to_string (normal_by_bits f)⟩
  · intro f _ _
    unfold digits_by_bits
    split_ifs
    · decide
    · exact (tostring_length_le (by decide)).mpr (by omega)
  · intro f _ _
    unfold digits_by_bits
    split_ifs with hone
    · rw [hone]
      decide
    · rfl
  · intro d hd
    rw [double_by_bits, if_pos hd]
    rfl
  · intro flags t _ _ hjson _
    exact ⟨_, read_by_bits_number hjson, rfl⟩

/-- Two texts of one value, and its canonical form. -/
theorem canonical_form_members :
    ∃ out, canonical yyjson_by_bits {} (lit "\x7b\"b\": [1, 1.0e0], \"a\": null\x7d") = .ok out ∧
      canonical yyjson_by_bits {} out = .ok out ∧
        held yyjson_by_bits double_by_bits {} (lit "\x7b\"b\": [1, 1.0e0], \"a\": null\x7d") =
          held yyjson_by_bits double_by_bits {} (lit "\x7b\"a\":null,\"b\":[0.1e1,1]\x7d") := by
  have hone : canonical yyjson_by_bits {} (lit "\x7b\"b\": [1, 1.0e0], \"a\": null\x7d") =
      .ok (lit "\x7b\"a\":null,\"b\":[1,1]\x7d") := by decide +kernel
  have htwo : canonical yyjson_by_bits {} (lit "\x7b\"a\":null,\"b\":[0.1e1,1]\x7d") =
      .ok (lit "\x7b\"a\":null,\"b\":[1,1]\x7d") := by decide +kernel
  obtain ⟨hsame, hagain, -⟩ := canonical_form reader_by_bits doubles_by_bits
  exact ⟨_, hone, hagain _ _ _ _ hone le_rfl, (hsame _ _ _ _ _ _ hone htwo).mp rfl⟩

end Cosmic.Json
