/-
`decode`, `check` and `format` agree on what they read.

`check` walks a document as `decode` does, and says what it would. What `format` writes reads as the
document it was written of, read as RFC 8259 unless a number is past a double's range, which JSON5
alone reads; and written again it is the same.
-/
import Cosmic.Json.Canonical
import Cosmic.Json.Five

set_option autoImplicit false

namespace Cosmic.Json

open Cosmic.Base List

/-! ## `check` and `decode` -/

theorem check_decode (y : Yyjson) (o : Options) (null : Option Lua) (big : Bool) (text : Bytes) :
    ((json_check y o big text).isOk = (json_decode y o null big text).isOk) ∧
      ∀ message, json_check y o big text = .error message ↔ json_decode y o null big text = .error message := by
  unfold json_check read_text json_decode
  dsimp only
  rcases read_doc y (o.reading.big big) text with message | doc
  · exact ⟨rfl, fun _ => Iff.of_eq (by simp [Except.map])⟩
  have hwalk := first_problem_eq (y := y) (d := ⟨null, o.max_depth.n, big, o.duplicate_keys⟩) 0 doc.root
  dsimp only at hwalk ⊢
  rw [show (o.reading.big big).max_depth.n = o.max_depth.n from rfl,
    show (o.reading.big big).duplicate_keys = o.duplicate_keys from rfl, hwalk]
  rcases push_value y ⟨null, o.max_depth.n, big, o.duplicate_keys⟩ 0 doc.root with found | v
  · exact ⟨rfl, fun _ => Iff.of_eq (by simp [Except.map])⟩
  · exact ⟨rfl, fun _ => Iff.of_eq (by simp [Except.map])⟩

variable {y : Yyjson} {number : Bool → Decimal → Number}

/-! ## What is relied on -/

/-- No number is kept as its text. -/
def Flags.valued (flags : Flags) : Prop := flags.number_as_raw = false ∧ flags.bignum_as_raw = false

def Flags.as_raw (flags : Flags) : Flags := { flags with number_as_raw := true }

/-- Whether `t` is a decimal number of the grammar read. -/
def Flags.has (flags : Flags) (t : Bytes) : Prop :=
  is_json_number t = true ∨ flags.json5 = true ∧ is_decimal5 t = true

/-- A number that is read of the text written of another, if not that one: 0 has no sign as an integer. -/
def Number.Back (n n' : Number) : Prop := n' = n ∨ n = .sint 0 ∧ n' = .uint 0

/-- A reader of RFC 8259 and of JSON5, and a writer of numbers: `number` is what a decimal number is read as,
by whether it has a point or an exponent, and by the number it writes. -/
structure Grammar (y : Yyjson) (number : Bool → Decimal → Number) : Prop extends Reader y where
  /-- A text of RFC 8259, each number as its text. -/
  whole_raw : ∀ flags s v, flags.number_as_raw = true → Rfc.text s = some v →
    ∃ root, y.read flags s = .ok root ∧ root.plain = v.plain
  /-- A text that reads at all reads again with each number as its text, and each of those reads alone. -/
  again : ∀ flags s root, flags.valued → y.read flags s = .ok root →
    ∃ raw, y.read flags.as_raw s = .ok raw ∧ root.plain = raw.over (y.number flags) ∧
      ∀ t, .raw t ∈ raw.scalars → ∃ n, y.read flags t = .ok (.num n)
  /-- Each number kept as its text is one of the grammar read, and strings are UTF-8. -/
  tokens : ∀ flags s raw, flags.number_as_raw = true → y.read flags s = .ok raw →
    (∀ n, .num n ∉ raw.scalars) ∧ (∀ u, .str u ∈ raw.scalars → is_utf8 u = true) ∧
      ∀ t, .raw t ∈ raw.scalars → flags.has t ∨ flags.json5 = true ∧ is_other5 t = true
  /-- A decimal number, which RFC 8259 refuses past a double's range. -/
  decimal : ∀ flags t n, flags.valued → flags.has t → (y.read flags t = .ok (.num n) ↔
      n = number (real_of t) (decimal5_of t) ∧ (flags.json5 = true ∨ (y.get_num n).isfinite = true))
  /-- A number holds no comment. -/
  other : ∀ flags flags' t, flags.valued → flags'.valued → flags.json5 = true → flags'.json5 = true →
    is_other5 t = true → y.read flags t = y.read flags' t
  /-- A number is written as a text of RFC 8259 that reads as the number. -/
  written : ∀ flags t n, flags.valued → y.read flags t = .ok (.num n) → (y.get_num n).isfinite = true →
    ∃ text, y.write_number n = some text ∧
      ∀ flags' : Flags, flags'.valued → ∃ n', y.read flags' text = .ok (.num n') ∧ n.Back n'
  json : ∀ n text, y.write_number n = some text → is_json_number text = true

/-! ## Numbers kept as their text -/

/-- A number kept as its text, and what it reads as. -/
structure Token (y : Yyjson) (flags : Flags) (t : Bytes) (n : Number) : Prop where
  valued : flags.valued
  read : y.read flags t = .ok (.num n)
  which : flags.has t ∨ flags.json5 = true ∧ is_other5 t = true

variable {t : Bytes}

theorem unplus_json (h : is_json_number t = true) : decimal5_of t = decimal_of t := by
  have hnot : ∀ s, t ≠ 43 :: s := by
    rintro s rfl
    rw [show (43 :: s : Bytes) = (if false then [45] else []) ++ 43 :: s from rfl,
      not_json_of_head false rfl (by decide)] at h
    exact Bool.false_ne_true h
  rw [decimal5_of]
  congr 1
  unfold unplus
  split
  · rename_i s
    exact absurd rfl (hnot s)
  · rfl

/-- The flags that `put_raw_number` reads a number with. -/
def five : Flags := { json5 := true, hash_comments := false }

variable {n : Number}

theorem put_raw_number_eq (t : Bytes) (hjson : is_json_number t = false)
    (hspell : is_json_number (respell t) = false) (hread : y.read five t = .ok (.num n)) :
    put_raw_number y t =
      if (y.get_num n).isfinite then
        (y.write_number n).elim (.error { why := lit "cannot format an infinite number" }) .ok
      else .error { why := refuse_number (y.get_num n) } := by
  unfold put_raw_number
  rw [if_neg (by rw [hjson]; exact Bool.false_ne_true), ← respell, if_neg (by rw [hspell]; exact Bool.false_ne_true)]
  rw [show y.read { json5 := true, hash_comments := false } t = .ok (.num n) from hread]
  dsimp only
  split_ifs
  · rcases y.write_number n with _ | text
    · rfl
    · rfl
  · rfl

variable {flags : Flags}

theorem Token.five (hy : Grammar y number) (h : Token y flags t n) (hjson : is_json_number t = false) :
    y.read five t = .ok (.num n) := by
  rcases h.which with hhas | ⟨hflag, hother⟩
  · have hdecimal := (hy.decimal flags t n h.valued hhas).mp h.read
    have hfive : is_decimal5 t = true := (hhas.resolve_left (by rw [hjson]; exact Bool.false_ne_true)).2
    exact (hy.decimal Json.five t n ⟨rfl, rfl⟩ (.inr ⟨rfl, hfive⟩)).mpr ⟨hdecimal.1, .inl rfl⟩
  · rw [← hy.other flags Json.five t h.valued ⟨rfl, rfl⟩ hflag rfl hother]
    exact h.read

variable {out : Bytes}

theorem Token.written (hy : Grammar y number) (h : Token y flags t n) (hput : put_raw_number y t = .ok out) :
    is_json_number out = true ∧
      ∀ flags' : Flags, flags'.valued → (flags'.json5 = true ∨ (y.get_num n).isfinite = true) →
        ∃ n', y.read flags' out = .ok (.num n') ∧ n.Back n' := by
  by_cases hjson : is_json_number t = true
  · -- as it is
    rw [put_raw_number_json hjson] at hput
    cases hput
    refine ⟨hjson, fun flags' hvalued hrange => ?_⟩
    rcases h.which with hhas | ⟨-, hother⟩
    · have hdecimal := (hy.decimal flags t n h.valued hhas).mp h.read
      exact ⟨n, (hy.decimal flags' t n hvalued (.inl hjson)).mpr ⟨hdecimal.1, hrange⟩, .inl rfl⟩
    · rw [(not_json_of_other5 hother).1] at hjson
      exact absurd hjson Bool.false_ne_true
  rw [Bool.not_eq_true] at hjson
  by_cases hspell : is_json_number (respell t) = true
  · -- spelled out
    have hput' : put_raw_number y t = .ok (respell t) := by
      unfold put_raw_number
      rw [if_neg (by rw [hjson]; exact Bool.false_ne_true), ← respell, if_pos hspell]
    rw [hput'] at hput
    cases hput
    refine ⟨hspell, fun flags' hvalued hrange => ?_⟩
    rcases h.which with hhas | ⟨-, hother⟩
    · have hfive : is_decimal5 t = true := (hhas.resolve_left (by rw [hjson]; exact Bool.false_ne_true)).2
      have hdecimal := (hy.decimal flags t n h.valued hhas).mp h.read
      refine ⟨n, (hy.decimal flags' (respell t) n hvalued (.inl hspell)).mpr ⟨?_, hrange⟩, .inl rfl⟩
      rw [real_respell hfive, decimal5_respell hfive]
      exact hdecimal.1
    · rw [(not_json_of_other5 hother).2] at hspell
      exact absurd hspell Bool.false_ne_true
  · -- as the number it is
    rw [Bool.not_eq_true] at hspell
    rw [put_raw_number_eq t hjson hspell (h.five hy hjson)] at hput
    split_ifs at hput with hfinite
    obtain ⟨text, hwrite, hback⟩ := hy.written flags t n h.valued h.read hfinite
    rw [hwrite] at hput
    cases hput
    exact ⟨hy.json n _ hwrite, fun flags' hvalued _ => hback flags' hvalued⟩

theorem Token.refused (hy : Grammar y number) (h : Token y flags t n) (hput : ∀ out, put_raw_number y t ≠ .ok out) :
    (y.get_num n).isfinite = false := by
  rw [← Bool.not_eq_true]
  intro hfinite
  by_cases hjson : is_json_number t = true
  · exact hput t (put_raw_number_json hjson)
  rw [Bool.not_eq_true] at hjson
  by_cases hspell : is_json_number (respell t) = true
  · refine hput (respell t) ?_
    unfold put_raw_number
    rw [if_neg (by rw [hjson]; exact Bool.false_ne_true), ← respell, if_pos hspell]
  · rw [Bool.not_eq_true] at hspell
    obtain ⟨text, hwrite, -⟩ := hy.written flags t n h.valued h.read hfinite
    refine hput text ?_
    rw [put_raw_number_eq t hjson hspell (h.five hy hjson), if_pos hfinite, hwrite]
    rfl

/-! ## The document read twice -/

/-- `raw` is what a document that was read reads as again, each number as its text. -/
structure Twice (y : Yyjson) (flags : Flags) (root raw : Val) : Prop where
  same : root.plain = raw.over (y.number flags)
  token : ∀ t, .raw t ∈ raw.scalars → ∃ n, Token y flags t n
  no_num : ∀ n, .num n ∉ raw.scalars
  utf8 : ∀ u, .str u ∈ raw.scalars → is_utf8 u = true

variable {root : Val}

theorem Twice.of_read (hy : Grammar y number) (hvalued : flags.valued) {s : Bytes} (h : y.read flags s = .ok root) :
    ∃ raw, y.read flags.as_raw s = .ok raw ∧ Twice y flags root raw := by
  obtain ⟨raw, hraw, hsame, halone⟩ := hy.again flags s root hvalued h
  obtain ⟨hnum, hutf8, htoken⟩ := hy.tokens flags.as_raw s raw rfl hraw
  refine ⟨raw, hraw, hsame, fun t ht => ?_, hnum, hutf8⟩
  obtain ⟨n, hn⟩ := halone t ht
  exact ⟨n, hvalued, hn, htoken t ht⟩

variable {flags : Flags} {root raw : Val} {form : Form} {out : Bytes}

theorem Twice.num_mem (h : Twice y flags root raw) (ht : .raw t ∈ raw.scalars) (hn : Token y flags t n) :
    .num n ∈ root.scalars := by
  have hmem : y.number flags (.raw t) ∈ (root.over id).scalars := by
    rw [← plain_eq_over, h.same, scalars_over (scalar_number y flags)]
    exact mem_map_of_mem ht
  rwa [scalars_over scalar_id, map_id, number_raw hn.read] at hmem

theorem Twice.numeral (hy : Grammar y number) (h : Twice y flags root raw) : ∀ s ∈ raw.scalars, Numeral y s := by
  intro s hs
  constructor
  · rintro t out rfl hput
    obtain ⟨n, hn⟩ := h.token t hs
    exact (hn.written hy hput).1
  · rintro n out rfl
    exact absurd hs (h.no_num n)

theorem Twice.text (hy : Grammar y number) (h : Twice y flags root raw)
    (hput : put_text_value y form 0 raw = .ok out) (hform : form.canonical = false) :
    Rfc.text out = some (told y false raw) := by
  have hread := (put_text_value_reads form 0 raw out (h.numeral hy) hput).text
  rwa [hform] at hread

theorem Twice.writes (hput : put_text_value y form 0 raw = .ok out) : ∀ s ∈ raw.scalars, Writes y s :=
  (put_text_value_ok form 0 raw).mp ⟨out, hput⟩

theorem told_raw_number {t' : Bytes} (h : put_raw_number y t = .ok t') : told y false (.raw t) = .raw t' := by
  rw [told, h, text_of_ok]

theorem Twice.reads (hy : Grammar y number) (h : Twice y flags root raw)
    (hput : put_text_value y form 0 raw = .ok out) (ht : .raw t ∈ raw.scalars) :
    ∃ n t', Token y flags t n ∧ told y false (.raw t) = .raw t' ∧ is_json_number t' = true ∧
      ∀ flags' : Flags, flags'.valued → (flags'.json5 = true ∨ (y.get_num n).isfinite = true) →
        ∃ n', y.read flags' t' = .ok (.num n') ∧ n.Back n' := by
  obtain ⟨n, hn⟩ := h.token t ht
  obtain ⟨t', ht'⟩ := Twice.writes hput _ ht
  have ht'' : put_raw_number y t = .ok t' := ht'
  obtain ⟨hjson, hback⟩ := hn.written hy ht''
  exact ⟨n, t', hn, told_raw_number ht'', hjson, hback⟩

theorem Twice.told_mem (h : Twice y flags root raw) {t' : Bytes} (ht' : .raw t' ∈ (told y false raw).scalars) :
    ∃ t, .raw t ∈ raw.scalars ∧ told y false (.raw t) = .raw t' := by
  obtain ⟨s, hs, htold⟩ := (mem_scalars_told raw).mp ht'
  have hscalar := is_scalar_of_mem hs
  cases s with
  | raw t => exact ⟨t, hs, htold⟩
  | num n => exact absurd hs (h.no_num n)
  | arr items => exact absurd hscalar Bool.false_ne_true
  | obj members => exact absurd hscalar Bool.false_ne_true
  | _ => cases htold

theorem Twice.read_again (hy : Grammar y number) (h : Twice y flags root raw)
    (hput : put_text_value y form 0 raw = .ok out) (hform : form.canonical = false) {flags' : Flags}
    (hvalued : flags'.valued)
    (hrange : flags'.json5 = true ∨ ∀ n, .num n ∈ root.scalars → (y.get_num n).isfinite = true) :
    ∃ root', y.read flags' out = .ok root' ∧ root'.plain = raw.over (y.number flags' ∘ told y false) := by
  obtain ⟨root', hread, hplain⟩ := hy.whole flags' out _ hvalued.1 hvalued.2 (h.text hy hput hform) fun t' ht' => by
    obtain ⟨t, ht, htold⟩ := h.told_mem ht'
    obtain ⟨n, t'', hn, htold', hjson, hback⟩ := h.reads hy hput ht
    obtain rfl : t' = t'' := Val.raw.inj (htold.symm.trans htold')
    obtain ⟨n', hn', -⟩ := hback flags' hvalued (hrange.imp_right fun hall => hall n (h.num_mem ht hn))
    exact ⟨hjson, n', hn'⟩
  refine ⟨root', hread, ?_⟩
  rw [hplain, told_eq_over, over_over (scalar_told y)]

theorem Twice.clear (h : Twice y flags root raw) {root' : Val} {f : Val → Val} (hf : Scalar f)
    (hplain : root'.plain = raw.over f) {max_depth max_depth' : ℕ} {duplicate_keys : Bool}
    (hle : max_depth ≤ max_depth') (hclear : Clear max_depth duplicate_keys 0 root) :
    Clear max_depth' duplicate_keys 0 root' := by
  rw [← clear_over scalar_id, ← plain_eq_over, h.same, clear_over (scalar_number y flags)] at hclear
  rw [← clear_over scalar_id, ← plain_eq_over, hplain, clear_over hf]
  exact hclear.mono (by omega)

/-! ## Decoding it again -/

variable {d d' : Decoding}

theorem push_number_back (hd : Alike d d') {n' : Number} (h : n.Back n') :
    push_number y d' n' = push_number y d n := by
  rcases h with rfl | ⟨rfl, rfl⟩
  · cases n' with
    | uint u => rw [push_number, push_number, push_uint, push_uint, hd.big_as_string]
    | _ => rfl
  · rfl

theorem push_ok {depth : ℕ} {v : Val} (h : Clear d.max_depth d.duplicate_keys depth v) :
    ∃ x, push_value y d depth v = .ok x := by
  have hwalk := first_problem_eq (y := y) (d := d) depth v
  rw [(first_problem_none depth v).mpr h] at hwalk
  rcases hpush : push_value y d depth v with found | x
  · rw [hpush] at hwalk
    cases hwalk
  · exact ⟨x, rfl⟩

theorem push_same (hd : Alike d d') (hle : d.max_depth ≤ d'.max_depth) {v w u : Val} {f g : Val → Val}
    (hv : v.plain = u.over f) (hw : w.plain = u.over g) (h : ∀ s ∈ u.scalars, Builds y d d' (f s) (g s)) {x : Lua}
    (hx : push_value y d 0 v = .ok x) :
    push_value y d' 0 w = .ok x := by
  have hone {d₀ : Decoding} {s : Val} (hs : s.is_scalar = true) : Builds y d₀ d₀ (id s) (id s) :=
    ⟨fun depth depth' x hx => by rwa [id, push_scalar hs depth' depth], Iff.rfl⟩
  -- from the document to it without its keys' places, to the other so, and to the other
  have hplain : push_value y d 0 (v.over id) = .ok x := by
    have hx' : push_value y d 0 (v.remake id id) = .ok x := by rwa [remake_id]
    rw [← remake_plain]
    exact push_remake ⟨rfl, rfl, rfl⟩ keeps_id keeps_plain v le_rfl (fun s hs => hone (is_scalar_of_mem hs)) x hx'
  rw [← plain_eq_over, hv, ← remake_plain] at hplain
  have hother : push_value y d' 0 (u.remake Key.plain g) = .ok x :=
    push_remake hd keeps_plain keeps_plain u (by omega) h x hplain
  rw [remake_plain, ← hw, plain_eq_over, ← remake_plain] at hother
  have hback := push_remake ⟨rfl, rfl, rfl⟩ keeps_plain keeps_id w le_rfl
    (fun s hs => hone (is_scalar_of_mem hs)) x hother
  rwa [remake_id] at hback

/-! ## What `format` answers -/

/-- A document's arrays, objects and keys, in the text's order. -/
def outline (v : Val) : Val := v.over fun _ => .null

theorem read_doc_of_read {r : Reading} {s : Bytes} (h : y.read r.flags s = .ok root) :
    read_doc y r s = .ok ⟨s, root⟩ := by
  unfold read_doc
  rw [h]

theorem valued_reading (o : Options) : o.reading.flags.valued := ⟨rfl, rfl⟩

variable {o : Options} {doc : Doc}

variable {text : Bytes}

theorem format_of_read (hy : Grammar y number) (h : read_text y o.reading text = .ok doc) :
    ∃ raw, Twice y o.reading.flags doc.root raw ∧ Clear o.max_depth.n o.duplicate_keys 0 doc.root ∧
        ∀ pretty, (∀ out, put_text_value y ⟨pretty, false⟩ 0 raw = .ok out →
            json_format y o pretty false text = .ok out) ∧
          ∀ e, put_text_value y ⟨pretty, false⟩ 0 raw = .error e →
            json_format y o pretty false text = .error (format_failure e) := by
  obtain ⟨hdoc, hclear⟩ := read_text_ok h
  obtain ⟨raw, hraw, htwice⟩ := Twice.of_read hy (valued_reading o) (read_doc_read hdoc)
  have hsecond : format_doc y o false text = .ok ⟨doc.text, raw⟩ := by
    unfold format_doc
    rw [h]
    exact read_doc_of_read hraw
  refine ⟨raw, htwice, hclear, fun pretty => ⟨fun out hput => ?_, fun e hput => ?_⟩⟩
  · unfold json_format
    rw [hsecond]
    dsimp only
    rw [show (!false && pretty) = pretty from rfl, hput]
  · unfold json_format
    rw [hsecond]
    dsimp only
    rw [show (!false && pretty) = pretty from rfl, hput]

variable {message : Bytes}

theorem format_of_refused (h : read_text y o.reading text = .error message) (pretty : Bool) :
    json_format y o pretty false text = .error message := by
  unfold json_format format_doc
  rw [h]

theorem check_read_text (o : Options) (text : Bytes) :
    json_check y o false text = (read_text y o.reading text).map fun _ => () := rfl

theorem decode_error {null : Option Lua} (h : json_decode y o null false text = .error message) :
    read_text y o.reading text = .error message := by
  have hcheck := ((check_decode y o null false text).2 message).mpr h
  rw [check_read_text] at hcheck
  rcases hread : read_text y o.reading text with message' | doc
  · rw [hread] at hcheck
    exact congrArg _ (Except.error.inj hcheck)
  · rw [hread] at hcheck
    cases hcheck

theorem decode_ok {null : Option Lua} {x : Lua} (h : read_doc y o.reading text = .ok doc)
    (hpush : push_value y ⟨null, o.max_depth.n, false, o.duplicate_keys⟩ 0 doc.root = .ok x) :
    json_decode y o null false text = .ok x := by
  unfold json_decode
  dsimp only
  rw [show read_doc y (o.reading.big false) text = .ok doc from h]
  dsimp only
  rw [hpush]

variable {pretty : Bool}

theorem read_of_format (h : json_format y o pretty false text = .ok out) :
    ∃ doc, read_text y o.reading text = .ok doc := by
  rcases hread : read_text y o.reading text with message | doc
  · rw [format_of_refused hread] at h
    cases h
  · exact ⟨doc, rfl⟩

/-- No number that a text holds is past a double's range, or none at all. -/
def InRange (y : Yyjson) (o : Options) (text : Bytes) : Prop :=
  ∀ doc, read_text y o.reading text = .ok doc → ∀ n, .num n ∈ doc.root.scalars → (y.get_num n).isfinite = true

theorem put_of_format (hy : Grammar y number) (hread : read_text y o.reading text = .ok doc)
    (h : json_format y o pretty false text = .ok out) :
    ∃ raw, Twice y o.reading.flags doc.root raw ∧ Clear o.max_depth.n o.duplicate_keys 0 doc.root ∧
      put_text_value y ⟨pretty, false⟩ 0 raw = .ok out := by
  obtain ⟨raw, htwice, hclear, hput⟩ := format_of_read hy hread
  refine ⟨raw, htwice, hclear, ?_⟩
  rcases hwritten : put_text_value y ⟨pretty, false⟩ 0 raw with e | out'
  · rw [(hput pretty).2 e hwritten] at h
    cases h
  · rw [(hput pretty).1 out' hwritten] at h
    exact congrArg _ (Except.ok.inj h)

theorem Twice.builds (hy : Grammar y number) {flags' : Flags} {raw : Val} {form : Form} (h : Twice y flags root raw)
    (hput : put_text_value y form 0 raw = .ok out) (hvalued : flags'.valued)
    (hrange : flags'.json5 = true ∨ ∀ n, .num n ∈ root.scalars → (y.get_num n).isfinite = true) (hd : Alike d d') :
    ∀ s ∈ raw.scalars, Builds y d d' (y.number flags s) ((y.number flags' ∘ told y false) s) := by
  intro s hs
  have hscalar := is_scalar_of_mem hs
  cases s with
  | raw t =>
    obtain ⟨n, t', hn, htold, -, hback⟩ := h.reads hy hput hs
    obtain ⟨n', hn', hsame⟩ := hback flags' hvalued (hrange.imp_right fun hall => hall n (h.num_mem hs hn))
    rw [Function.comp_apply, htold, number_raw hn.read, number_raw hn']
    refine ⟨fun depth depth' x hx => ?_, by simp⟩
    rw [push_value] at hx ⊢
    rwa [push_number_back hd hsame]
  | num n => exact absurd hs (h.no_num n)
  | null =>
    refine ⟨fun depth depth' x hx => ?_, Iff.rfl⟩
    have hx' : Except.ok (d.null.getD .nil) = (.ok x : Except Found Lua) := hx
    show Except.ok (d'.null.getD .nil) = _
    rwa [hd.null]
  | bool b => exact ⟨fun _ _ _ hx => hx, Iff.rfl⟩
  | str u => exact ⟨fun _ _ _ hx => hx, Iff.rfl⟩
  | arr items => exact absurd hscalar Bool.false_ne_true
  | obj members => exact absurd hscalar Bool.false_ne_true

/-- What `format` writes decodes to the value that the text does. -/
theorem format_decode (hy : Grammar y number) {o' : Options}
    (h : json_format y o pretty false text = .ok out) (hdepth : o.max_depth.n ≤ o'.max_depth.n)
    (hdup : o'.duplicate_keys = o.duplicate_keys) (hrange : o'.json5 = true ∨ InRange y o text) (null : Option Lua) :
    ∃ x, json_decode y o null false text = .ok x ∧ json_decode y o' null false out = .ok x := by
  obtain ⟨doc, hread⟩ := read_of_format h
  obtain ⟨raw, htwice, hclear, hput⟩ := put_of_format hy hread h
  have hrange' := hrange.imp_right fun hall => hall doc hread
  obtain ⟨root', hroot', hplain⟩ := htwice.read_again hy hput rfl (valued_reading o') hrange'
  have hd : Alike ⟨null, o.max_depth.n, false, o.duplicate_keys⟩ ⟨null, o'.max_depth.n, false, o'.duplicate_keys⟩ :=
    ⟨rfl, rfl, hdup⟩
  obtain ⟨x, hx⟩ : ∃ x, push_value y ⟨null, o.max_depth.n, false, o.duplicate_keys⟩ 0 doc.root = .ok x :=
    push_ok hclear
  have hx' := push_same hd hdepth htwice.same hplain (htwice.builds hy hput (valued_reading o') hrange' hd) hx
  exact ⟨x, decode_ok (read_text_ok hread).1 hx, decode_ok (read_doc_of_read hroot') hx'⟩

/-- What `format` writes has the text's members in the text's order. -/
theorem format_outline (hy : Grammar y number) (hread : read_text y o.reading text = .ok doc)
    (h : json_format y o pretty false text = .ok out) :
    ∃ w, Rfc.text out = some w ∧ outline w = outline doc.root := by
  obtain ⟨raw, htwice, -, hput⟩ := put_of_format hy hread h
  refine ⟨_, htwice.text hy hput rfl, ?_⟩
  have hover := congrArg (fun v : Val => v.over fun _ => .null) htwice.same
  rw [plain_eq_over, over_over scalar_id, over_over (scalar_number y _)] at hover
  rw [outline, outline, told_eq_over, over_over (scalar_told y)]
  exact hover.symm

/-- What `format` writes it writes again as it is. -/
theorem format_again (hy : Grammar y number) {o' : Options}
    (h : json_format y o pretty false text = .ok out) (hdepth : o.max_depth.n ≤ o'.max_depth.n)
    (hdup : o'.duplicate_keys = o.duplicate_keys) (hrange : o'.json5 = true ∨ InRange y o text) :
    json_format y o' pretty false out = .ok out := by
  obtain ⟨doc, hread⟩ := read_of_format h
  obtain ⟨raw, htwice, hclear, hput⟩ := put_of_format hy hread h
  have hrange' := hrange.imp_right fun hall => hall doc hread
  obtain ⟨root', hroot', hplain⟩ := htwice.read_again hy hput rfl (valued_reading o') hrange'
  have hscalar : Scalar (y.number o'.reading.flags ∘ told y false) :=
    ⟨fun s hs => (scalar_number y _).scalar _ ((scalar_told y).scalar s hs), fun _ => rfl⟩
  have hclear' : Clear o'.max_depth.n o'.duplicate_keys 0 root' := by
    rw [hdup]
    exact htwice.clear hscalar hplain hdepth hclear
  have hread' : read_text y o'.reading out = .ok ⟨out, root'⟩ := read_text_of_read hroot' hclear'
  -- the second reading of what was written is what was told
  obtain ⟨raw', hraw', hraw_plain⟩ := hy.whole_raw o'.reading.flags.as_raw out _ rfl (htwice.text hy hput rfl)
  have hsecond : format_doc y o' false out = .ok ⟨out, raw'⟩ := by
    unfold format_doc
    rw [hread']
    exact read_doc_of_read hraw'
  have hover : raw'.over id = (told y false raw).over id := by
    rwa [← plain_eq_over, ← plain_eq_over]
  have htold : told y false raw' = told y false (told y false raw) := by
    have hagain := congrArg (fun v : Val => v.over (told y false)) hover
    rw [over_over scalar_id, over_over scalar_id] at hagain
    rwa [told_eq_over y raw', told_eq_over y (told y false raw)]
  have hnumeral : ∀ s ∈ (told y false raw).scalars, Numeral y s := by
    intro s hs
    constructor
    · rintro t' out' rfl hput'
      obtain ⟨t, ht, htold'⟩ := htwice.told_mem hs
      obtain ⟨n, t'', -, htold'', hjson, -⟩ := htwice.reads hy hput ht
      obtain rfl : t' = t'' := Val.raw.inj (htold'.symm.trans htold'')
      rw [put_raw_number_json hjson] at hput'
      rwa [← Except.ok.inj hput']
    · rintro n out' rfl
      obtain ⟨s', hs', hnum⟩ := (mem_scalars_told raw).mp hs
      have hscalar' := is_scalar_of_mem hs'
      cases s' with
      | num n' => exact absurd hs' (htwice.no_num n')
      | arr items => exact absurd hscalar' Bool.false_ne_true
      | obj members => exact absurd hscalar' Bool.false_ne_true
      | _ => cases hnum
  have hscalars : raw'.scalars = (told y false raw).scalars := by
    have hlists := congrArg Val.scalars hover
    rwa [scalars_over scalar_id, scalars_over scalar_id, map_id, map_id] at hlists
  have hfirst : put_text_value y ⟨pretty, false⟩ 0 (told y false raw) = .ok out :=
    told_again ⟨pretty, false⟩ 0 raw (htwice.numeral hy) out hput
  obtain ⟨out', hput'⟩ := (put_text_value_ok ⟨pretty, false⟩ 0 raw').mpr (by
    rw [hscalars]
    exact Twice.writes hfirst)
  have hsame : out' = out := by
    have hagain := told_again ⟨pretty, false⟩ 0 _ hnumeral out hfirst
    have hagain' := told_again ⟨pretty, false⟩ 0 raw' (by rw [hscalars]; exact hnumeral) out' hput'
    rw [show told y (Form.mk pretty false).canonical raw' = told y false raw' from rfl, htold] at hagain'
    exact Except.ok.inj (hagain'.symm.trans hagain)
  unfold json_format
  rw [hsecond]
  dsimp only
  rw [show (!false && pretty) = pretty from rfl, hput', hsame]

/-- When `decode` would not fail, `format` does for a number past a double's range alone, or none at all. -/
theorem format_refuses (hy : Grammar y number) (hread : read_text y o.reading text = .ok doc)
    (h : json_format y o pretty false text = .error message) :
    ∃ n, .num n ∈ doc.root.scalars ∧ (y.get_num n).isfinite = false := by
  obtain ⟨raw, htwice, -, hput⟩ := format_of_read hy hread
  by_contra hall
  have hwrites : ∀ s ∈ raw.scalars, Writes y s := by
    intro s hs
    have hscalar := is_scalar_of_mem hs
    cases s with
    | raw t =>
      obtain ⟨n, hn⟩ := htwice.token t hs
      by_contra hrefused
      refine hall ⟨n, htwice.num_mem hs hn, hn.refused hy fun out hout => hrefused ⟨out, hout⟩⟩
    | num n => exact absurd hs (htwice.no_num n)
    | str u =>
      refine writes_str.mpr ⟨34 :: put_bytes false 0 u ++ [34], ?_⟩
      unfold put_string
      rw [if_neg (by simp [htwice.utf8 u hs])]
    | arr items => exact absurd hscalar Bool.false_ne_true
    | obj members => exact absurd hscalar Bool.false_ne_true
    | _ => exact ⟨_, rfl⟩
  obtain ⟨out, hout⟩ := (put_text_value_ok ⟨pretty, false⟩ 0 raw).mpr hwrites
  rw [(hput pretty).1 out hout] at h
  cases h

/-- RFC 8259 has no number past a double's range. -/
theorem inRange_of_rfc (hy : Grammar y number) (h : o.json5 = false) (text : Bytes) : InRange y o text := by
  intro doc hread n hn
  obtain ⟨raw, -, htwice⟩ := Twice.of_read hy (valued_reading o) (read_doc_read (read_text_ok hread).1)
  have hmem : .num n ∈ (doc.root.over id).scalars := by
    rwa [scalars_over scalar_id, map_id]
  rw [← plain_eq_over, htwice.same, scalars_over (scalar_number y _)] at hmem
  obtain ⟨s, hs, hnum⟩ := mem_map.mp hmem
  have hscalar := is_scalar_of_mem hs
  cases s with
  | raw t =>
    obtain ⟨n', hn'⟩ := htwice.token t hs
    rw [number_raw hn'.read] at hnum
    obtain rfl := Val.num.inj hnum
    have hjson5 : ¬o.reading.flags.json5 = true := by
      rw [show o.reading.flags.json5 = o.json5 from rfl, h]
      exact Bool.false_ne_true
    have hhas := hn'.which.resolve_right fun hother => hjson5 hother.1
    exact ((hy.decimal _ t n' hn'.valued hhas).mp hn'.read).2.resolve_left hjson5
  | num n' => exact absurd hs (htwice.no_num n')
  | arr items => exact absurd hscalar Bool.false_ne_true
  | obj members => exact absurd hscalar Bool.false_ne_true
  | _ => cases hnum

end Cosmic.Json
