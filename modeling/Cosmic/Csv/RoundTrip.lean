/-
What `encode` writes, `parse` reads back, but for one thing: the first fields of the first record and the delimiter may
spell a byte order mark, which the reader drops.

A line is read field by field, each from one of the two ways it is spelled; a text, line by line.
-/
import Cosmic.Csv.Text
import Mathlib.Data.List.Forall2

set_option autoImplicit false

namespace Cosmic.Csv

open Cosmic.Base List Except

/-! ## Spellings of a field -/

/-- A text with nothing in it that a reader treats specially. -/
def Plain (delimiter : UInt8) (f : Bytes) : Prop := ∀ b ∈ f, b ≠ delimiter ∧ b ≠ 34 ∧ b ≠ 13 ∧ b ≠ 10

instance (delimiter : UInt8) (f : Bytes) : Decidable (Plain delimiter f) :=
  decidableBAll (fun b => b ≠ delimiter ∧ b ≠ 34 ∧ b ≠ 13 ∧ b ≠ 10) f

/-- The two ways a field is written: as it is, and in quotes. -/
inductive Spells (delimiter : UInt8) : Bytes → Bytes → Prop where
  | plain {f : Bytes} (h : Plain delimiter f) : Spells delimiter f f
  | quoted (f : Bytes) : Spells delimiter (34 :: doubled f ++ [34]) f

/-- A byte that may stand between fields. -/
structure Delimits (delimiter : UInt8) : Prop where
  quote : delimiter ≠ 34
  cr : delimiter ≠ 13
  lf : delimiter ≠ 10

theorem delimits_of {named : Option Bytes} {d : UInt8} (h : delimiter_of named = .ok d) : Delimits d := by
  rcases named with _ | ⟨_ | ⟨b, _ | ⟨c, s⟩⟩⟩
  · obtain rfl : 44 = d := ok.inj h
    exact ⟨by decide, by decide, by decide⟩
  · cases h
  · by_cases hb : b = 34 ∨ b = 13 ∨ b = 10
    · exact absurd h (by simp [delimiter_of, hb])
    · obtain rfl : b = d := by simpa [delimiter_of, hb] using h
      push Not at hb
      exact ⟨hb.1, hb.2.1, hb.2.2⟩
  · cases h

theorem doubled_cons (b : UInt8) (f : Bytes) :
    doubled (b :: f) = (if b = 34 then [34, 34] else [b]) ++ doubled f := rfl

theorem closed_cons {b : UInt8} (hb : b ≠ 34) (s : Bytes) :
    closed (b :: s) = (closed s).map fun (value, n) => (b :: value, n + 1) := by
  rcases s with _ | ⟨c, s⟩ <;> exact if_neg hb

theorem closed_doubled (f : Bytes) {s : Bytes} (hs : s.head? ≠ some 34) :
    closed (doubled f ++ 34 :: s) = some (f, (doubled f).length + 1) := by
  induction f with
  | nil =>
    rcases s with _ | ⟨c, s⟩
    · rfl
    · have hc : c ≠ 34 := fun h => hs (by rw [h]; rfl)
      simp [doubled, closed, hc]
  | cons b f ih =>
    by_cases hb : b = 34
    · rw [doubled_cons, if_pos hb, hb]
      simp only [cons_append, nil_append, closed, if_true, ih, Option.map_some, length_cons]
    · rw [doubled_cons, if_neg hb]
      simp only [cons_append, nil_append, closed_cons hb, ih, Option.map_some, length_cons]

theorem takeWhile_stop {p : UInt8 → Bool} {f : Bytes} {c : UInt8} {s : Bytes} (h : ∀ b ∈ f, p b = true) (hc : p c = false) :
    (f ++ c :: s).takeWhile p = f := by
  rw [takeWhile_append_of_pos h, takeWhile_cons_of_neg (by simp [hc]), append_nil]

variable {d : UInt8} {f w s : Bytes} {p : Place}

theorem quoted_field_read (hp : p.rest = 34 :: doubled f ++ [34] ++ s) (hs : s.head? ≠ some 34) :
    closed (p.rest.drop 1) = some (f, (doubled f).length + 1) ∧
      (past p (p.rest.take ((doubled f).length + 1 + 1))).rest = s := by
  have hrest : p.rest = 34 :: (doubled f ++ 34 :: s) := by simpa using hp
  have hlength : (p.rest.take ((doubled f).length + 1 + 1)).length = (doubled f).length + 1 + 1 := by
    rw [length_take, hrest]
    simp only [length_cons, length_append]
    omega
  constructor
  · rw [hrest]
    exact closed_doubled f hs
  · unfold past
    rw [hlength, hp]
    exact drop_left' (by simp)

theorem field_more (hd : Delimits d) (hw : Spells d w f) (hp : p.rest = w ++ d :: s) :
    ∃ p', field d p = .ok (f, .more, p') ∧ p'.rest = s := by
  cases hw with
  | plain h =>
    have htake : p.rest.takeWhile (fun b => !stops d b) = f := by
      rw [hp]
      exact takeWhile_stop (fun b hb => by simp [stops, h b hb]) (by simp [stops])
    have hhead : p.rest.head? ≠ some 34 := by
      rw [hp]
      rcases f with _ | ⟨b, f⟩
      · simpa using hd.quote
      · simpa using (h b mem_cons_self).2.1
    have hdrop : p.rest.drop f.length = d :: s := by rw [hp, drop_left]
    refine ⟨p.skip (f.length + 1), ?_, ?_⟩
    · rw [field, if_neg hhead, plain_field, htake, hdrop]
      dsimp only
      rw [if_neg hd.quote, if_neg hd.lf]
    · rw [Place.skip, ← drop_drop, hdrop]
      rfl
  | quoted =>
    have hs : (d :: s).head? ≠ some 34 := by simpa using hd.quote
    obtain ⟨hclosed, hpast⟩ := quoted_field_read hp hs
    refine ⟨(past p (p.rest.take ((doubled f).length + 1 + 1))).skip 1, ?_, ?_⟩
    · rw [field, if_pos (by rw [hp]; rfl), quoted_field, hclosed]
      dsimp only
      rw [hpast]
      exact if_pos rfl
    · rw [Place.skip, hpast]
      rfl

theorem field_broke (hd : Delimits d) (hw : Spells d w f) (e : LineEnd) (hp : p.rest = w ++ e.text ++ s) :
    ∃ p', field d p = .ok (f, .broke, p') ∧ p'.rest = s := by
  cases hw with
  | plain h =>
    have hplain : ∀ b ∈ f, (!stops d b) = true := fun b hb => by simp [stops, h b hb]
    have hhead : p.rest.head? ≠ some 34 := by
      rw [hp]
      rcases f with _ | ⟨b, f⟩
      · cases e <;> simp [LineEnd.text]
      · simpa using (h b mem_cons_self).2.1
    have hlast : f.getLast? ≠ some 13 := fun hl => (h 13 (mem_of_getLast? hl)).2.2.1 rfl
    rw [field, if_neg hhead, plain_field]
    cases e with
    | lf =>
      have hp' : p.rest = f ++ 10 :: s := by simpa [LineEnd.text] using hp
      have htake : p.rest.takeWhile (fun b => !stops d b) = f := by
        rw [hp']
        exact takeWhile_stop hplain (by simp [stops])
      have hdrop : p.rest.drop f.length = 10 :: s := by rw [hp', drop_left]
      refine ⟨p.skip (f.length + 1), ?_, ?_⟩
      · rw [htake, hdrop]
        dsimp only
        rw [if_neg (by decide), if_pos rfl, if_neg hlast]
      · rw [Place.skip, ← drop_drop, hdrop]
        rfl
    | crlf =>
      have hp' : p.rest = (f ++ [13]) ++ 10 :: s := by simpa [LineEnd.text] using hp
      have htake : p.rest.takeWhile (fun b => !stops d b) = f ++ [13] := by
        rw [hp']
        refine takeWhile_stop (fun b hb => ?_) (by simp [stops])
        rcases mem_append.mp hb with hb | hb
        · exact hplain b hb
        · rw [mem_singleton.mp hb]
          simp [stops, hd.cr.symm]
      have hdrop : p.rest.drop (f ++ [13]).length = 10 :: s := by rw [hp', drop_left]
      refine ⟨p.skip ((f ++ [13]).length + 1), ?_, ?_⟩
      · rw [htake, hdrop]
        dsimp only
        rw [if_neg (by decide), if_pos rfl, if_pos (by simp), dropLast_concat]
      · rw [Place.skip, ← drop_drop, hdrop]
        rfl
  | quoted =>
    have hs : (e.text ++ s).head? ≠ some 34 := by cases e <;> simp [LineEnd.text]
    obtain ⟨hclosed, hpast⟩ := quoted_field_read (by rw [hp, append_assoc]) hs
    have hread : field d p = quoted_field d p := by rw [field, if_pos (by rw [hp]; rfl)]
    rw [hread, quoted_field, hclosed]
    dsimp only
    rw [hpast]
    cases e with
    | lf =>
      refine ⟨_, (if_neg hd.lf.symm).trans (if_pos rfl), ?_⟩
      rw [Place.skip, hpast]
      rfl
    | crlf =>
      refine ⟨_, ((if_neg hd.cr.symm).trans (if_neg (by decide))).trans (if_pos ⟨rfl, rfl⟩), ?_⟩
      rw [Place.skip, hpast]
      rfl

/-! ## Lines -/

theorem joined_cons {ws : List Bytes} (h : ws ≠ []) (w : Bytes) : joined d (w :: ws) = w ++ d :: joined d ws := by
  rcases ws with _ | ⟨w', ws⟩
  · exact absurd rfl h
  · rfl

theorem fields_read (hd : Delimits d) (e : LineEnd) {ws fs : List Bytes} (h : Forall₂ (Spells d) ws fs) :
    ws ≠ [] → ∀ {p : Place} {s : Bytes} {fuel : ℕ}, fs.length ≤ fuel → p.rest = joined d ws ++ e.text ++ s →
      ∃ p', fields d fuel p = .ok (fs, true, p') ∧ p'.rest = s := by
  induction h with
  | nil => exact fun hne => absurd rfl hne
  | @cons w f ws fs hw hws ih =>
    intro _ p s fuel hfuel hp
    obtain ⟨fuel, rfl⟩ : ∃ k, fuel = k + 1 := ⟨fuel - 1, by simp only [length_cons] at hfuel; omega⟩
    rcases ws with _ | ⟨w', ws⟩
    · cases hws
      obtain ⟨p', hread, hrest⟩ := field_broke hd hw e hp
      exact ⟨p', by rw [fields, hread], hrest⟩
    · have hp' : p.rest = w ++ d :: (joined d (w' :: ws) ++ e.text ++ s) := by
        rw [hp, joined_cons (cons_ne_nil _ _)]
        simp
      obtain ⟨p', hread, hrest⟩ := field_more hd hw hp'
      obtain ⟨p'', hread', hrest'⟩ := ih (cons_ne_nil _ _) (Nat.le_of_succ_le_succ hfuel) hrest
      exact ⟨p'', by rw [fields, hread]; dsimp only; rw [hread'], hrest'⟩

theorem spells_head (h : Spells d w f) {b : UInt8} {u : Bytes} (hw : w = b :: u) : b ≠ 13 ∧ b ≠ 10 := by
  cases h with
  | plain hf => exact (hf b (by rw [hw]; exact mem_cons_self)).2.2
  | quoted =>
    obtain rfl : 34 = b := (List.cons.inj hw).1
    exact ⟨by decide, by decide⟩

theorem blank_joined (hd : Delimits d) {ws fs : List Bytes} (h : Forall₂ (Spells d) ws fs) (hne : joined d ws ≠ []) (s : Bytes) :
    blank (joined d ws ++ s) = none := by
  obtain ⟨b, u, hline, hb⟩ : ∃ b u, joined d ws = b :: u ∧ b ≠ 13 ∧ b ≠ 10 := by
    cases h with
    | nil => exact absurd rfl hne
    | @cons w f ws fs hw hws =>
      rcases w with _ | ⟨b, u⟩
      · have hws' : ws ≠ [] := fun h => hne (by rw [h]; rfl)
        exact ⟨d, joined d ws, by rw [joined_cons hws']; rfl, hd.cr, hd.lf⟩
      · rcases ws with _ | ⟨w', ws⟩
        · exact ⟨b, u, rfl, spells_head hw rfl⟩
        · exact ⟨b, _, rfl, spells_head hw rfl⟩
  rw [hline, cons_append, blank, if_neg hb.2, if_neg (fun h => hb.1 h.1)]

/-- The texts of records: each is a line with something on it. -/
inductive Written (d : UInt8) (e : LineEnd) : Bytes → List (List Bytes) → Prop where
  | nil : Written d e [] []
  | cons {ws fs : List Bytes} {t : Bytes} {records : List (List Bytes)} (h : Forall₂ (Spells d) ws fs)
      (hne : joined d ws ≠ []) (ht : Written d e t records) : Written d e (joined d ws ++ e.text ++ t) (fs :: records)

theorem text_length_pos (e : LineEnd) : 0 < e.text.length := by cases e <;> decide

theorem joined_length (ws : List Bytes) : ws.length ≤ (joined d ws).length + 1 := by
  induction ws with
  | nil => exact Nat.zero_le _
  | cons w ws ih =>
    rcases ws with _ | ⟨w', ws⟩
    · simp
    · rw [joined_cons (cons_ne_nil _ _)]
      simp only [length_cons, length_append] at ih ⊢
      omega

theorem Written.ne_nil {e : LineEnd} {t : Bytes} {records : List (List Bytes)} (h : Written d e t records) :
    ∀ record ∈ records, record ≠ [] := by
  induction h with
  | nil => exact nofun
  | cons h hne _ ih =>
    rintro record (_ | ⟨_, hmem⟩)
    · rintro rfl
      cases h
      exact hne rfl
    · exact ih record hmem

theorem records_read (hd : Delimits d) {e : LineEnd} {t : Bytes} {records : List (List Bytes)} (h : Written d e t records) :
    ∀ (p : Place) (fuel : ℕ), t.length < fuel → p.rest = t →
      ∃ lines, records_from d fuel p = .ok { records, lines } ∧ lines.length = records.length := by
  induction h with
  | nil =>
    intro p fuel hfuel hp
    obtain ⟨fuel, rfl⟩ : ∃ k, fuel = k + 1 := ⟨fuel - 1, by omega⟩
    exact ⟨[], by rw [records_from, if_pos hp], rfl⟩
  | @cons ws fs t records h hne ht ih =>
    intro p fuel hfuel hp
    obtain ⟨fuel, rfl⟩ : ∃ k, fuel = k + 1 := ⟨fuel - 1, by omega⟩
    have hrest : p.rest ≠ [] := by
      rw [hp]
      simp [hne]
    have hblank : blank p.rest = none := by
      rw [hp, append_assoc]
      exact blank_joined hd h hne _
    have hlength : fs.length ≤ p.rest.length + 1 := by
      rw [← h.length_eq, hp]
      have := joined_length (d := d) ws
      simp only [length_append]
      omega
    have hws : ws ≠ [] := fun hws => hne (by rw [hws]; rfl)
    obtain ⟨p', hread, hrest'⟩ := fields_read hd e h hws hlength hp
    have hfuel' : t.length < fuel := by
      have := text_length_pos e
      simp only [length_append] at hfuel
      omega
    obtain ⟨lines, hlines, hlen⟩ := ih p'.next_line fuel hfuel' hrest'
    refine ⟨p.line :: lines, ?_, by simp [hlen]⟩
    rw [records_from, if_neg hrest, hblank]
    rw [hread]
    dsimp only
    rw [if_pos rfl, hlines]

theorem fields_kept {records : List (List Bytes)} (h : ∀ record ∈ records, record ≠ []) {lines : List ℕ}
    (hlen : lines.length = records.length) :
    (((records.zip lines).filter (fun (record, _) => record.length > 0)).map
      fun (record, line) => ({ fields := record, line } : Record)).map (·.fields) = records := by
  have hall : (records.zip lines).filter (fun (record, _) => record.length > 0) = records.zip lines := by
    rw [List.filter_eq_self]
    rintro ⟨record, line⟩ hmem
    have hne := h record (of_mem_zip hmem).1
    simpa using length_pos_iff.mpr hne
  rw [hall, map_map]
  exact map_fst_zip hlen.ge

variable {e : LineEnd} {t : Bytes} {records : List (List Bytes)} {opts : Options}

theorem parse_eq (hopts : delimiter_of opts.delimiter = .ok d) (text : Bytes) :
    parse text opts = (located text d).map (·.map (·.fields)) := by
  rw [parse, hopts]
  dsimp only
  cases located text d <;> rfl

theorem parse_written (hopts : delimiter_of opts.delimiter = .ok d) (h : Written d e t records) (hmark : t.take 3 ≠ BOM) :
    parse t opts = .ok records := by
  obtain ⟨lines, hread, hlen⟩ := records_read (delimits_of hopts) h ⟨t, 1, 1, 1⟩ (t.length + 1)
    (Nat.lt_succ_self _) rfl
  rw [parse_eq hopts, located, read, if_neg hmark]
  rw [show t.drop (1 - 1) = t from rfl, hread]
  exact congrArg Except.ok (fields_kept h.ne_nil hlen)

theorem parse_marked (hopts : delimiter_of opts.delimiter = .ok d) (h : Written d e t records) :
    parse (BOM ++ t) opts = .ok records := by
  obtain ⟨lines, hread, hlen⟩ := records_read (delimits_of hopts) h ⟨t, 4, 1, 4⟩
    ((BOM ++ t).length + 1) (by simp only [length_append]; omega) rfl
  rw [parse_eq hopts, located, read, if_pos (by rfl)]
  rw [show (BOM ++ t).drop (4 - 1) = t from rfl, hread]
  exact congrArg Except.ok (fields_kept h.ne_nil hlen)

theorem parse_marked_blank (hopts : delimiter_of opts.delimiter = .ok d) (h : Written d e t records) :
    parse (BOM ++ (e.text ++ t)) opts = .ok records := by
  have hblank : blank (e.text ++ t) = some e.text.length := by cases e <;> rfl
  have hne : e.text ++ t ≠ [] := by cases e <;> exact cons_ne_nil _ _
  obtain ⟨lines, hread, hlen⟩ := records_read (delimits_of hopts) h
    ((⟨e.text ++ t, 4, 1, 4⟩ : Place).skip e.text.length).next_line (BOM ++ (e.text ++ t)).length (by simp [BOM]; omega) (by exact drop_left)
  rw [parse_eq hopts, located, read, if_pos (by rfl)]
  rw [show (BOM ++ (e.text ++ t)).drop (4 - 1) = e.text ++ t from rfl, records_from, if_neg hne, hblank]
  dsimp only
  rw [hread]
  exact congrArg Except.ok (fields_kept h.ne_nil hlen)

/-! ## What is written -/

/-- What a caller that joins the fields itself writes: each record's fields between delimiters, and LF after each. -/
def field_lines (opts : FieldOptions) : List (List Bytes) → Except Bytes Bytes
  | [] => .ok []
  | record :: records =>
    match delimiter_of opts.delimiter, record.mapM (fun field => encode_field field opts), field_lines opts records with
    | .ok delimiter, .ok fields, .ok rest => .ok (joined delimiter fields ++ LineEnd.lf.text ++ rest)
    | .error why, _, _ => .error why
    | _, .error why, _ => .error why
    | _, _, .error why => .error why

theorem quoted_cases (f : Bytes) (quote_empty : Bool) : quoted f d quote_empty = 34 :: doubled f ++ [34] ∨
      (quoted f d quote_empty = f ∧ Plain d f ∧ f.take 3 ≠ BOM ∧ ¬(quote_empty = true ∧ f = [])) := by
  unfold quoted
  split_ifs with h
  · exact .inl rfl
  push Not at h
  refine .inr ⟨rfl, ?_, h.2.2.1, fun hq => h.2.2.2 hq.1 hq.2⟩
  intro b hb
  refine ⟨fun hbd => h.1 (by rw [← hbd]; exact contains_iff_mem.mpr hb), ?_⟩
  have hb' : ¬(b = 34 ∨ b = 13 ∨ b = 10) := fun hb' =>
    h.2.1 (any_eq_true.mpr ⟨b, hb, by simpa [or_assoc] using hb'⟩)
  push Not at hb'
  exact hb'

theorem quoted_spells (f : Bytes) (quote_empty : Bool) : Spells d (quoted f d quote_empty) f := by
  rcases quoted_cases f quote_empty with hq | ⟨hq, hplain, -⟩
  · rw [hq]
    exact .quoted f
  · rw [hq]
    exact .plain hplain

def line (d : UInt8) (quote_empty : Bool) (record : List Bytes) : Bytes :=
  joined d (record.map fun f => quoted f d quote_empty)

theorem line_spells (quote_empty : Bool) (record : List Bytes) :
    Forall₂ (Spells d) (record.map fun f => quoted f d quote_empty) record := by
  rw [forall₂_map_left_iff]
  exact forall₂_same.mpr fun f _ => quoted_spells f quote_empty

theorem line_ne_nil {quote_empty : Bool} {record : List Bytes} (hne : record ≠ [])
    (h : record.length = 1 → quote_empty = true) : line d quote_empty record ≠ [] := by
  rcases record with _ | ⟨f, _ | ⟨g, record⟩⟩
  · exact absurd rfl hne
  · have hquote := h rfl
    subst hquote
    rw [line, map_singleton, joined, quoted]
    split_ifs with h
    · exact cons_ne_nil _ _
    · exact fun hf => h (.inr (.inr (.inr ⟨rfl, hf⟩)))
  · rw [line, map_cons, map_cons, joined_cons (cons_ne_nil _ _)]
    exact fun h => cons_ne_nil _ _ (append_eq_nil_iff.mp h).2

/-- The lines of records, each by its own rule for the empty field. -/
def text_of (d : UInt8) (e : LineEnd) (quote_empty : List Bytes → Bool) (records : List (List Bytes)) : Bytes :=
  (records.map fun record => line d (quote_empty record) record ++ e.text).flatten

theorem text_of_cons (quote_empty : List Bytes → Bool) (record : List Bytes) :
    text_of d e quote_empty (record :: records) = line d (quote_empty record) record ++ e.text ++ text_of d e quote_empty records :=
  rfl

theorem text_written {quote_empty : List Bytes → Bool}
    (h : ∀ record ∈ records, record ≠ [] ∧ (record.length = 1 → quote_empty record = true)) :
    Written d e (text_of d e quote_empty records) records := by
  induction records with
  | nil => exact .nil
  | cons record records ih =>
    rw [text_of_cons]
    have hrecord := h record mem_cons_self
    exact .cons (line_spells _ record) (line_ne_nil hrecord.1 hrecord.2) (ih fun r hr => h r (mem_cons_of_mem _ hr))

theorem encode_lines_eq (h : ∀ record ∈ records, record ≠ []) (number : ℕ) : encode_lines d e.text number records =
      .ok (records.map fun record => line d (record.length == 1) record ++ e.text) := by
  induction records generalizing number with
  | nil => rfl
  | cons record records ih =>
    have hne : record.length ≠ 0 := fun h0 => h record mem_cons_self (length_eq_zero_iff.mp h0)
    rw [encode_lines, if_neg hne, ih fun r hr => h r (mem_cons_of_mem _ hr)]
    rfl

theorem encode_eq (hopts : delimiter_of opts.delimiter = .ok d) (h : ∀ record ∈ records, record ≠ []) :
    encode records opts = .ok (text_of d (opts.line_end.getD .lf) (fun record => record.length == 1) records) := by
  rw [encode, hopts]
  dsimp only
  rw [encode_lines_eq h]
  rfl

theorem field_lines_eq {fopts : FieldOptions} (hopts : delimiter_of fopts.delimiter = .ok d) (records : List (List Bytes)) :
    field_lines fopts records = .ok (text_of d .lf (fun _ => fopts.quote_empty) records) := by
  have hfield : ∀ f, encode_field f fopts = .ok (quoted f d fopts.quote_empty) := fun f => by rw [encode_field, hopts]
  have hfields : ∀ record : List Bytes, record.mapM (fun f => encode_field f fopts) =
      .ok (record.map fun f => quoted f d fopts.quote_empty) := by
    intro record
    induction record with
    | nil => rfl
    | cons f record ih =>
      rw [mapM_cons, hfield, ih]
      rfl
  induction records with
  | nil => rfl
  | cons record records ih =>
    rw [field_lines, hopts, hfields, ih]
    rfl

/-! ## The byte order mark -/

/-- The first two fields of the first record spell a byte order mark with the delimiter between them. -/
def spells_mark (d : UInt8) (quote_empty : Bool) : List (List Bytes) → Bool
  | (f :: g :: _) :: _ =>
    (d == 0xBF && f == [0xEF, 0xBB]) || (d == 0xBB && f == [0xEF] && g.take 1 == [0xBF] && decide (Plain d g)) ||
      (d == 0xEF && f == [] && !quote_empty && g.take 2 == [0xBB, 0xBF] && decide (Plain d g))
  | _ => false

theorem quoted_plain {quote_empty : Bool} (hf : Plain d f) (hmark : f.take 3 ≠ BOM)
    (hempty : ¬(quote_empty = true ∧ f = [])) : quoted f d quote_empty = f := by
  rw [quoted, if_neg]
  rintro (h | h | h | h)
  · exact (hf d (contains_iff_mem.mp h)).1 rfl
  · obtain ⟨b, hb, hspecial⟩ := any_eq_true.mp h
    have := hf b hb
    simp [this] at hspecial
  · exact hmark h
  · exact hempty h

theorem mark_across {c : UInt8} {u : Bytes} (h : (f ++ c :: u).take 3 = BOM) (hf : f.take 3 ≠ BOM) :
    (f = [] ∧ c = 0xEF ∧ u.take 2 = [0xBB, 0xBF]) ∨ (f = [0xEF] ∧ c = 0xBB ∧ u.take 1 = [0xBF]) ∨
      (f = [0xEF, 0xBB] ∧ c = 0xBF) := by
  rcases f with _ | ⟨x, _ | ⟨y, _ | ⟨z, f⟩⟩⟩
  · simp [BOM] at h
    exact .inl ⟨rfl, h.1, h.2⟩
  · simp [BOM] at h
    exact .inr (.inl ⟨by rw [h.1], h.2.1, h.2.2⟩)
  · simp [BOM] at h
    exact .inr (.inr ⟨by rw [h.1, h.2.1], h.2.2⟩)
  · exact absurd (by simpa using h) hf

theorem line_cons (quote_empty : Bool) (f : Bytes) (record : List Bytes) (e : LineEnd) (s : Bytes) :
    ∃ c u, line d quote_empty (f :: record) ++ e.text ++ s = quoted f d quote_empty ++ c :: u ∧
      ((record = [] ∧ (c = 13 ∨ c = 10)) ∨ (record ≠ [] ∧ c = d ∧ u = line d quote_empty record ++ e.text ++ s)) := by
  rcases record with _ | ⟨g, record⟩
  · cases e with
    | lf => exact ⟨10, s, by simp [line, joined, LineEnd.text], .inl ⟨rfl, .inr rfl⟩⟩
    | crlf => exact ⟨13, 10 :: s, by simp [line, joined, LineEnd.text], .inl ⟨rfl, .inl rfl⟩⟩
  · refine ⟨d, line d quote_empty (g :: record) ++ e.text ++ s, ?_, .inr ⟨cons_ne_nil _ _, rfl, rfl⟩⟩
    rw [line, map_cons, joined_cons (by simp)]
    simp [line]

theorem line_head {quote_empty : Bool} {g : Bytes} {record : List Bytes} {s m : Bytes} (hm : m ≠ [])
    (hmark : ∀ b ∈ m, b ≠ d ∧ b ≠ 34 ∧ b ≠ 13 ∧ b ≠ 10)
    (h : (line d quote_empty (g :: record) ++ e.text ++ s).take m.length = m) :
    g.take m.length = m ∧ Plain d g := by
  obtain ⟨c, u, hline, hc⟩ := line_cons quote_empty g record e s
  rw [hline] at h
  have hcm : c ∉ m := by
    intro hmem
    have := hmark c hmem
    rcases hc with ⟨-, hc⟩ | ⟨-, hc, -⟩
    · rcases hc with hc | hc
      · exact this.2.2.1 hc
      · exact this.2.2.2 hc
    · exact this.1 hc
  rcases quoted_cases g quote_empty with hq | ⟨hq, hplain, -⟩
  · -- a quote is no byte of the mark
    rw [hq] at h
    obtain ⟨b, m, rfl⟩ := exists_cons_of_ne_nil hm
    obtain rfl : 34 = b := by simpa using (List.cons.inj h).1
    exact absurd rfl (hmark 34 mem_cons_self).2.1
  · rw [hq] at h
    refine ⟨?_, hplain⟩
    by_cases hlen : m.length ≤ g.length
    · rwa [take_append_of_le_length hlen] at h
    · refine absurd ?_ hcm
      rw [← h, take_append, mem_append]
      obtain ⟨k, hk⟩ : ∃ k, m.length - g.length = k + 1 := ⟨m.length - g.length - 1, by omega⟩
      rw [hk, take_succ_cons]
      exact .inr mem_cons_self

theorem joined_byte (b : UInt8) (w : Bytes) (ws : List Bytes) : joined d ((b :: w) :: ws) = b :: joined d (w :: ws) := by
  rcases ws with _ | ⟨w', ws⟩ <;> rfl

theorem line_marked {q : Bool} {record : List Bytes} (h : spells_mark d q (record :: records) = true) :
    ∃ ws gs, line d q record = BOM ++ joined d ws ∧ Forall₂ (Spells d) ws gs ∧ gs.length < record.length := by
  rcases record with _ | ⟨f, _ | ⟨g, record⟩⟩
  · cases h
  · cases h
  have hrecord := line_spells (d := d) q record
  simp only [spells_mark, Bool.or_eq_true, Bool.and_eq_true, beq_iff_eq, decide_eq_true_eq, Bool.not_eq_true'] at h
  rw [line, map_cons, map_cons, joined_cons (cons_ne_nil _ _)]
  rcases h with (⟨rfl, rfl⟩ | ⟨⟨⟨rfl, rfl⟩, hg⟩, hplain⟩) | ⟨⟨⟨⟨rfl, rfl⟩, rfl⟩, hg⟩, hplain⟩
  · -- the delimiter ends the mark
    refine ⟨_, g :: record, ?_, .cons (quoted_spells g q) hrecord, by simp⟩
    rw [quoted_plain (by decide) (by decide) (by simp)]
    rfl
  · -- the delimiter is the mark's second byte
    obtain ⟨b, g, rfl⟩ : ∃ b g', g = b :: g' := exists_cons_of_ne_nil (by rintro rfl; exact absurd hg (by decide))
    obtain rfl : b = 0xBF := (List.cons.inj hg).1
    refine ⟨_, g :: record, ?_, .cons (.plain fun b hb => hplain b (mem_cons_of_mem _ hb)) hrecord, by simp⟩
    have hmark : (0xBF :: g).take 3 ≠ BOM := fun h => absurd (List.cons.inj h).1 (by decide)
    rw [quoted_plain (by decide) (by decide) (by simp), quoted_plain hplain hmark (by simp), joined_byte]
    rfl
  · -- the delimiter begins the mark
    obtain ⟨b, c, g, rfl⟩ : ∃ b c g', g = b :: c :: g' := by
      rcases g with _ | ⟨b, _ | ⟨c, g⟩⟩
      · cases hg
      · cases hg
      · exact ⟨b, c, g, rfl⟩
    obtain ⟨rfl, hc⟩ := List.cons.inj hg
    obtain rfl : c = 0xBF := (List.cons.inj hc).1
    refine ⟨_, g :: record, ?_,
      .cons (.plain fun b hb => hplain b (mem_cons_of_mem _ (mem_cons_of_mem _ hb))) hrecord, by simp⟩
    have hmark : (0xBB :: 0xBF :: g).take 3 ≠ BOM := fun h => absurd (List.cons.inj h).1 (by decide)
    rw [quoted_plain (by decide) (by decide) (by simp), quoted_plain hplain hmark (by simp), joined_byte, joined_byte]
    rfl

theorem mark_spelled {quote_empty : List Bytes → Bool} {q : Bool}
    (hq : ∀ record ∈ records, 2 ≤ record.length → quote_empty record = q) (hne : ∀ record ∈ records, record ≠ [])
    (h : (text_of d e quote_empty records).take 3 = BOM) : spells_mark d q records = true := by
  rcases records with _ | ⟨record, records⟩
  · cases h
  obtain ⟨f, record, rfl⟩ := exists_cons_of_ne_nil (hne record mem_cons_self)
  obtain ⟨c, u, hline, hc⟩ := line_cons (d := d) (quote_empty (f :: record)) f record e (text_of d e quote_empty records)
  rw [text_of_cons, hline] at h
  rcases quoted_cases (d := d) f (quote_empty (f :: record)) with hf | ⟨hf, -, hmark, hempty⟩
  · -- a quote begins no mark
    rw [hf] at h
    exact absurd (List.cons.inj h).1 (by decide)
  rw [hf] at h
  have hacross := mark_across h hmark
  rcases hc with ⟨rfl, hc⟩ | ⟨hrecord, rfl, hu⟩
  · -- a field alone, then the end of its line
    rcases hacross with ⟨-, h, -⟩ | ⟨-, h, -⟩ | ⟨-, h⟩ <;> rcases hc with rfl | rfl <;> cases h
  obtain ⟨g, record, rfl⟩ := exists_cons_of_ne_nil hrecord
  rw [hq _ mem_cons_self (by simp only [length_cons]; omega)] at hu hempty
  rw [hu] at hacross
  rcases hacross with ⟨rfl, rfl, hnext⟩ | ⟨rfl, rfl, hnext⟩ | ⟨rfl, rfl⟩
  · obtain ⟨hg, hplain⟩ := line_head (m := [0xBB, 0xBF]) (cons_ne_nil _ _) (by simp) hnext
    have hq' : q = false := by simpa using hempty
    rw [show ([0xBB, 0xBF] : Bytes).length = 2 from rfl] at hg
    simp [spells_mark, hq', hg, hplain]
  · obtain ⟨hg, hplain⟩ := line_head (m := [0xBF]) (cons_ne_nil _ _) (by simp) hnext
    rw [show ([0xBF] : Bytes).length = 1 from rfl] at hg
    simp [spells_mark, hg, hplain]
  · simp [spells_mark]

theorem parse_text_iff (hopts : delimiter_of opts.delimiter = .ok d) (e : LineEnd) {quote_empty : List Bytes → Bool} {q : Bool}
    (hq : ∀ record ∈ records, 2 ≤ record.length → quote_empty record = q)
    (h : ∀ record ∈ records, record ≠ [] ∧ (record.length = 1 → quote_empty record = true)) :
    parse (text_of d e quote_empty records) opts = .ok records ↔ spells_mark d q records = false := by
  constructor
  · intro hparse
    rw [← Bool.not_eq_true]
    intro hspelled
    rcases records with _ | ⟨record, records⟩
    · cases hspelled
    have htwo : 2 ≤ record.length := by
      rcases record with _ | ⟨f, _ | ⟨g, record⟩⟩
      · cases hspelled
      · cases hspelled
      · simp only [length_cons]
        omega
    obtain ⟨ws, gs, hline, hws, hlt⟩ := line_marked hspelled
    have hrest := text_written (d := d) (e := e) fun r hr => h r (mem_cons_of_mem _ hr)
    rw [text_of_cons, hq _ mem_cons_self htwo, hline, append_assoc, append_assoc] at hparse
    by_cases hne : joined d ws = []
    · -- the record is lost
      rw [hne, nil_append, parse_marked_blank hopts hrest] at hparse
      exact absurd (congrArg List.length (ok.inj hparse)) (by simp)
    · -- a field of the record is lost
      rw [← append_assoc (joined d ws), parse_marked hopts (.cons hws hne hrest)] at hparse
      have hsame := (List.cons.inj (ok.inj hparse)).1
      rw [hsame] at hlt
      exact absurd hlt (lt_irrefl _)
  · intro hspelled
    refine parse_written hopts (text_written h) fun hmark => ?_
    rw [mark_spelled hq (fun r hr => (h r hr).1) hmark] at hspelled
    cases hspelled

/-- `parse` reads back what `encode` wrote, and what joining the fields that `encode_field` wrote gives, just where the
first fields and the delimiter do not spell a byte order mark. -/
theorem encode_parse_iff (hopts : delimiter_of opts.delimiter = .ok d) (h : ∀ record ∈ records, record ≠ []) :
    ((∃ text, encode records opts = .ok text ∧ parse text opts = .ok records) ↔ spells_mark d false records = false) ∧
      ∀ quote_empty, (∀ record ∈ records, 2 ≤ record.length) →
        ((∃ text, field_lines ⟨opts.delimiter, quote_empty⟩ records = .ok text ∧ parse text opts = .ok records) ↔
          spells_mark d quote_empty records = false) := by
  constructor
  · rw [encode_eq hopts h]
    have hfalse : ∀ record ∈ records, 2 ≤ record.length → (record.length == 1) = false := fun record _ htwo => by
      simp
      omega
    have hone : ∀ record ∈ records, record ≠ [] ∧ (record.length = 1 → (record.length == 1) = true) := fun record hr =>
      ⟨h record hr, fun hone => by simp [hone]⟩
    rw [← parse_text_iff hopts (opts.line_end.getD .lf) hfalse hone]
    exact ⟨fun ⟨text, htext, hparse⟩ => by rwa [← ok.inj htext] at hparse, fun hparse => ⟨_, rfl, hparse⟩⟩
  · intro quote_empty htwo
    rw [field_lines_eq hopts]
    have hsame : ∀ record ∈ records, 2 ≤ record.length → (fun _ : List Bytes => quote_empty) record = quote_empty :=
      fun _ _ _ => rfl
    have hone : ∀ record ∈ records, record ≠ [] ∧ (record.length = 1 → (fun _ : List Bytes => quote_empty) record = true) :=
      fun record hr => ⟨h record hr, fun hone => absurd (htwo record hr) (by omega)⟩
    rw [← parse_text_iff hopts .lf hsame hone]
    exact ⟨fun ⟨text, htext, hparse⟩ => by rwa [← ok.inj htext] at hparse, fun hparse => ⟨_, rfl, hparse⟩⟩

/-- Two fields, `EF` and `BF`, with `BB` between them. -/
def marked : List (List Bytes) := [[[0xEF], [0xBF]]]

theorem encode_parse_iff_marked : spells_mark 0xBB false marked = true ∧
      ((∃ text, encode marked { delimiter := some [0xBB] } = .ok text ∧ parse text { delimiter := some [0xBB] } = .ok marked) ↔
        spells_mark 0xBB false marked = false) :=
  ⟨by decide, (@encode_parse_iff 0xBB marked { delimiter := some [0xBB] } rfl (by decide)).1⟩

/-- `encode` writes the two fields as a byte order mark, and `parse` reads nothing. -/
theorem encode_marked_lost : encode marked { delimiter := some [0xBB] } = .ok [0xEF, 0xBB, 0xBF, 10] ∧
      parse [0xEF, 0xBB, 0xBF, 10] { delimiter := some [0xBB] } = .ok [] ∧ marked ≠ [] := by
  decide +kernel

/-- A text that is read is written again as one that reads the same, under a delimiter that is no byte of the mark. -/
theorem rewritten (hopts : delimiter_of opts.delimiter = .ok d) (hd : d ∉ BOM) (h : parse t opts = .ok records) :
    ∃ written, encode records opts = .ok written ∧ parse written opts = .ok records := by
  have hne : ∀ record ∈ records, record ≠ [] := by
    rw [parse_eq hopts, located] at h
    split at h
    · cases h
    · cases h
      intro record hr
      simp only [mem_map, List.mem_filter, decide_eq_true_eq] at hr
      obtain ⟨_, ⟨r, ⟨-, hpos⟩, rfl⟩, rfl⟩ := hr
      exact length_pos_iff.mp hpos
  have hmark : spells_mark d false records = false := by
    simp only [BOM, mem_cons, not_or] at hd
    unfold spells_mark
    split
    · simp [hd]
    · rfl
  refine ⟨_, encode_eq hopts hne, (parse_text_iff hopts _ (fun record _ htwo => ?_) fun record hr => ⟨hne record hr, ?_⟩).mpr hmark⟩
  · simpa using Nat.ne_of_gt htwo
  · exact beq_iff_eq.mpr

theorem rewritten_blank : ∃ written, encode [[[97], []]] {} = .ok written ∧ parse written {} = .ok [[[97], []]] :=
  rewritten (t := [10, 34, 97, 34, 44]) rfl (by decide) (by decide +kernel)

end Cosmic.Csv
