/-
`records`, `table` and the names of columns, and the places of what is read.

A reader's place follows from the bytes before it alone: its line by the line feeds among them, its column by those
after the last. So what a reader says of a line or a column can be counted in the text.
-/
import Cosmic.Base.Parts
import Cosmic.Csv.RoundTrip
import Mathlib.Data.List.DropRight
import Mathlib.Data.List.Nodup
import Mathlib.Data.List.Perm.Subperm

set_option autoImplicit false

namespace Cosmic.Csv

open Cosmic.Base List

/-! ## Records -/

/-- `Csv.records(text, opts)` -/
def records (text : Bytes) (opts : Options) : Except Bytes (List Record) :=
  match delimiter_of opts.delimiter with
  | .error why => .error why
  | .ok delimiter => located text delimiter

/-! ## Column names -/

def own_name (field : Bytes) : Bytes := if field = [] then lit "_" else field.map fun b => if b = 0 then 95 else b

def candidate (name : Bytes) (number : ℕ) : Bytes := if number = 1 then name else name ++ lit "_" ++ tostring number

/-- The first candidate from `number` on that is not taken, of `fuel` more at most. -/
def next_free (taken : List Bytes) (name : Bytes) : ℕ → ℕ → Bytes
  | 0, number => candidate name number
  | fuel + 1, number =>
    if lower (candidate name number) ∈ taken then next_free taken name fuel (number + 1) else candidate name number

def names_from (taken : List Bytes) : List Bytes → List Bytes
  | [] => []
  | field :: header =>
    let name := next_free taken (own_name field) taken.length 1
    name :: names_from (lower name :: taken) header

/-- `Csv.column_names(header, reserved)` -/
def column_names (header reserved : List Bytes) : List Bytes := names_from (reserved.map lower) header

/-! ## Rows -/

/-- What `table` answers: each row is its columns' names and what is in them. -/
structure Table where
  columns : List Bytes
  rows : List (List (Bytes × Bytes))
  lines : List ℕ
deriving DecidableEq, Repr

def Table.empty : Table := { columns := [], rows := [], lines := [] }

/-- A record of no fields: a blank line. -/
def is_blank (r : List Bytes × ℕ) : Bool := r.1.length == 0

def width_refusal (line width columns : ℕ) : Bytes :=
  refuse (at_place line 1 ++ lit ": the record has " ++ tostring width ++
    (if width = 1 then lit " field" else lit " fields") ++ lit ", the header " ++ tostring columns)

def rows_of (names : List Bytes) : List (List Bytes × ℕ) → Except Bytes Table
  | [] => .ok { columns := names, rows := [], lines := [] }
  | (record, line) :: rest =>
    if record.length = 0 then
      match rows_of names rest with
      | .error why => .error why
      | .ok t =>
        .ok (if names.length = 1 then { t with rows := names.zip [[]] :: t.rows, lines := line :: t.lines } else t)
    else if record.length ≠ names.length then .error (width_refusal line record.length names.length)
    else
      match rows_of names rest with
      | .error why => .error why
      | .ok t => .ok { t with rows := names.zip record :: t.rows, lines := line :: t.lines }

/-- `Csv.table(text, opts)` -/
def table (text : Bytes) (opts : Options) : Except Bytes Table :=
  match delimiter_of opts.delimiter with
  | .error why => .error why
  | .ok delimiter =>
    match read text delimiter with
    | .error why => .error why
    | .ok scan =>
      match (scan.records.zip scan.lines).dropWhile is_blank with
      | [] => .ok .empty
      | (header, _) :: body =>
        let names := column_names header []
        -- Blank lines after the last record are the file's end.
        rows_of names (if names.length = 1 then body.rdropWhile is_blank else body)

/-! ## Counting -/

/-- The line of what comes after `before`. -/
def line_after (before : Bytes) : ℕ := before.count 10 + 1

/-- The column of what comes after `before`. -/
def column_after (before : Bytes) : ℕ := (before.reverse.takeWhile (· != 10)).length + 1

/-- The byte order mark of `text`, or none. -/
def mark (text : Bytes) : Bytes := if text.take 3 = BOM then BOM else []

/-- The place after `before`, where `rest` is left. -/
def place (m before rest : Bytes) : Place where
  rest := rest
  pos := m.length + before.length + 1
  line := line_after before
  line_start := m.length + before.length + 1 - (before.reverse.takeWhile (· != 10)).length

section

variable {m before s t : Bytes} {d : UInt8}

end

/-! ## Places read -/

/-- What is wrong where `rest` begins, in the words of `why`. -/
inductive Fault (d : UInt8) : Bytes → Bytes → Prop
  | unclosed {s : Bytes} (h : closed s = none) : Fault d (34 :: s) (lit "unclosed quote opened at ")
  | after {b : UInt8} {s : Bytes} (hd : b ≠ d) (hlf : b ≠ 10) (hcr : ¬(b = 13 ∧ s.head? = some 10)) :
      Fault d (b :: s) (lit "after a closing quote, expected the delimiter or the end of the line at ")
  | inside {s : Bytes} : Fault d (34 :: s) (lit "a quote inside an unquoted field at ")

/-- `why` is of a fault in `rest`, at its line and column. -/
def Faulty (d : UInt8) (before rest why : Bytes) : Prop :=
  ∃ s t what, rest = s ++ t ∧ Fault d t what ∧
    why = refuse (what ++ at_place (line_after (before ++ s)) (column_after (before ++ s)))

/-- A place past some of `rest`, past its line break where `broke`, and further on where `moved`. -/
def Past (m before rest : Bytes) (moved : Prop) (broke : Bool) (p : Place) : Prop :=
  ∃ s t, rest = s ++ t ∧ (moved → s ≠ []) ∧ (if broke then p.next_line else p) = place m (before ++ s) t

section

variable {m before rest why : Bytes} {d : UInt8}

theorem Faulty.shift {s t : Bytes} (h : Faulty d (before ++ s) t why) : Faulty d before (s ++ t) why := by
  obtain ⟨s', t', what, rfl, hfault, rfl⟩ := h
  exact ⟨s ++ s', t', what, (append_assoc _ _ _).symm, hfault, by rw [append_assoc]⟩

/-- What a field read from a place is. -/
def Placed (d : UInt8) (m before rest : Bytes) : Except Bytes (Bytes × After × Place) → Prop
  | .ok (_, a, p) => Past m before rest (rest ≠ []) (a = .broke) p
  | .error why => Faulty d before rest why

theorem Placed.one {value : Bytes} {a : After} {s t : Bytes} {p : Place} (hne : s ++ t ≠ [] → s ≠ [])
    (h : (if a = .broke then p.next_line else p) = place m (before ++ s) t) :
    Placed d m before (s ++ t) (.ok (value, a, p)) := ⟨s, t, rfl, hne, by simpa using h⟩

theorem Placed.two {value : Bytes} {a : After} {s u t : Bytes} {p : Place} (hne : s ≠ [])
    (h : (if a = .broke then p.next_line else p) = place m (before ++ s ++ u) t) :
    Placed d m before (s ++ (u ++ t)) (.ok (value, a, p)) := by
  rw [← append_assoc]
  exact Placed.one (fun _ => append_ne_nil_of_left_ne_nil hne _) (by rwa [append_assoc] at h)

/-- What is read from a place on: each record, and those after it, is what is read from a place on. -/
def Located (d : UInt8) (m before rest : Bytes) : Except Bytes Scan → Prop
  | .ok scan => scan.lines.length = scan.records.length ∧ ∀ i < scan.records.length, ∃ s t fuel,
      rest = s ++ t ∧ t ≠ [] ∧ t.length < fuel ∧ scan.lines[i]? = some (line_after (before ++ s)) ∧
        records_from d fuel (place m (before ++ s) t) = .ok ⟨scan.records.drop i, scan.lines.drop i⟩
  | .error why => Faulty d before rest why

theorem Located.step {s t : Bytes} (record : List Bytes) {fuel fuel' : ℕ} (hs : s ≠ []) (hfuel : (s ++ t).length < fuel)
    (hread : records_from d fuel (place m before (s ++ t)) =
      (records_from d fuel' (place m (before ++ s) t)).map fun scan => ⟨record :: scan.records, line_after before :: scan.lines⟩)
    (h : Located d m (before ++ s) t (records_from d fuel' (place m (before ++ s) t))) :
    Located d m before (s ++ t) (records_from d fuel (place m before (s ++ t))) := by
  rw [hread]
  generalize records_from d fuel' (place m (before ++ s) t) = r at h hread
  match r with
  | .error why => exact h.shift
  | .ok scan =>
    refine ⟨congrArg (· + 1) h.1, fun i hi => ?_⟩
    cases i with
    | zero => exact ⟨[], s ++ t, fuel, rfl, append_ne_nil_of_left_ne_nil hs _, hfuel, by rw [append_nil]; rfl,
        by rw [append_nil]; exact hread⟩
    | succ i =>
      obtain ⟨s', t', fuel', rfl, hne', hfuel', hline, hrest⟩ := h.2 i (Nat.lt_of_succ_lt_succ hi)
      rw [append_assoc] at hline hrest
      exact ⟨s ++ s', t', fuel', (append_assoc _ _ _).symm, hne', hfuel', hline, hrest⟩

end

/-! ## Names found -/

/-- `name` is the first of the candidates of `field` that folds to nothing `taken`. -/
def Named (taken : List Bytes) (field name : Bytes) : Prop :=
  ∃ n, 1 ≤ n ∧ name = candidate (own_name field) n ∧ lower name ∉ taken ∧
    ∀ i, 1 ≤ i → i < n → lower (candidate (own_name field) i) ∈ taken

theorem Named.congr {taken taken' : List Bytes} {field name : Bytes} (h : ∀ x, x ∈ taken ↔ x ∈ taken')
    (hn : Named taken field name) : Named taken' field name := by
  obtain ⟨n, h₁, rfl, hfree, hleast⟩ := hn
  exact ⟨n, h₁, rfl, fun hmem => hfree ((h _).mpr hmem), fun i h₁ h₂ => (h _).mp (hleast i h₁ h₂)⟩

theorem Named.own {taken : List Bytes} {field name : Bytes} (h : Named taken field name) (hfree : lower (own_name field) ∉ taken) :
    name = own_name field := by
  obtain ⟨n, h₁, rfl, -, hleast⟩ := h
  rcases Nat.eq_or_lt_of_le h₁ with rfl | hlt
  · exact if_pos rfl
  · exact absurd (hleast 1 le_rfl hlt) hfree

/-- The records that make rows under `columns` columns: a blank line is a row of one empty field or none. -/
def kept (columns : ℕ) (body : List (List Bytes × ℕ)) : List (List Bytes × ℕ) :=
  if columns = 1 then body.map fun r => if is_blank r then ([[]], r.2) else r else body.filter fun r => !is_blank r

/-- `why` is of the first of the records that is not as wide as the header. -/
def Ragged (columns : ℕ) (body : List (List Bytes × ℕ)) (why : Bytes) : Prop :=
  ∃ front r back, body = front ++ r :: back ∧ (∀ r ∈ front, ¬is_blank r → r.1.length = columns) ∧
    ¬is_blank r ∧ r.1.length ≠ columns ∧ why = width_refusal r.2 r.1.length columns

theorem Ragged.cons {columns : ℕ} {body : List (List Bytes × ℕ)} {why : Bytes} {r : List Bytes × ℕ}
    (h : Ragged columns body why) (hr : ¬is_blank r → r.1.length = columns) : Ragged columns (r :: body) why := by
  obtain ⟨front, r', back, rfl, hfront, hbad⟩ := h
  exact ⟨r :: front, r', back, rfl, forall_mem_cons.mpr ⟨hr, hfront⟩, hbad⟩

end Cosmic.Csv
