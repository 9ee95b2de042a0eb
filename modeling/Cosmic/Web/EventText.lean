/-
Events on the wire: `format_event`, and a client that reads what it writes as the WHATWG's event stream format says.

The client takes its stream a byte at a time, so how the stream is cut on its way makes no difference. All that has
a meaning to it (a line's end, the first colon of a line, the blank after it) is ASCII, so it is given the stream's
bytes and not the characters they encode.
-/
import Cosmic.Base.Parts
import Cosmic.Web.Hub

set_option autoImplicit false

namespace Cosmic.Sse

open Cosmic.Base Option

/-! ## The source -/

/-- `text:gsub("\r\n", "\n")` -/
def crlf_to_lf : Bytes → Bytes
  | [] => []
  | [b] => [b]
  | b :: c :: s => if b = 13 ∧ c = 10 then 10 :: crlf_to_lf s else b :: crlf_to_lf (c :: s)

/-- `unified:gsub("\r", "\n")` -/
def cr_to_lf (text : Bytes) : Bytes := text.map fun b => if b = 13 then 10 else b

/-- The lines of `text`, any of LF, CR and CRLF ending one. -/
def lines_of (text : Bytes) : List Bytes := (cr_to_lf (crlf_to_lf text)).splitOn 10

/-- The texts that `format_event` puts out before the blank line. -/
def event_lines (ev : Event) : List Bytes :=
  (match ev.comment with
    | some comment => (lines_of comment).map fun line => lit ": " ++ line ++ [10]
    | none => []) ++
  (match ev.event with
    | some event => if event = [] then [] else [lit "event: " ++ event ++ [10]]
    | none => []) ++
  (match ev.id with
    | some id => [lit "id: " ++ id ++ [10]]
    | none => []) ++
  (match ev.retry with
    -- A negative one has raised.
    | some retry => if retry = 0 then [] else [lit "retry: " ++ tostring retry.toNat ++ [10]]
    | none => []) ++
  (match ev.data with
    | some data => (lines_of data).map fun line => lit "data: " ++ line ++ [10]
    | none => [])

/-- `ev` in the wire format, or what is raised. -/
def format_event (ev : Event) : Except Bytes Bytes :=
  match format_error ev with
  | some why => .error why
  | none => if event_lines ev = [] then .ok [] else .ok ((event_lines ev).flatten ++ [10])

/-! ## A client -/

/-- An event as it is dispatched. -/
structure Message where
  type : Bytes
  data : Bytes
  last_event_id : Bytes
deriving DecidableEq, Repr

/-- What a client has been told. -/
structure Told where
  dispatched : List Message
  last_event_id : Bytes
  reconnection_time : Option ℕ
deriving DecidableEq, Repr

/-- A client's parser: the line it has begun, whether a CR came last, whether a line has ended yet, and its
buffers. -/
structure Client where
  line : Bytes
  cr : Bool
  begun : Bool
  data : Bytes
  event_type : Bytes
  id : Bytes
  told : Told
deriving DecidableEq, Repr

def Told.nothing : Told := { dispatched := [], last_event_id := [], reconnection_time := none }

def Client.start : Client :=
  { line := [], cr := false, begun := false, data := [], event_type := [], id := [], told := .nothing }

/-- A blank line dispatches the event, where the data buffer is not empty. -/
def Client.dispatch (c : Client) : Client :=
  let told := { c.told with last_event_id := c.id }
  if c.data = [] then { c with event_type := [], told }
  else
    let message := {
      type := if c.event_type = [] then lit "message" else c.event_type
      data := if c.data.getLast? = some 10 then c.data.dropLast else c.data
      last_event_id := c.id }
    { c with data := [], event_type := [], told := { told with dispatched := c.told.dispatched ++ [message] } }

def Client.field (c : Client) (name value : Bytes) : Client :=
  if name = lit "event" then { c with event_type := value }
  else if name = lit "data" then { c with data := c.data ++ value ++ [10] }
  else if name = lit "id" then if 0 ∈ value then c else { c with id := value }
  else if name = lit "retry" then
    match decimal value with
    | some time => { c with told := { c.told with reconnection_time := some time } }
    | none => c
  else c

/-- A line: blank, a comment, a field with a value after its first colon and a blank, or a field without one. -/
def Client.process (c : Client) (line : Bytes) : Client :=
  if line = [] then c.dispatch
  else
    match index_of [58] line with
    | some 0 => c
    | some colon =>
        let value := line.drop (colon + 1)
        c.field (line.take colon) (if value.head? = some 32 then value.tail else value)
    | none => c.field line []

/-- The byte order mark that a stream may begin with. -/
def BOM : Bytes := [0xEF, 0xBB, 0xBF]

def Client.end_line (c : Client) : Client :=
  { c with line := [], begun := true }.process (if ¬c.begun ∧ BOM <+: c.line then c.line.drop 3 else c.line)

/-- A byte: LF, CR, and LF after CR, end a line. -/
def Client.step (c : Client) (b : UInt8) : Client :=
  if b = 10 then if c.cr then { c with cr := false } else c.end_line
  else if b = 13 then { c.end_line with cr := true }
  else { c with line := c.line ++ [b], cr := false }

/-- What comes next of the stream. -/
def Client.feed (c : Client) (text : Bytes) : Client := text.foldl Client.step c

/-! ## What an event tells -/

/-- Each CRLF and each lone CR made LF. -/
def unified : Bytes → Bytes
  | [] => []
  | [b] => if b = 13 then [10] else [b]
  | b :: c :: s =>
      if b = 13 then if c = 10 then 10 :: unified s else 10 :: unified (c :: s) else b :: unified (c :: s)

/-- What a client has been told, once `ev` is. -/
def Told.hear (told : Told) (ev : Event) : Told :=
  let id := ev.id.getD told.last_event_id
  { dispatched := told.dispatched ++
      (match ev.data with
        | none => []
        | some data =>
            let type := ev.event.getD []
            [{ type := if type = [] then lit "message" else type, data := unified data, last_event_id := id }])
    last_event_id := id
    reconnection_time :=
      match ev.retry with
      | some retry => if retry = 0 then told.reconnection_time else some retry.toNat
      | none => told.reconnection_time }

example : (Client.start.feed (lit ": hi\n\ndata: a\ndata\ndata:b\nid: 7\n\n")).told =
    { dispatched := [{ type := lit "message", data := lit "a\n\nb", last_event_id := lit "7" }]
      last_event_id := lit "7", reconnection_time := none } := by decide

/-! ## Lines -/

theorem cr_to_lf_crlf_to_lf (text : Bytes) : cr_to_lf (crlf_to_lf text) = unified text := by
  fun_induction unified text with
  | case1 => rfl
  | case2 => rfl
  | case3 b hb => rw [crlf_to_lf, cr_to_lf, List.map_singleton, if_neg hb]
  | case4 s ih =>
    rw [crlf_to_lf, if_pos ⟨rfl, rfl⟩, ← ih]
    rfl
  | case5 c s hc ih =>
    rw [crlf_to_lf, if_neg fun h => hc h.2, ← ih]
    rfl
  | case6 b c s hb ih =>
    rw [crlf_to_lf, if_neg fun h => hb h.1, ← ih, cr_to_lf, List.map_cons, if_neg hb]
    rfl

def OneLine (s : Bytes) : Prop := 10 ∉ s ∧ 13 ∉ s

theorem OneLine.append {s t : Bytes} (hs : OneLine s) (ht : OneLine t) : OneLine (s ++ t) :=
  ⟨fun h => (List.mem_append.mp h).elim hs.1 ht.1, fun h => (List.mem_append.mp h).elim hs.2 ht.2⟩

theorem cr_not_mem_unified (text : Bytes) : 13 ∉ unified text := by
  rw [← cr_to_lf_crlf_to_lf]
  intro hmem
  obtain ⟨b, -, hb⟩ := List.mem_map.mp hmem
  split at hb
  · cases hb
  · contradiction

theorem ended_lines (text : Bytes) : ((lines_of text).map (· ++ [10])).flatten = unified text ++ [10] := by
  have hjoined : ∀ ps : List Bytes, ps ≠ [] → (ps.map (· ++ [10])).flatten = concat [10] ps ++ [10] := by
    intro ps hps
    induction ps with
    | nil => exact absurd rfl hps
    | cons p ps ih =>
      cases ps with
      | nil => exact List.append_nil _
      | cons q qs =>
        rw [List.map_cons, List.flatten_cons, ih (List.cons_ne_nil q qs), concat]
        simp only [List.append_assoc]
  unfold lines_of
  rw [hjoined _ (List.splitOn_ne_nil _ _), concat_splitOn, cr_to_lf_crlf_to_lf]

variable {text : Bytes}

theorem oneLine_of_mem_lines {line : Bytes} (h : line ∈ lines_of text) : OneLine line := by
  refine ⟨not_mem_of_mem_splitOn h, fun hmem => ?_⟩
  have hended : 13 ∈ ((lines_of text).map (· ++ [10])).flatten :=
    List.mem_flatten_of_mem (List.mem_map_of_mem h) (List.mem_append_left _ hmem)
  rw [ended_lines] at hended
  rcases List.mem_append.mp hended with hmem | hmem
  · exact cr_not_mem_unified text hmem
  · exact absurd hmem (by decide)

/-! ## What a client does with them -/

def Client.Waits (c : Client) : Prop := c.line = [] ∧ c.cr = false

theorem feed_append (c : Client) (s t : Bytes) : c.feed (s ++ t) = (c.feed s).feed t := List.foldl_append

theorem feed_bytes {s : Bytes} (hs : OneLine s) (c : Client) (hcr : c.cr = false) :
    c.feed s = { c with line := c.line ++ s } := by
  induction s generalizing c with
  | nil => rw [List.append_nil]; rfl
  | cons b s ih =>
    have hstep : c.step b = { c with line := c.line ++ [b] } := by
      unfold Client.step
      rw [if_neg fun hb : b = 10 => hs.1 (hb ▸ List.mem_cons_self),
        if_neg fun hb : b = 13 => hs.2 (hb ▸ List.mem_cons_self), hcr]
    have hrest : OneLine s := ⟨fun h => hs.1 (List.mem_cons_of_mem b h), fun h => hs.2 (List.mem_cons_of_mem b h)⟩
    show (c.step b).feed s = _
    rw [hstep, ih hrest { c with line := c.line ++ [b] } hcr]
    simp only [List.append_assoc, List.singleton_append]

variable {c : Client}

theorem feed_line {line : Bytes} (hline : OneLine line) (hmark : line.head? ≠ some 0xEF) (hc : c.Waits) :
    c.feed (line ++ [10]) = { c with begun := true }.process line := by
  obtain ⟨hempty, hcr⟩ := hc
  have hbom : ¬BOM <+: line := by
    rintro ⟨t, rfl⟩
    exact hmark rfl
  rw [feed_append, feed_bytes hline c hcr, hempty, List.nil_append]
  show Client.step _ 10 = _
  unfold Client.step
  rw [if_pos rfl, hcr, if_neg Bool.false_ne_true]
  unfold Client.end_line
  rw [if_neg fun h => hbom h.2, ← hempty]

theorem feed_blank (hc : c.Waits) : c.feed [10] = { c with begun := true }.dispatch := by
  have hline : OneLine [] := ⟨List.not_mem_nil, List.not_mem_nil⟩
  exact feed_line hline (by decide) hc

variable {name value : Bytes}

theorem process_field (c : Client) (hname : name ≠ []) (hcolon : 58 ∉ name) :
    c.process (name ++ lit ": " ++ value) = c.field name value := by
  have hne : name ++ lit ": " ++ value ≠ [] := by
    rw [List.append_assoc]
    exact List.append_ne_nil_of_left_ne_nil hname _
  have hfound : index_of [58] (name ++ lit ": " ++ value) = some name.length := by
    rw [List.append_assoc, index_of_append hcolon, show lit ": " ++ value = 58 :: 32 :: value from rfl, index_of,
      if_pos (by simp)]
    simp
  have htake : (name ++ lit ": " ++ value).take name.length = name := by
    rw [List.append_assoc, List.take_left]
  have hdrop : (name ++ lit ": " ++ value).drop (name.length + 1) = 32 :: value := by
    rw [List.append_assoc, ← List.drop_drop, List.drop_left]
    rfl
  unfold Client.process
  rw [if_neg hne, hfound]
  split
  case h_1 h => exact absurd (some.inj h) (List.length_pos_iff.mpr hname).ne'
  case h_2 colon _ h =>
    cases h
    rw [htake, hdrop]
    rfl
  case h_3 h => cases h

def Field (name : Bytes) : Prop := name = lit "event" ∨ name = lit "id" ∨ name = lit "retry" ∨ name = lit "data"

theorem feed_field (hname : Field name) (hvalue : OneLine value) (hc : c.Waits) :
    c.feed (name ++ lit ": " ++ value ++ [10]) = { c with begun := true }.field name value := by
  have hplain : OneLine (name ++ lit ": ") ∧ name ≠ [] ∧ 58 ∉ name ∧ ∀ t, (name ++ t).head? ≠ some 0xEF := by
    rcases hname with rfl | rfl | rfl | rfl
    · exact ⟨⟨by decide, by decide⟩, by decide, by decide, fun t h => absurd (some.inj h) (by decide)⟩
    · exact ⟨⟨by decide, by decide⟩, by decide, by decide, fun t h => absurd (some.inj h) (by decide)⟩
    · exact ⟨⟨by decide, by decide⟩, by decide, by decide, fun t h => absurd (some.inj h) (by decide)⟩
    · exact ⟨⟨by decide, by decide⟩, by decide, by decide, fun t h => absurd (some.inj h) (by decide)⟩
  obtain ⟨hline, hne, hcolon, hhead⟩ := hplain
  rw [feed_line (hline.append hvalue) (by rw [List.append_assoc]; exact hhead _) hc, process_field _ hne hcolon]

theorem feed_comment (h : OneLine text) (hc : c.Waits) :
    c.feed (lit ": " ++ text ++ [10]) = { c with begun := true } := by
  have hmark : OneLine (lit ": ") := ⟨by decide, by decide⟩
  have hhead : (lit ": " ++ text).head? ≠ some 0xEF := fun h => absurd (some.inj h) (by decide)
  rw [feed_line (hmark.append h) hhead hc]
  rfl

theorem feed_comments {lines : List Bytes} (h : ∀ line ∈ lines, OneLine line) (hc : c.Waits) :
    ∃ begun, c.feed ((lines.map fun line => lit ": " ++ line ++ [10]).flatten) = { c with begun } := by
  induction lines generalizing c with
  | nil => exact ⟨c.begun, rfl⟩
  | cons line lines ih =>
    obtain ⟨hline, hlines⟩ := List.forall_mem_cons.mp h
    rw [List.map_cons, List.flatten_cons, feed_append, feed_comment hline hc]
    exact ih hlines hc

theorem feed_data {lines : List Bytes} (h : ∀ line ∈ lines, OneLine line) (hc : c.Waits) :
    ∃ begun, c.feed ((lines.map fun line => lit "data: " ++ line ++ [10]).flatten) =
      { c with begun, data := c.data ++ (lines.map (· ++ [10])).flatten } := by
  induction lines generalizing c with
  | nil => exact ⟨c.begun, by rw [List.map_nil, List.map_nil, List.flatten_nil, List.append_nil]; rfl⟩
  | cons line lines ih =>
    obtain ⟨hline, hlines⟩ := List.forall_mem_cons.mp h
    have hfed : c.feed (lit "data: " ++ line ++ [10]) = { c with begun := true, data := c.data ++ line ++ [10] } :=
      feed_field (.inr (.inr (.inr rfl))) hline hc
    rw [List.map_cons, List.flatten_cons, feed_append, hfed]
    obtain ⟨begun, hrest⟩ := ih hlines (c := { c with begun := true, data := c.data ++ line ++ [10] }) hc
    refine ⟨begun, hrest.trans ?_⟩
    simp only [List.map_cons, List.flatten_cons, List.append_assoc]

/-! ## An event -/

def Carried (value : Bytes) : Prop := OneLine value ∧ 0 ∉ value

theorem field_error_none (h : field_error name value = none) : Carried value := by
  unfold field_error at h
  split at h
  · cases h
  · next hany =>
    have hno : ∀ b ∈ value, ¬(b == 13 || b == 10 || b == 0) = true := fun b hb hbad => hany (List.any_eq_true.mpr ⟨b, hb, hbad⟩)
    exact ⟨⟨fun h => hno 10 h rfl, fun h => hno 13 h rfl⟩, fun h => hno 0 h rfl⟩

variable {ev : Event}

theorem format_error_none (h : format_error ev = none) :
    (∀ event ∈ ev.event, event ≠ [] → Carried event) ∧ (∀ id ∈ ev.id, Carried id) ∧ ∀ retry ∈ ev.retry, 0 ≤ retry := by
  obtain ⟨hevent, hrest⟩ := or_eq_none_iff.mp h
  obtain ⟨hid, hretry⟩ := or_eq_none_iff.mp hrest
  refine ⟨fun event he hne => ?_, fun id hi => ?_, fun retry hr => ?_⟩
  · rw [mem_def.mp he, bind_some, if_neg hne] at hevent
    exact field_error_none hevent
  · rw [mem_def.mp hi, bind_some] at hid
    exact field_error_none hid
  · rw [mem_def.mp hr, bind_some] at hretry
    split at hretry
    · cases hretry
    · next hneg => exact not_lt.mp hneg

/-- A client between two events. -/
structure Client.Idle (c : Client) : Prop where
  waits : c.Waits
  data : c.data = []
  event_type : c.event_type = []
  id : c.id = c.told.last_event_id

def reconnection (time : Option ℕ) (retry : Option ℤ) : Option ℕ :=
  match retry with
  | some retry => if retry = 0 then time else some retry.toNat
  | none => time

def buffered (data : Option Bytes) : Bytes := (data.map fun data => unified data ++ [10]).getD []

theorem tostring_oneLine (n : ℕ) : OneLine (tostring n) := by
  refine ⟨fun h => ?_, fun h => ?_⟩
  · exact absurd (isDigit_of_mem_tostring h) (by decide)
  · exact absurd (isDigit_of_mem_tostring h) (by decide)

theorem feed_lines (hev : format_error ev = none) (hc : c.Idle) : ∃ begun, c.feed (event_lines ev).flatten = { c with
      begun, data := buffered ev.data, event_type := ev.event.getD [], id := ev.id.getD c.id,
      told := { c.told with reconnection_time := reconnection c.told.reconnection_time ev.retry } } := by
  obtain ⟨hevent, hid, hretry⟩ := format_error_none hev
  unfold event_lines
  simp only [List.flatten_append, feed_append]
  -- The comment's lines.
  have hcomment : ∃ begun, c.feed (match ev.comment with
      | some comment => (lines_of comment).map fun line => lit ": " ++ line ++ [10]
      | none => []).flatten = { c with begun } := by
    cases ev.comment with
    | none => exact ⟨c.begun, rfl⟩
    | some comment => exact feed_comments (fun line hline => oneLine_of_mem_lines hline) hc.waits
  obtain ⟨begun₁, hcomment⟩ := hcomment
  rw [hcomment]
  -- The event's name.
  have hname : ∃ begun, Client.feed { c with begun := begun₁ } (match ev.event with
      | some event => if event = [] then [] else [lit "event: " ++ event ++ [10]]
      | none => []).flatten = { c with begun, event_type := ev.event.getD [] } := by
    cases he : ev.event with
    | none =>
      refine ⟨begun₁, ?_⟩
      show { c with begun := begun₁ } = { c with begun := begun₁, event_type := [] }
      rw [hc.event_type]
    | some event =>
      by_cases hempty : event = []
      · subst hempty
        refine ⟨begun₁, ?_⟩
        show { c with begun := begun₁ } = { c with begun := begun₁, event_type := [] }
        rw [hc.event_type]
      · dsimp only
        rw [if_neg hempty, List.flatten_singleton]
        exact ⟨true, feed_field (.inl rfl) (hevent event he hempty).1 hc.waits⟩
  obtain ⟨begun₂, hname⟩ := hname
  rw [hname]
  have hid : ∃ begun, Client.feed { c with begun := begun₂, event_type := ev.event.getD [] } (match ev.id with
      | some id => [lit "id: " ++ id ++ [10]]
      | none => []).flatten = { c with begun, event_type := ev.event.getD [], id := ev.id.getD c.id } := by
    cases hi : ev.id with
    | none => exact ⟨begun₂, rfl⟩
    | some id =>
      obtain ⟨hline, hnul⟩ := hid id hi
      refine ⟨true, ?_⟩
      rw [List.flatten_singleton]
      refine (feed_field (c := { c with begun := begun₂, event_type := ev.event.getD [] }) (.inr (.inl rfl)) hline
        hc.waits).trans ?_
      exact if_neg hnul
  obtain ⟨begun₃, hid⟩ := hid
  rw [hid]
  have hretry : ∃ begun, Client.feed { c with begun := begun₃, event_type := ev.event.getD [], id := ev.id.getD c.id }
      (match ev.retry with
        | some retry => if retry = 0 then [] else [lit "retry: " ++ tostring retry.toNat ++ [10]]
        | none => []).flatten =
      { c with begun, event_type := ev.event.getD [], id := ev.id.getD c.id,
               told := { c.told with reconnection_time := reconnection c.told.reconnection_time ev.retry } } := by
    cases ev.retry with
    | none => exact ⟨begun₃, rfl⟩
    | some retry =>
      by_cases hzero : retry = 0
      · subst hzero
        exact ⟨begun₃, rfl⟩
      refine ⟨true, ?_⟩
      dsimp only [reconnection]
      rw [if_neg hzero, if_neg hzero, List.flatten_singleton]
      refine (feed_field (c := { c with begun := begun₃, event_type := ev.event.getD [], id := ev.id.getD c.id })
        (.inr (.inr (.inl rfl))) (tostring_oneLine _) hc.waits).trans ?_
      show (match decimal (tostring retry.toNat) with
        | some time => _
        | none => _) = _
      rw [decimal_tostring]
  obtain ⟨begun₄, hretry⟩ := hretry
  rw [hretry]
  cases ev.data with
  | none => exact ⟨begun₄, by rw [show buffered none = [] from rfl, ← hc.data]; rfl⟩
  | some data =>
    have hlines : ∀ line ∈ lines_of data, OneLine line := fun line hline => oneLine_of_mem_lines hline
    obtain ⟨begun₅, hdata⟩ := feed_data hlines (c := { c with
        begun := begun₄, event_type := ev.event.getD [], id := ev.id.getD c.id
        told := { c.told with reconnection_time := reconnection c.told.reconnection_time ev.retry } }) hc.waits
    refine ⟨begun₅, hdata.trans ?_⟩
    rw [ended_lines, hc.data, List.nil_append]
    rfl

theorem hear_of_no_lines (h : event_lines ev = []) (told : Told) : told.hear ev = told := by
  unfold event_lines at h
  simp only [List.append_eq_nil_iff] at h
  obtain ⟨⟨⟨-, hid⟩, hretry⟩, hdata⟩ := h
  have hnone : ev.data = none := by
    cases hd : ev.data with
    | none => rfl
    | some data =>
      rw [hd] at hdata
      exact absurd (List.map_eq_nil_iff.mp hdata) (List.splitOn_ne_nil _ _)
  have hsame : ev.id = none := by
    cases hi : ev.id with
    | none => rfl
    | some id =>
      rw [hi] at hid
      exact absurd hid (List.cons_ne_nil _ _)
  have htime : reconnection told.reconnection_time ev.retry = told.reconnection_time := by
    cases hr : ev.retry with
    | none => rfl
    | some retry =>
      rw [hr] at hretry
      by_cases hzero : retry = 0
      · exact if_pos hzero
      · dsimp only at hretry
        rw [if_neg hzero] at hretry
        exact absurd hretry (List.cons_ne_nil _ _)
  unfold Told.hear
  rw [hnone, hsame]
  show (⟨told.dispatched ++ [], told.last_event_id, reconnection told.reconnection_time ev.retry⟩ : Told) = told
  rw [List.append_nil, htime]

theorem feed_event (hev : format_event ev = .ok text) (hc : c.Idle) :
    (c.feed text).Idle ∧ (c.feed text).told = c.told.hear ev := by
  unfold format_event at hev
  split at hev
  · cases hev
  next herror =>
  by_cases hlines : event_lines ev = []
  · rw [if_pos hlines] at hev
    cases hev
    exact ⟨hc, (hear_of_no_lines hlines c.told).symm⟩
  rw [if_neg hlines] at hev
  cases hev
  obtain ⟨begun, hfed⟩ := feed_lines herror hc
  obtain ⟨⟨hline, hcr⟩, -, -, hid⟩ := hc
  rw [feed_append, hfed, feed_blank]
  swap
  · exact ⟨hline, hcr⟩
  unfold Client.dispatch Told.hear
  cases ev.data with
  | none =>
    refine ⟨⟨⟨hline, hcr⟩, rfl, rfl, rfl⟩, ?_⟩
    show _ = (⟨c.told.dispatched ++ [], _, _⟩ : Told)
    rw [List.append_nil, hid]
    rfl
  | some data =>
    have hne : buffered (some data) ≠ [] := List.append_ne_nil_of_right_ne_nil _ (List.cons_ne_nil _ _)
    have hlast : (buffered (some data)).getLast? = some 10 := List.getLast?_concat
    have hdrop : (buffered (some data)).dropLast = unified data := List.dropLast_concat
    rw [if_neg hne, if_pos hlast, hdrop, hid]
    exact ⟨⟨⟨hline, hcr⟩, rfl, rfl, rfl⟩, rfl⟩

/-! ## A stream -/

theorem start_idle : Client.start.Idle := ⟨⟨rfl, rfl⟩, rfl, rfl, rfl⟩

theorem feed_events {events : List Event} {texts : List Bytes}
    (h : List.Forall₂ (fun ev text => format_event ev = .ok text) events texts) (hc : c.Idle) :
    (c.feed texts.flatten).Idle ∧ (c.feed texts.flatten).told = events.foldl Told.hear c.told := by
  induction h generalizing c with
  | nil => exact ⟨hc, rfl⟩
  | @cons ev text events texts hev _ ih =>
    obtain ⟨hidle, htold⟩ := feed_event hev hc
    rw [List.flatten_cons, feed_append, List.foldl_cons, ← htold]
    exact ih hidle

/-- However the texts of events, joined, are cut, a client is told of the events, each in turn, and of nothing
else. -/
theorem events_read_back {events : List Event} {texts pieces : List Bytes}
    (htexts : List.Forall₂ (fun ev text => format_event ev = .ok text) events texts)
    (hpieces : pieces.flatten = texts.flatten) :
    (pieces.foldl Client.feed Client.start).told = events.foldl Told.hear Told.nothing := by
  have hjoined : pieces.foldl Client.feed Client.start = Client.start.feed texts.flatten := by
    rw [← hpieces]
    exact List.foldl_flatten.symm
  rw [hjoined]
  exact (feed_events htexts start_idle).2

theorem events_read_back_two : ∃ texts pieces : List Bytes, pieces.flatten = texts.flatten ∧
    List.Forall₂ (fun ev text => format_event ev = .ok text)
      [⟨some (lit "7"), none, some [97, 13], some 5, none⟩, ⟨none, some (lit "e"), some (lit " id: x"), none, some []⟩]
      texts ∧
    (pieces.foldl Client.feed Client.start).told =
      ⟨[⟨lit "message", lit "a\n", lit "7"⟩, ⟨lit "e", lit " id: x", lit "7"⟩], lit "7", some 5⟩ := by
  have htexts : List.Forall₂ (fun ev text => format_event ev = .ok text)
      [⟨some (lit "7"), none, some [97, 13], some 5, none⟩, ⟨none, some (lit "e"), some (lit " id: x"), none, some []⟩]
      [lit "id: 7\nretry: 5\ndata: a\ndata: \n\n", lit ": \nevent: e\ndata:  id: x\n\n"] :=
    .cons rfl (.cons rfl .nil)
  have hpieces : [lit "id: 7\nretry: 5\ndat", lit "a: a\ndata: \n\n: \nevent: e\ndata:  id: x\n\n"].flatten =
      [lit "id: 7\nretry: 5\ndata: a\ndata: \n\n", lit ": \nevent: e\ndata:  id: x\n\n"].flatten := rfl
  exact ⟨_, _, hpieces, htexts, (events_read_back htexts hpieces).trans (by decide)⟩

end Cosmic.Sse
