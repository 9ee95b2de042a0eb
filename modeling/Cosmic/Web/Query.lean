/-
Queries and urlencoded forms: `decode_query`, which splits on `&` and `=` before anything is unescaped, and
`encode_query`, which escapes both.
-/
import Cosmic.Base.Slice
import Cosmic.Web.Escape

set_option autoImplicit false

namespace Cosmic.Web.Url

open Cosmic.Base

/-! ## Pairs -/

/-- `Url.Pair` -/
structure Pair where
  name : Bytes
  value : Bytes
deriving DecidableEq, Repr

/-- `Url.Query` -/
structure Query where
  pairs : List Pair
  by_name : Table Bytes (List Bytes)

/-- `Url.QueryOptions` -/
structure QueryOptions where
  max_pairs : Option ℤ := none
  max_bytes : Option ℤ := none
  lenient : Option Bool := none
  utf8 : Option Bool := none

/-- An integer, as `%d` writes it. -/
def int_text (n : ℤ) : Bytes := (if n < 0 then lit "-" else []) ++ tostring n.natAbs

/-- `text:gsub("%%(%x%x)", byte_of_hex)`: a `%` without two digits is itself. -/
def unescape_kept : Bytes → Bytes
  | [] => []
  | b :: s =>
    if b = 37 then
      match s with
      | x :: y :: s' =>
        if isHex x && isHex y then UInt8.ofNat (digits_value 16 [x, y]) :: unescape_kept s'
        else b :: unescape_kept (x :: y :: s')
      | s => b :: unescape_kept s
    else b :: unescape_kept s

/-- `piece:gsub("%+", " ")` -/
def spaces (piece : Bytes) : Bytes := piece.map fun b => if b = 43 then 32 else b

/-- Reads `piece`, which starts at byte `i` of the whole text, as a name or a value. -/
def decode_piece (piece : Bytes) (i : ℕ) (lenient : Bool) : Except Bytes Bytes :=
  if lenient then .ok (unescape_kept (spaces piece)) else unescape i (spaces piece)

/-- The name and the value of a piece, still escaped, and where its first `=` stands. -/
def split_pair (piece : Bytes) : Bytes × Bytes × Option ℕ :=
  match find (· == 61) piece 1 with
  | none => (piece, [], none)
  | some eq => (sub piece 1 (eq - 1), sub piece (eq + 1) piece.length, some eq)

/-- `utf8.len(text) ~= nil` -/
def is_utf8 (text : Bytes) : Bool := utf8_valid text.length text

/-- A pair entered after those of `q`. -/
def Query.add (q : Query) (name value : Bytes) : Query where
  pairs := q.pairs ++ [{ name, value }]
  by_name :=
    match q.by_name.lookup name with
    | none => q.by_name.insert name [value]
    | some values => q.by_name.insert name (values ++ [value])

/-- Reads the pieces of a query, the first of which begins at byte `i`, after the pairs of `q`. -/
def decode_pieces (max_pairs : ℤ) (lenient check_utf8 : Bool) : ℕ → List Bytes → Query → Except Bytes Query
  | _, [], q => .ok q
  | i, piece :: pieces, q =>
    if piece = [] then decode_pieces max_pairs lenient check_utf8 (i + 1) pieces q
    else if max_pairs ≤ q.pairs.length then
      .error (refuse (lit "the query holds more pairs than max_pairs (" ++ int_text max_pairs ++ lit ")"))
    else
      let (raw_name, raw_value, eq) := split_pair piece
      match decode_piece raw_name i lenient with
      | .error why => .error why
      | .ok name =>
        match decode_piece raw_value (i + eq.getD 0) lenient with
        | .error why => .error why
        | .ok value =>
          if check_utf8 && (!is_utf8 name || !is_utf8 value) then
            .error (refuse (lit "the name or value of pair " ++ tostring (q.pairs.length + 1) ++
              lit " is not valid UTF-8"))
          else decode_pieces max_pairs lenient check_utf8 (i + piece.length + 1) pieces (q.add name value)

/-- `opts.max_pairs`, or 1000. -/
def max_pairs_of (opts : Option QueryOptions) : ℤ := (opts.bind QueryOptions.max_pairs).getD 1000

/-- `opts.max_bytes`, where there is one. -/
def max_bytes_of (opts : Option QueryOptions) : Option ℤ := opts.bind QueryOptions.max_bytes

/-- `text` as a query string or an urlencoded form. -/
def decode_query (text : Bytes) (opts : Option QueryOptions) : Except Bytes Query :=
  let lenient := opts.bind QueryOptions.lenient = some true
  let check_utf8 := opts.bind QueryOptions.utf8 ≠ some false
  let decoded := decode_pieces (max_pairs_of opts) lenient check_utf8 1 (text.splitOn 38) { pairs := [], by_name := ∅ }
  match max_bytes_of opts with
  | none => decoded
  | some max_bytes =>
    if text.length > max_bytes then
      .error (refuse (lit "the query is longer than max_bytes (" ++ int_text max_bytes ++ lit ")"))
    else decoded

/-- `text:gsub("%%20", "+")` -/
def pluses : Bytes → Bytes
  | [] => []
  | b :: s =>
    match b, s with
    | 37, 50 :: 48 :: s' => 43 :: pluses s'
    | b, s => b :: pluses s

def encode_pair (pair : Pair) : Bytes := pluses (escape pair.name) ++ 61 :: pluses (escape pair.value)

/-- `list` as a query string or an urlencoded body. -/
def encode_query (list : List Pair) : Bytes := concat (lit "&") (list.map encode_pair)

example : encode_query [⟨lit "a b", lit "1+1=2"⟩, ⟨[], lit "%"⟩] = lit "a+b=1%2B1%3D2&=%25" := by decide

/-! ## Reading a piece back -/

theorem pluses_space (s : Bytes) : pluses (37 :: 50 :: 48 :: s) = 43 :: pluses s := rfl

variable {b : UInt8} {s : Bytes}

theorem pluses_cons (h : b = 37 → ∀ s', s ≠ 50 :: 48 :: s') : pluses (b :: s) = b :: pluses s := by
  rw [pluses]
  exact fun s' hb hs => h hb s' hs

theorem pluses_escape_of (hb : b ≠ 32) (s : Bytes) : pluses (escape_of b ++ s) = escape_of b ++ pluses s := by
  unfold escape_of
  split
  next hkept =>
    refine pluses_cons fun h => ?_
    subst h
    cases hkept
  next =>
    obtain ⟨hx, hy, hvalue⟩ := hex_digits b
    rw [List.cons_append, List.cons_append, List.cons_append, List.nil_append, pluses_cons, pluses_cons, pluses_cons]
    · rfl
    · exact fun h => absurd h (hex_ne_percent hy)
    · exact fun h => absurd h (hex_ne_percent hx)
    · intro _ s' hs
      obtain ⟨h₁, hs⟩ := List.cons.inj hs
      obtain ⟨h₂, -⟩ := List.cons.inj hs
      rw [h₁, h₂] at hvalue
      exact hb (hvalue.symm.trans (by decide))

theorem spaces_append (s t : Bytes) : spaces (s ++ t) = spaces s ++ spaces t := List.map_append

theorem spaces_escape_of (b : UInt8) : spaces (escape_of b) = escape_of b := by
  conv_rhs => rw [← List.map_id (escape_of b)]
  refine List.map_congr_left fun c hc => if_neg ?_
  rintro rfl
  exact absurd (mem_escape_of hc) (by decide)

theorem spells_escape_of (b : UInt8) {t : Bytes} (h : Spells s t) : Spells (escape_of b ++ s) (b :: t) := by
  unfold escape_of
  split
  next hb =>
    refine .plain ?_ h
    rintro rfl
    cases hb
  next =>
    obtain ⟨hx, hy, hvalue⟩ := hex_digits b
    have hescaped := Spells.escaped hx hy h
    rwa [hvalue] at hescaped

theorem spaces_pluses (text : Bytes) : Spells (spaces (pluses (escape text))) text := by
  induction text with
  | nil => exact .done
  | cons b text ih =>
    rw [escape_cons]
    by_cases hb : b = 32
    · subst hb
      have hspace : escape_of 32 = [37, 50, 48] := by decide
      rw [hspace]
      show Spells (spaces (pluses (37 :: 50 :: 48 :: escape text))) (32 :: text)
      rw [pluses_space]
      exact .plain (by decide) ih
    · rw [pluses_escape_of hb, spaces_append, spaces_escape_of]
      exact spells_escape_of b ih

theorem unescape_kept_plain (hb : b ≠ 37) (s : Bytes) : unescape_kept (b :: s) = b :: unescape_kept s := by
  rw [unescape_kept.eq_def]
  dsimp only
  rw [if_neg hb]

theorem unescape_kept_escaped {x y : UInt8} (hx : isHex x = true) (hy : isHex y = true) (s : Bytes) :
    unescape_kept (37 :: x :: y :: s) = UInt8.ofNat (digits_value 16 [x, y]) :: unescape_kept s := by
  rw [unescape_kept, if_pos rfl, if_pos (by rw [hx, hy]; rfl)]

theorem unescape_kept_eq {t : Bytes} (h : Spells s t) : unescape_kept s = t := by
  induction h with
  | done => rfl
  | plain hb _ ih => rw [unescape_kept_plain hb, ih]
  | escaped hx hy _ ih => rw [unescape_kept_escaped hx hy, ih]

variable {piece text : Bytes}

theorem decode_piece_spells (h : Spells (spaces piece) text) (i : ℕ) (lenient : Bool) :
    decode_piece piece i lenient = .ok text := by
  unfold decode_piece
  split
  · rw [unescape_kept_eq h]
  · exact (unescape_ok_iff i _ _).mpr h

variable {i : ℕ}

theorem decode_piece_lenient (h : decode_piece piece i false = .ok text) : decode_piece piece i true = .ok text :=
  decode_piece_spells ((unescape_ok_iff i _ _).mp h) i true

/-! ## The names of a query -/

/-- The values of `name`, in order, where it has any. -/
def values_of (pairs : List Pair) (name : Bytes) : Option (List Bytes) :=
  match (pairs.filter (·.name = name)).map Pair.value with
  | [] => none
  | values => some values

/-- `by_name` holds for each name its values in order, and nothing else. -/
def Query.Indexed (q : Query) : Prop := ∀ name, q.by_name.lookup name = values_of q.pairs name

theorem values_of_append (pairs : List Pair) (name value : Bytes) :
    values_of (pairs ++ [⟨name, value⟩]) name = some (((values_of pairs name).getD []) ++ [value]) := by
  have hvalues : ((pairs ++ [Pair.mk name value]).filter (·.name = name)).map Pair.value =
      (pairs.filter (·.name = name)).map Pair.value ++ [value] := by
    simp [List.filter_append]
  unfold values_of
  rw [hvalues]
  generalize (pairs.filter (·.name = name)).map Pair.value = values
  cases values <;> rfl

theorem values_of_append_ne (pairs : List Pair) {name name' : Bytes} (value : Bytes) (h : name' ≠ name) :
    values_of (pairs ++ [⟨name, value⟩]) name' = values_of pairs name' := by
  unfold values_of
  have hdropped : [Pair.mk name value].filter (·.name = name') = [] := by
    simpa using Ne.symm h
  rw [List.filter_append, hdropped, List.append_nil]

variable {q : Query}

theorem Query.Indexed.add (h : q.Indexed) (name value : Bytes) : (q.add name value).Indexed := by
  intro name'
  have hentered : (q.add name value).by_name =
      q.by_name.insert name (((q.by_name.lookup name).getD []) ++ [value]) := by
    unfold Query.add
    cases q.by_name.lookup name <;> rfl
  rw [hentered]
  show _ = values_of (q.pairs ++ [⟨name, value⟩]) name'
  by_cases hname : name' = name
  · subst hname
    rw [AList.lookup_insert, values_of_append, h]
  · rw [AList.lookup_insert_ne hname, values_of_append_ne q.pairs value hname, h]

/-! ## Reading the pieces of a query -/

variable {max_pairs : ℤ} {check_utf8 : Bool}

variable {lenient : Bool}

theorem decode_pieces_blank (i : ℕ) (pieces : List Bytes) (q : Query) :
    decode_pieces max_pairs lenient check_utf8 i ([] :: pieces) q =
      decode_pieces max_pairs lenient check_utf8 (i + 1) pieces q := rfl

theorem decode_pieces_cons {name value : Bytes} (hpiece : piece ≠ []) (hroom : q.pairs.length < max_pairs)
    (hname : decode_piece (split_pair piece).1 i lenient = .ok name)
    (hvalue : decode_piece (split_pair piece).2.1 (i + (split_pair piece).2.2.getD 0) lenient = .ok value)
    (hutf8 : check_utf8 = true → is_utf8 name = true ∧ is_utf8 value = true) (pieces : List Bytes) :
    decode_pieces max_pairs lenient check_utf8 i (piece :: pieces) q =
      decode_pieces max_pairs lenient check_utf8 (i + piece.length + 1) pieces (q.add name value) := by
  have hcheck : ¬((check_utf8 && (!is_utf8 name || !is_utf8 value)) = true) := by
    cases check_utf8 with
    | false => simp
    | true => simp [hutf8 rfl]
  rw [decode_pieces, if_neg hpiece, if_neg (by omega)]
  dsimp only
  rw [hname]
  rw [hvalue]
  dsimp only
  rw [if_neg hcheck]

variable {pieces : List Bytes} {q' : Query}

theorem decode_pieces_head (hpiece : piece ≠ [])
    (h : decode_pieces max_pairs lenient check_utf8 i (piece :: pieces) q = .ok q') :
    q.pairs.length < max_pairs ∧ ∃ name value, decode_piece (split_pair piece).1 i lenient = .ok name ∧
      decode_piece (split_pair piece).2.1 (i + (split_pair piece).2.2.getD 0) lenient = .ok value ∧
      (check_utf8 = true → is_utf8 name = true ∧ is_utf8 value = true) := by
  rw [decode_pieces, if_neg hpiece] at h
  split at h
  · cases h
  next hroom =>
    refine ⟨by omega, ?_⟩
    dsimp only at h
    split at h
    · cases h
    next name hname =>
      split at h
      · cases h
      next value hvalue =>
        split at h
        · cases h
        next hutf8 =>
          refine ⟨name, value, hname, hvalue, fun hcheck => ?_⟩
          simpa [hcheck] using hutf8

theorem decode_pieces_indexed (hq : q.Indexed) (h : decode_pieces max_pairs lenient check_utf8 i pieces q = .ok q')
    : q'.Indexed := by
  induction pieces generalizing i q with
  | nil =>
    cases h
    exact hq
  | cons piece pieces ih =>
    by_cases hpiece : piece = []
    · rw [hpiece, decode_pieces_blank] at h
      exact ih hq h
    · obtain ⟨hroom, name, value, hname, hvalue, hutf8⟩ := decode_pieces_head hpiece h
      rw [decode_pieces_cons hpiece hroom hname hvalue hutf8] at h
      exact ih (hq.add name value) h

theorem decode_pieces_lenient (h : decode_pieces max_pairs false check_utf8 i pieces q = .ok q') :
    decode_pieces max_pairs true check_utf8 i pieces q = .ok q' := by
  induction pieces generalizing i q with
  | nil =>
    exact h
  | cons piece pieces ih =>
    by_cases hpiece : piece = []
    · rw [hpiece, decode_pieces_blank] at h ⊢
      exact ih h
    · obtain ⟨hroom, name, value, hname, hvalue, hutf8⟩ := decode_pieces_head hpiece h
      rw [decode_pieces_cons hpiece hroom hname hvalue hutf8] at h
      rw [decode_pieces_cons hpiece hroom (decode_piece_lenient hname) (decode_piece_lenient hvalue) hutf8]
      exact ih h

/-! ## Reading what was written -/

theorem mem_pluses {c : UInt8} : ∀ {s : Bytes}, c ∈ pluses s → c ∈ s ∨ c = 43 := by
  intro s
  induction s using pluses.induct with
  | case1 => exact fun h => .inl h
  | case2 s ih =>
    intro h
    rw [pluses_space, List.mem_cons] at h
    rcases h with rfl | h
    · exact .inr rfl
    · rcases ih h with h | h
      · exact .inl (by simp [h])
      · exact .inr h
  | case3 b s hb ih =>
    intro h
    rw [pluses_cons (fun hb' s' hs => hb s' hb' hs), List.mem_cons] at h
    rcases h with rfl | h
    · exact .inl List.mem_cons_self
    · rcases ih h with h | h
      · exact .inl (List.mem_cons_of_mem b h)
      · exact .inr h

theorem mem_pluses_escape {c : UInt8} (h : c ∈ pluses (escape text)) : is_unreserved c = true ∨ c = 37 ∨ c = 43 := by
  rcases mem_pluses h with h | h
  · rcases mem_escape h with h | h
    · exact .inl h
    · exact .inr (.inl h)
  · exact .inr (.inr h)

theorem equals_not_mem (text : Bytes) : 61 ∉ pluses (escape text) := by
  intro h
  exact absurd (mem_pluses_escape h) (by decide)

theorem ampersand_not_mem (pair : Pair) : 38 ∉ encode_pair pair := by
  intro h
  rcases List.mem_append.mp h with h | h
  · exact absurd (mem_pluses_escape h) (by decide)
  · rcases List.mem_cons.mp h with h | h
    · cases h
    · exact absurd (mem_pluses_escape h) (by decide)

theorem split_encode_pair (pair : Pair) : split_pair (encode_pair pair) =
    (pluses (escape pair.name), pluses (escape pair.value), some ((pluses (escape pair.name)).length + 1)) := by
  have hfront : ∀ b ∈ pluses (escape pair.name), (b == 61) = false := by
    intro b hb
    have hne : b ≠ 61 := fun h => equals_not_mem pair.name (h ▸ hb)
    simpa using hne
  have hfind : find (· == 61) (pluses (escape pair.name) ++ 61 :: pluses (escape pair.value)) 1 =
      some ((pluses (escape pair.name)).length + 1) := find_first hfront rfl
  unfold split_pair encode_pair
  rw [hfind]
  dsimp only
  rw [sub, sub, Nat.add_sub_cancel, List.take_left, List.drop_zero, List.take_length]
  have hdrop : (pluses (escape pair.name) ++ 61 :: pluses (escape pair.value)).drop
      ((pluses (escape pair.name)).length + 1) = pluses (escape pair.value) := by
    rw [← List.drop_drop, List.drop_left]
    rfl
  rw [Nat.add_sub_cancel, hdrop]

theorem decode_encoded {list : List Pair}
    (hutf8 : ∀ pair ∈ list, is_utf8 pair.name = true ∧ is_utf8 pair.value = true)
    (hroom : ((q.pairs.length + list.length : ℕ) : ℤ) ≤ max_pairs) :
    ∃ q', decode_pieces max_pairs lenient check_utf8 i (list.map encode_pair) q = .ok q' ∧
      q'.pairs = q.pairs ++ list := by
  induction list generalizing q i with
  | nil => exact ⟨q, rfl, by rw [List.append_nil]⟩
  | cons pair list ih =>
    obtain ⟨hhead, htail⟩ := List.forall_mem_cons.mp hutf8
    rw [List.length_cons] at hroom
    have hne : encode_pair pair ≠ [] := List.append_ne_nil_of_right_ne_nil _ (List.cons_ne_nil _ _)
    have hname : decode_piece (split_pair (encode_pair pair)).1 i lenient = .ok pair.name := by
      rw [split_encode_pair]
      exact decode_piece_spells (spaces_pluses _) _ _
    have hvalue : decode_piece (split_pair (encode_pair pair)).2.1 (i + (split_pair (encode_pair pair)).2.2.getD 0) lenient =
        .ok pair.value := by
      rw [split_encode_pair]
      exact decode_piece_spells (spaces_pluses _) _ _
    have hadd : (q.add pair.name pair.value).pairs = q.pairs ++ [pair] := rfl
    have hroom' : (((q.add pair.name pair.value).pairs.length + list.length : ℕ) : ℤ) ≤ max_pairs := by
      rw [hadd, List.length_append, List.length_singleton]
      omega
    obtain ⟨q', hq', hpairs⟩ := ih htail hroom'
    rw [List.map_cons, decode_pieces_cons hne (by omega) hname hvalue fun _ => hhead]
    refine ⟨q', hq', ?_⟩
    rw [hpairs, hadd, List.append_assoc]
    rfl

/-! ## URLs and queries -/

/-- The text is within `max_bytes`, where there is one. -/
def Within (opts : Option QueryOptions) (text : Bytes) : Prop :=
  ∀ max_bytes, max_bytes_of opts = some max_bytes → (text.length : ℤ) ≤ max_bytes

theorem decode_query_within {opts : Option QueryOptions} (h : Within opts text) : decode_query text opts =
      decode_pieces (max_pairs_of opts) (opts.bind QueryOptions.lenient = some true)
        (opts.bind QueryOptions.utf8 ≠ some false) 1 (text.splitOn 38) { pairs := [], by_name := ∅ } := by
  unfold decode_query
  cases hmax : max_bytes_of opts with
  | none => rfl
  | some max_bytes => exact if_neg (not_lt.mpr (h max_bytes hmax))

theorem within_of_ok {opts : Option QueryOptions} (h : decode_query text opts = .ok q) : Within opts text := by
  intro max_bytes hmax
  unfold decode_query at h
  rw [hmax] at h
  dsimp only at h
  split at h
  · cases h
  next hle => exact not_lt.mp hle

theorem indexed_empty : Query.Indexed { pairs := [], by_name := ∅ } := fun _ => rfl

theorem decode_pieces_written {max_pairs : ℤ} {check_utf8 : Bool} (list : List Pair) (q : Query) :
    decode_pieces max_pairs lenient check_utf8 1 ((encode_query list).splitOn 38) q =
      decode_pieces max_pairs lenient check_utf8 1 (list.map encode_pair) q := by
  by_cases hlist : list = []
  · subst hlist
    rfl
  have hsplit : (concat [38] (list.map encode_pair)).splitOn 38 = list.map encode_pair := by
    refine splitOn_concat (by simpa using hlist) fun piece hpiece => ?_
    obtain ⟨pair, -, rfl⟩ := List.mem_map.mp hpiece
    exact ampersand_not_mem pair
  show decode_pieces _ _ _ 1 ((concat [38] (list.map encode_pair)).splitOn 38) q = _
  rw [hsplit]

/-- **URL paths and queries round-trip.** A text is read back from its escape; `segments` reads the paths
that can be joined, and those only, into segments that it reads again; `decode_query` reads the pairs that
`encode_query` writes; and what it reads strictly it reads leniently. -/
theorem urls_round_trip : (∀ text, unescape 1 (escape text) = .ok text) ∧
    (∀ path, ((∃ segs, segments path = .ok segs) ↔ Joinable path) ∧
      ∀ segs, segments path = .ok segs → (∀ seg ∈ segs, Answered seg) ∧
        segments (lit "/" ++ concat (lit "/") (segs.map escape)) = .ok segs) ∧
    (∀ (opts : Option QueryOptions) (list : List Pair),
      (∀ pair ∈ list, is_utf8 pair.name = true ∧ is_utf8 pair.value = true) →
      (list.length : ℤ) ≤ max_pairs_of opts → Within opts (encode_query list) →
      ∃ q, decode_query (encode_query list) opts = .ok q ∧ q.pairs = list ∧ q.Indexed) ∧
    (∀ (text : Bytes) (opts : Option QueryOptions) (q : Query), opts.bind QueryOptions.lenient ≠ some true →
      decode_query text opts = .ok q →
      decode_query text (some { opts.getD {} with lenient := some true }) = .ok q) := by
  refine ⟨unescape_escape 1, fun path => ⟨segments_joinable path, fun segs h => ?_⟩, ?_, ?_⟩
  · exact ⟨segments_answered h, segments_joined (segments_answered h)⟩
  · intro opts list hutf8 hroom hwithin
    rw [decode_query_within hwithin, decode_pieces_written]
    obtain ⟨q, hq, hpairs⟩ := decode_encoded hutf8
      (show (((Query.mk [] ∅).pairs.length + list.length : ℕ) : ℤ) ≤ max_pairs_of opts by simpa using hroom)
    exact ⟨q, hq, by rw [hpairs, List.nil_append], decode_pieces_indexed indexed_empty hq⟩
  · intro text opts q hstrict h
    have hwithin := within_of_ok h
    rw [decode_query_within hwithin, decide_eq_false hstrict] at h
    -- The options but for `lenient` are those given.
    have hother : max_pairs_of (some { opts.getD {} with lenient := some true }) = max_pairs_of opts ∧
        max_bytes_of (some { opts.getD {} with lenient := some true }) = max_bytes_of opts ∧
        (some { opts.getD {} with lenient := some true }).bind QueryOptions.utf8 = opts.bind QueryOptions.utf8 := by
      cases opts <;> exact ⟨rfl, rfl, rfl⟩
    obtain ⟨hpairs, hbytes, hutf8⟩ := hother
    have hwithin' : Within (some { opts.getD {} with lenient := some true }) text := fun max_bytes hmax =>
      hwithin max_bytes (hbytes ▸ hmax)
    rw [decode_query_within hwithin', hpairs, hutf8]
    exact decode_pieces_lenient h

/-- A path with an escape, a form of two pairs of one name, and a form read leniently. -/
theorem urls_round_trip_form : ((∀ seg ∈ [lit "a b", lit "c"], Answered seg) ∧
      segments (lit "/" ++ concat (lit "/") ([lit "a b", lit "c"].map escape)) = .ok [lit "a b", lit "c"]) ∧
    (∃ q, decode_query (encode_query [⟨lit "a b", lit "1+1"⟩, ⟨lit "a b", lit "&"⟩]) none = .ok q ∧
      q.pairs = [⟨lit "a b", lit "1+1"⟩, ⟨lit "a b", lit "&"⟩] ∧ q.Indexed) ∧
    decode_query (lit "a=%2b") (some { lenient := some true }) = .ok (Query.add ⟨[], ∅⟩ (lit "a") (lit "+")) :=
  ⟨(urls_round_trip.2.1 (lit "/a%20b//./c/")).2 [lit "a b", lit "c"] (by decide +kernel),
    urls_round_trip.2.2.1 none [⟨lit "a b", lit "1+1"⟩, ⟨lit "a b", lit "&"⟩] (by decide) (by decide)
      (fun _ h => nomatch h),
    urls_round_trip.2.2.2 (lit "a=%2b") none _ (by decide) rfl⟩

end Cosmic.Web.Url
