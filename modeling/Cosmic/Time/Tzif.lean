/-
TZif files (RFC 8536), as `parse_tzif` reads them.

Every read of a byte is `byte_at`, which raises where there is none. `data:byte` answers nil there;
it is read as `byte_at` too, so a program that does not raise has read nothing outside the data.
-/
import Cosmic.Base.BigEndian
import Cosmic.Base.Parts
import Cosmic.Lang.Types
import Cosmic.Time.Duration
import Cosmic.Time.PosixText

set_option autoImplicit false

namespace Cosmic.Time

open Cosmic.Base Function
open Attempt

/-! ## Numbers -/

section

variable (data : Bytes) (at_ : ℕ)

/-- The big-endian unsigned 32-bit integer at `at_` in `data`. -/
def u32 : Attempt ℕ := do
  let a ← byte_at data at_
  let b ← byte_at data (at_ + 1)
  let c ← byte_at data (at_ + 2)
  let d ← byte_at data (at_ + 3)
  return (a <<< 24) ||| (b <<< 16) ||| (c <<< 8) ||| d

/-- The big-endian signed 32-bit integer at `at_` in `data`. -/
def i32 : Attempt ℤ := do
  let n ← u32 data at_
  return if n ≥ 0x80000000 then n - 0x100000000 else n

/-- The big-endian signed 64-bit integer at `at_` in `data`: the shift wraps into the sign. -/
def i64 : Attempt ℤ := do
  let high ← u32 data at_
  let low ← u32 data (at_ + 4)
  return signed ((high <<< 32) ||| low : ℕ)

/-! ## The header -/

/-- The six counts of a TZif header. -/
structure Counts where
  isut : ℕ
  isstd : ℕ
  leap : ℕ
  time : ℕ
  type : ℕ
  char : ℕ

/-- A TZif file's counts, from the header at `at_`. -/
def tzif_counts : Attempt Counts := do
  Attempt.refuse (data.length < at_ + 43) (lit "truncated: a TZif header at byte " ++ tostring at_ ++ lit " needs 44 bytes, and " ++
    d_text (data.length - at_ + 1) ++ lit " remain")
  Attempt.refuse (sub data at_ (at_ + 3) ≠ lit "TZif") (lit "expected \"TZif\" at byte " ++ tostring at_)
  let isut ← u32 data (at_ + 20)
  let isstd ← u32 data (at_ + 24)
  let leap ← u32 data (at_ + 28)
  let time ← u32 data (at_ + 32)
  let type ← u32 data (at_ + 36)
  let char ← u32 data (at_ + 40)
  return { isut := isut, isstd := isstd, leap := leap, time := time, type := type, char := char }

end

/-- How many bytes the data block of these counts has, with transitions of `size` bytes. -/
def Counts.length (c : Counts) (size : ℕ) : ℕ := c.time * (size + 1) + c.type * 6 + c.char + c.isstd + c.isut

/-- The data block to read: where it is, its counts, and how many bytes a transition takes. -/
structure Block where
  version : ℕ
  counts : Counts
  at_ : ℕ
  size : ℕ

/-- `0x%02x` -/
def version_text (version : ℕ) : Bytes := lit "0x" ++ (if version < 16 then 48 :: hex version else hex version)

/-- The first half of `parse_tzif`: which of a file's two data blocks is read. -/
def find_block (data : Bytes) : Attempt Block := do
  let counts ← tzif_counts data 1
  let version ← byte_at data 5
  Attempt.refuse (version ≠ 0 ∧ (version < 0x32 ∨ version > 0x34))
    (lit "version byte " ++ version_text version ++ lit " is not 0, \"2\", \"3\" or \"4\"")
  if version = 0 then return { version := version, counts := counts, at_ := 45, size := 4 }
  else
    let second := 45 + counts.time * 5 + counts.type * 6 + counts.char + counts.leap * 8 + counts.isstd + counts.isut
    let counts ← explain (lit "the version 2 header: ") (tzif_counts data second)
    let again ← byte_at data (second + 4)
    Attempt.refuse (again ≠ version) (lit "the version 2 header at byte " ++ tostring second ++ lit " names version byte " ++
      version_text again ++ lit ", not " ++ version_text version)
    return { version := version, counts := counts, at_ := second + 44, size := 8 }

/-- Refuses counts that are no zone's, and a block that is not all there. -/
def check_counts (data : Bytes) (b : Block) : Attempt Unit := do
  let c := b.counts
  Attempt.refuse (c.type = 0) (lit "typecnt is 0: a zone has at least one local time type")
  Attempt.refuse (c.char = 0) (lit "charcnt is 0: a zone has at least one abbreviation")
  Attempt.refuse (c.isut ≠ 0 ∧ c.isut ≠ c.type)
    (lit "isutcnt " ++ tostring c.isut ++ lit " is neither 0 nor typecnt, " ++ tostring c.type)
  Attempt.refuse (c.isstd ≠ 0 ∧ c.isstd ≠ c.type)
    (lit "isstdcnt " ++ tostring c.isstd ++ lit " is neither 0 nor typecnt, " ++ tostring c.type)
  Attempt.refuse (c.leap ≠ 0) (tostring c.leap ++ lit " leap second records: cosmic time has no leap seconds")
  Attempt.refuse (b.at_ + c.length b.size - 1 > data.length) (lit "truncated: the data block at byte " ++ tostring b.at_ ++
    lit " needs " ++ counted (c.length b.size) (lit "byte") ++ lit ", and " ++ d_text (data.length - b.at_ + 1) ++
    lit " remain")

/-! ## The data block -/

/-- What the loop over the transitions keeps. -/
structure Transitions where
  transitions : List ℤ
  previous : Option ℤ
  at_ : ℕ

def read_transition (data : Bytes) (size i : ℕ) (s : Transitions) : Attempt Transitions := do
  let t ← (if size = 8 then i64 data s.at_ else i32 data s.at_)
  Attempt.refuse (s.previous.any (t ≤ ·) = true)
    (lit "transition " ++ tostring i ++ lit " at byte " ++ tostring s.at_ ++ lit " is not after the one before it")
  return { transitions := s.transitions ++ [t], previous := some t, at_ := s.at_ + size }

/-- What the loop over the transitions' types keeps. -/
structure Indices where
  indices : List ℕ
  at_ : ℕ

def read_index (data : Bytes) (types i : ℕ) (s : Indices) : Attempt Indices := do
  let index ← byte_at data s.at_
  Attempt.refuse (index ≥ types) (lit "transition " ++ tostring i ++ lit " names local time type " ++ tostring index ++
    lit ", and there are " ++ tostring types)
  return { indices := s.indices ++ [index + 1], at_ := s.at_ + 1 }

/-- What the pass back over the abbreviations keeps: the NUL at or after each place. -/
structure Nuls where
  next_nul : Option ℕ
  nul_after : ℕ → Option ℕ

/-- The round of the pass for `window - i`. -/
def pass_nul (data : Bytes) (names_at window i : ℕ) (s : Nuls) : Attempt Nuls := do
  let k := window - i
  let b ← byte_at data (names_at + k)
  let next_nul := if b = 0 then some k else s.next_nul
  return { next_nul := next_nul,
           nul_after := if next_nul ≠ none then update s.nul_after k next_nul else s.nul_after }

/-- What the loop over the local time types keeps. -/
structure Kinds where
  kinds : List Kind
  abbreviations : ℕ → Option Bytes
  at_ : ℕ

/-- The abbreviation at `name`, read once. -/
def read_abbreviation (data : Bytes) (names_at : ℕ) (nul_after : ℕ → Option ℕ) (i name : ℕ)
    (abbreviations : ℕ → Option Bytes) : Attempt (Bytes × (ℕ → Option Bytes)) :=
  let why := lit "local time type " ++ tostring (i - 1) ++
    lit "'s abbreviation has no NUL within 255 bytes and before the end of the abbreviations"
  match abbreviations name with
  | some abbreviation => .ok (abbreviation, abbreviations)
  | none =>
    match nul_after name with
    | none => .refused why
    | some nul =>
      if nul - name > 255 then .refused why
      else
        let abbreviation := sub data (names_at + name) (names_at + nul - 1)
        .ok (abbreviation, update abbreviations name (some abbreviation))

def read_kind (data : Bytes) (names_at chars : ℕ) (nul_after : ℕ → Option ℕ) (i : ℕ) (s : Kinds) : Attempt Kinds := do
  let offset ← i32 data s.at_
  let dst ← byte_at data (s.at_ + 4)
  let name ← byte_at data (s.at_ + 5)
  Attempt.refuse (offset < -89999 ∨ offset > 93599) (lit "local time type " ++ tostring (i - 1) ++ lit "'s offset " ++
    d_text offset ++ lit " is not -89999 through 93599")
  Attempt.refuse (dst > 1) (lit "local time type " ++ tostring (i - 1) ++ lit "'s isdst " ++ tostring dst ++ lit " is not 0 or 1")
  Attempt.refuse (name ≥ chars) (lit "local time type " ++ tostring (i - 1) ++ lit "'s abbreviation index " ++ tostring name ++
    lit " is past charcnt, " ++ tostring chars)
  let (abbreviation, abbreviations) ← read_abbreviation data names_at nul_after i name s.abbreviations
  return { kinds := s.kinds ++ [{ offset := offset, abbreviation := abbreviation, dst := dst = 1 }],
           abbreviations := abbreviations, at_ := s.at_ + 6 }

def read_indicator (data : Bytes) (i : ℕ) (at_ : ℕ) : Attempt ℕ := do
  let b ← byte_at data at_
  Attempt.refuse (b > 1) (lit "indicator " ++ tostring i ++ lit " at byte " ++ tostring at_ ++ lit " is not 0 or 1")
  return at_ + 1

/-! ## The footer -/

/-- The footer of a file of version 2 or later, and where it ends. -/
def read_footer (data : Bytes) (at_ : ℕ) : Attempt (Option Posix × ℕ) := do
  Attempt.refuse (sub data at_ at_ ≠ lit "\n") (lit "the footer at byte " ++ tostring at_ ++ lit " does not begin with a newline")
  match find (· == 10) data (at_ + 1) with
  | none => .refused (lit "the footer has no newline ending it")
  | some close =>
    let tz := sub data (at_ + 1) (close - 1)
    if tz = [] then return (none, close + 1)
    else
      match parse_posix tz with
      | .error footer_why =>
        let shown := if tz.length > 64 then sub tz 1 64 ++ lit "..." else tz
        .refused (lit "the footer's TZ string \"" ++ Types.quoted shown ++ lit "\": " ++ footer_why)
      | .ok footer => return (some footer, close + 1)

/-- `parse_tzif(data)` -/
def parse_tzif (data : Bytes) : Attempt Rules := do
  let b ← find_block data
  check_counts data b
  let c := b.counts
  let t ← each (read_transition data b.size) c.time { transitions := [], previous := none, at_ := b.at_ }
  let indices ← each (read_index data c.type) c.time { indices := [], at_ := t.at_ }
  let names_at := indices.at_ + c.type * 6
  -- Only the first 511 bytes of the abbreviations can hold one.
  let window := min c.char 511
  let nuls ← each (pass_nul data names_at window) window { next_nul := none, nul_after := fun _ => none }
  let kinds ← each (read_kind data names_at c.char nuls.nul_after) c.type
    { kinds := [], abbreviations := fun _ => none, at_ := indices.at_ }
  let at_ ← each (read_indicator data) (c.isstd + c.isut) (kinds.at_ + c.char)
  let first ← need kinds.kinds[0]?
  let each_kind ← collect (fun index => need kinds.kinds[index - 1]?) indices.indices
  let (footer, at_) ← (if b.version = 0 then .ok (none, at_) else read_footer data at_)
  Attempt.refuse (at_ ≤ data.length)
    (counted (data.length - at_ + 1) (lit "byte") ++ lit " past the end, at byte " ++ tostring at_)
  return { transitions := t.transitions, kinds := each_kind, first := first, footer := footer }

end Cosmic.Time
