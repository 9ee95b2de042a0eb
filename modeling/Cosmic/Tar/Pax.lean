/-
The records of a pax extended header, as `parse_pax` reads them.

A record is its own length in decimal, a space, `key=value` and a line feed. The loop reads the
length of the record at `at` as any text `tonumber` reads, adds it to `at` in 64 bits, and goes on
there. Here the loop is `parse_pax`, which is given how many rounds it may take; `Reads` is a run of
it with the records it takes. What a run should be is `ReadsAll`: the records of the longest run of
records the body starts with, and no others.
-/
import Cosmic.Base.Runs
import Cosmic.Base.Slice

set_option autoImplicit false

namespace Cosmic.Tar

open Cosmic.Base List Option Nat

/-- The machine's floats, with the integer that a float is, if it is one. -/
structure Doubles (F : Type) extends Floats F where
  to_integer : F → Option ℤ
  to_integer_range : ∀ {x n}, to_integer x = some n → -2 ^ 63 ≤ n ∧ n < 2 ^ 63

variable {F : Type}

/-- `math.tointeger(x)` -/
def tointeger (fl : Doubles F) : Number F → Option ℤ
  | .integer n => some n
  | .float x => fl.to_integer x

/-! ## The loop -/

/-- A record taken: where it was read from, where the space after its length stands, the length as it
was read, and the text (the source's `rec`). -/
structure Record where
  at_ : ℤ
  sp : ℕ
  len : ℤ
  text : Bytes
  deriving DecidableEq

/-- The length that stands at `at`, up to the space at `sp`. -/
def length_at (fl : Doubles F) (body : Bytes) (at_ : ℤ) (sp : ℕ) : Option ℤ :=
  (tonumber fl.toFloats (slice body at_ (sp - 1))).bind (tointeger fl)

/-- The record at `at`, or nothing where the loop breaks. -/
def read_record (fl : Doubles F) (body : Bytes) (at_ : ℤ) : Option Record :=
  match find_byte 32 body at_ with
  | none => none
  | some sp =>
    match length_at fl body at_ sp with
    | none => none
    | some len =>
      -- `at + len - 1`, each sum in 64 bits.
      let last := signed (signed (at_ + len) - 1)
      if len ≤ 0 ∨ last > body.length then none
      else some { at_ := at_, sp := sp, len := len, text := slice body at_ last }

/-- The keys [`apply_pax`] reads. -/
def kept_keys : List Bytes := [lit "path", lit "linkpath", lit "size", lit "mtime", lit "uid", lit "gid"]

/-- The table with what the record `r` says, where its key is one that is kept. -/
def keep (out : Table Bytes Bytes) (r : Record) : Table Bytes Bytes :=
  match find_byte 61 r.text 1 with
  | none => out
  | some eq =>
    let key := slice r.text (signed (signed (r.sp - r.at_) + 2)) (eq - 1)
    if slice key 1 11 = lit "GNU.sparse." then out.insert (lit "GNU.sparse.") []
    else if key ∈ kept_keys then out.insert key (slice r.text (eq + 1) (r.text.length - 1))
    else out

/-- The loop of `parse_pax` from `at` on, for at most as many rounds as it is given. -/
def parse_pax_loop (fl : Doubles F) (body : Bytes) : ℕ → ℤ → Table Bytes Bytes → Option (Table Bytes Bytes)
  | 0, at_, out => if at_ ≤ body.length then none else some out
  | rounds + 1, at_, out =>
    if at_ ≤ body.length then
      match read_record fl body at_ with
      | none => some out
      | some r => parse_pax_loop fl body rounds (signed (at_ + r.len)) (keep out r)
    else some out

/-- `parse_pax(body)`, where it ends in as many rounds. -/
def parse_pax (fl : Doubles F) (rounds : ℕ) (body : Bytes) : Option (Table Bytes Bytes) :=
  parse_pax_loop fl body rounds 1 ∅

/-- The loop from `at` on takes the records `rs`, and ends. -/
inductive Reads (fl : Doubles F) (body : Bytes) : ℤ → List Record → Prop
  | past {at_ : ℤ} (hat : body.length < at_) : Reads fl body at_ []
  | broken {at_ : ℤ} (hat : at_ ≤ body.length) (h : read_record fl body at_ = none) : Reads fl body at_ []
  | taken {at_ : ℤ} {r : Record} {rs : List Record} (hat : at_ ≤ body.length)
      (h : read_record fl body at_ = some r) (hrs : Reads fl body (signed (at_ + r.len)) rs) :
      Reads fl body at_ (r :: rs)

/-! ## What a run should be -/

/-- `length SP key=value LF`, whose decimal length is the record's own. -/
def IsRecord (r : Bytes) : Prop :=
  ∃ digits key value, r = digits ++ 32 :: (key ++ 61 :: (value ++ [10])) ∧ decimal digits = some r.length ∧ 61 ∉ key

/-- The loop takes `rs` and ends in as many rounds as the body has bytes; each record is read from
further on than the one before, and lies in the body; and they are the longest run of records that
the body starts with. -/
structure ReadsAll (fl : Doubles F) (body : Bytes) (rs : List Record) : Prop where
  reads : Reads fl body 1 rs
  ends : parse_pax fl body.length body = some (rs.foldl keep ∅)
  ascending : (rs.map Record.at_).Pairwise (· < ·)
  within : ∀ r ∈ rs, 1 ≤ r.at_ ∧ r.at_ ≤ body.length ∧ 0 < r.len ∧ r.at_ + r.len ≤ body.length + 1
  longest : Runs.Longest IsRecord (rs.map Record.text) body

/-- After the first `n` bytes there stands no text, up to a space, that reads as a length of 1 or
more which either fits in what is left or takes the sum with `n` past the largest integer. -/
def Stops (fl : Doubles F) (body : Bytes) (n : ℕ) : Prop :=
  ∀ sp len, find_byte 32 body (n + 1 : ℕ) = some sp → length_at fl body (n + 1 : ℕ) sp = some len → 0 < len →
    body.length < n + len ∧ n + len < 2 ^ 63

/-!
`parse_pax` takes the records that a pax header starts with, and where it ends there.

A record is read as it stands, wherever it stands, since nothing in the loop depends on what came
before it. So the loop goes through the longest run of records first, and everything turns on what
it makes of the bytes after that run: it should break there. It does not where `tonumber` reads a
length in them that fits, as one in hexadecimal or before a text with no `=`, or one so large that
`at + len` wraps around and passes the comparison as a negative number.
-/

variable {F : Type} (fl : Doubles F)

/-! ## Records say where they end -/

theorem decimal_some {s : Bytes} {n : ℕ} (h : decimal s = some n) :
    s ≠ [] ∧ (∀ b ∈ s, isDigit b = true) ∧ digits_value 10 s = n := by
  obtain ⟨⟨hne, hall⟩, hn⟩ := ite_none_right_eq_some.mp h
  exact ⟨hne, all_eq_true.mp hall, some.inj hn⟩

theorem digits_front {digits t s : Bytes} (hd : ∀ b ∈ digits, isDigit b = true) (h : digits ++ 32 :: t <+: s) :
    s.takeWhile isDigit = digits := by
  obtain ⟨u, rfl⟩ := h
  rw [append_assoc, takeWhile_append_of_pos hd, cons_append, takeWhile_cons_of_neg (by decide), append_nil]

theorem IsRecord.delimited : Runs.Delimited IsRecord where
  ne_nil := by
    rintro r ⟨digits, key, value, rfl, -, -⟩ h
    exact cons_ne_nil _ _ (append_eq_nil_iff.mp h).2
  unique := by
    rintro r r' s ⟨digits, key, value, hr, hlen, -⟩ ⟨digits', key', value', hr', hlen', -⟩ hs hs'
    obtain ⟨-, hd, hval⟩ := decimal_some hlen
    obtain ⟨-, hd', hval'⟩ := decimal_some hlen'
    have hdigits : digits = digits' := by
      rw [← digits_front hd (hr ▸ hs), ← digits_front hd' (hr' ▸ hs')]
    have hlength : r.length = r'.length := by
      rw [← hval, ← hval', hdigits]
    exact (prefix_of_prefix_length_le hs hs' hlength.le).eq_of_length hlength

theorem IsRecord.two_le {r : Bytes} (h : IsRecord r) : 2 ≤ r.length := by
  obtain ⟨digits, key, value, rfl, -, -⟩ := h
  simp only [length_append, length_cons]
  omega

variable {body : Bytes}

theorem length_range {at_ : ℤ} {sp : ℕ} {len : ℤ} (h : length_at fl body at_ sp = some len) :
    -2 ^ 63 ≤ len ∧ len < 2 ^ 63 := by
  obtain ⟨x, hx, hlen⟩ := bind_eq_some_iff.mp h
  cases x with
  | float x => exact fl.to_integer_range hlen
  | integer n =>
    unfold tonumber at hx
    split at hx
    · next hn =>
      cases hx
      cases hlen
      exact str2int_range hn
    · split at hx <;> cases hx

/-! ## A record is read as it stands -/

/-- What is read of a record that stands after `p` bytes. -/
def record_at (p : ℕ) (r : Bytes) : Record :=
  { at_ := (p + 1 : ℕ), sp := (r.takeWhile isDigit).length + 1 + p, len := r.length, text := r }

theorem read_record_eq {r : Bytes} (hr : IsRecord r) (done rest : Bytes)
    (hmax : (done ++ (r ++ rest)).length + 1 < 2 ^ 63) :
    read_record fl (done ++ (r ++ rest)) (done.length + 1 : ℕ) = some (record_at done.length r) := by
  obtain ⟨digits, key, value, heq, hlen, -⟩ := hr
  obtain ⟨hne, hd, hval⟩ := decimal_some hlen
  have hfront : r.takeWhile isDigit = digits := digits_front hd ⟨[], by rw [append_nil, ← heq]⟩
  have hbody : (done ++ (r ++ rest)).length = done.length + (r.length + rest.length) := by
    rw [length_append, length_append]
  have hle : digits.length ≤ r.length := by
    rw [heq, length_append]
    omega
  -- The first space is the one after the digits.
  have hsp : find_byte 32 (done ++ (r ++ rest)) (done.length + 1 : ℕ) = some (digits.length + 1 + done.length) := by
    have hnospace : ∀ b ∈ digits, (b == 32) = false := fun b hb =>
      beq_eq_false_iff_ne.mpr (digit_ne (hd b hb) (.inl (by decide)))
    rw [find_byte_eq 32 _ (by omega), find_append, heq, append_assoc, cons_append,
      find_first hnospace (by decide), map_some]
  have hlength : length_at fl (done ++ (r ++ rest)) (done.length + 1 : ℕ) (digits.length + 1 + done.length) =
      some (r.length : ℤ) := by
    have hlast : ((digits.length + 1 + done.length : ℕ) : ℤ) - 1 = (done.length + digits.length : ℕ) := by
      push_cast
      ring
    have htake : sub (r ++ rest) 1 digits.length = digits := by
      unfold sub
      rw [Nat.sub_self, drop_zero, heq, append_assoc, take_left]
    unfold length_at
    rw [hlast, slice_eq (by omega) (by omega), sub_append, htake, tonumber_digits fl.toFloats hne hd (by omega), hval]
    rfl
  have hlast : signed (signed (((done.length + 1 : ℕ) : ℤ) + (r.length : ℤ)) - 1) = (done.length + r.length : ℕ) := by
    rw [signed_of_range (n := _ + _) (by omega), signed_of_range (by omega)]
    push_cast
    ring
  have hpos : 0 < r.length := by
    rw [heq, length_append, length_cons]
    omega
  have htext : slice (done ++ (r ++ rest)) (done.length + 1 : ℕ) (done.length + r.length : ℕ) = r := by
    rw [slice_eq (by omega) (by omega), sub_append]
    unfold sub
    rw [Nat.sub_self, drop_zero, take_left]
  unfold read_record
  simp only [hsp, hlength, hlast]
  rw [if_neg (by omega), htext]
  unfold record_at
  rw [hfront]

theorem read_record_none {n : ℕ} (hn : n ≤ body.length) (hmax : body.length + 1 < 2 ^ 63) :
    read_record fl body (n + 1 : ℕ) = none ↔ Stops fl body n := by
  unfold read_record Stops
  cases hsp : find_byte 32 body (n + 1 : ℕ) with
  | none => exact ⟨nofun, fun _ => rfl⟩
  | some sp =>
    simp only
    cases hlen : length_at fl body (n + 1 : ℕ) sp with
    | none =>
      refine ⟨fun _ sp' len hsp' h => ?_, fun _ => rfl⟩
      rw [← some.inj hsp', hlen] at h
      cases h
    | some len =>
      have hrange := length_range fl hlen
      have hlast : signed (signed (((n + 1 : ℕ) : ℤ) + len) - 1) = signed (n + len) := by
        rw [sub_eq_add_neg, signed_add]
        congr 1
        push_cast
        ring
      simp only [hlast]
      constructor
      · intro h sp' len' hsp' hlen' hpos
        rw [← some.inj hsp', hlen] at hlen'
        rw [← some.inj hlen'] at hpos ⊢
        have hbreak : len ≤ 0 ∨ signed (n + len) > body.length := by
          by_contra hgo
          rw [if_neg hgo] at h
          cases h
        have hlarge := hbreak.resolve_left (by omega)
        unfold signed at hlarge
        omega
      · intro h
        by_cases hpos : 0 < len
        · obtain ⟨hfits, hwraps⟩ := h sp len rfl hlen hpos
          rw [signed_of_range (by omega), if_pos (.inr hfits)]
        · rw [if_pos (.inl (by omega))]

/-! ## The run of the loop -/

/-- The records `run`, read from after `p` bytes. -/
def records_at : ℕ → List Bytes → List Record
  | _, [] => []
  | p, r :: run => record_at p r :: records_at (p + r.length) run

theorem records_at_text (p : ℕ) (run : List Bytes) : (records_at p run).map Record.text = run := by
  induction run generalizing p with
  | nil => rfl
  | cons r run ih =>
    unfold records_at
    rw [map_cons, ih]
    rfl

variable {run : List Bytes}

theorem records_at_within (hrun : ∀ r ∈ run, IsRecord r) (p : ℕ) :
    ∀ r ∈ records_at p run, (p : ℤ) + 1 ≤ r.at_ ∧ 0 < r.len ∧ r.at_ + r.len ≤ p + run.flatten.length + 1 := by
  induction run generalizing p with
  | nil => exact nofun
  | cons t run ih =>
    obtain ⟨ht, hrest⟩ := forall_mem_cons.mp hrun
    have hpos := ht.two_le
    rw [flatten_cons, length_append]
    refine forall_mem_cons.mpr ⟨?_, fun r hr => ?_⟩
    · simp only [record_at]
      omega
    · have := ih hrest (p + t.length) r hr
      omega

theorem records_at_ascending (hrun : ∀ r ∈ run, IsRecord r) (p : ℕ) :
    ((records_at p run).map Record.at_).Pairwise (· < ·) := by
  induction run generalizing p with
  | nil => exact List.Pairwise.nil
  | cons t run ih =>
    obtain ⟨ht, hrest⟩ := forall_mem_cons.mp hrun
    have hpos := ht.two_le
    unfold records_at
    rw [map_cons]
    refine pairwise_cons.mpr ⟨fun a ha => ?_, ih hrest _⟩
    obtain ⟨r, hr, rfl⟩ := mem_map.mp ha
    have := (records_at_within hrest (p + t.length) r hr).1
    simp only [record_at]
    omega

theorem reads_run (hrun : ∀ r ∈ run, IsRecord r) (done rest : Bytes)
    (hmax : (done ++ (run.flatten ++ rest)).length + 1 < 2 ^ 63) (rs : List Record) :
    Reads fl (done ++ (run.flatten ++ rest)) (done.length + 1 : ℕ) rs ↔
      ∃ more, rs = records_at done.length run ++ more ∧
        Reads fl (done ++ (run.flatten ++ rest)) (done.length + run.flatten.length + 1 : ℕ) more := by
  induction run generalizing done rs with
  | nil =>
    simp only [records_at, nil_append, flatten_nil, length_nil, Nat.add_zero, exists_eq_left']
  | cons t run ih =>
    obtain ⟨ht, hrest⟩ := forall_mem_cons.mp hrun
    have hpos := ht.two_le
    have hbody : done ++ ((t :: run).flatten ++ rest) = done ++ (t ++ (run.flatten ++ rest)) := by
      rw [flatten_cons, append_assoc]
    have hbody' : done ++ (t ++ (run.flatten ++ rest)) = done ++ t ++ (run.flatten ++ rest) :=
      (append_assoc _ _ _).symm
    have hlength : (done ++ (t ++ (run.flatten ++ rest))).length =
        done.length + (t.length + (run.flatten.length + rest.length)) := by
      simp only [length_append]
    rw [hbody] at hmax ⊢
    have hread := read_record_eq fl ht done (run.flatten ++ rest) hmax
    have hnext : signed ((done.length + 1 : ℕ) + (record_at done.length t).len) = ((done ++ t).length + 1 : ℕ) := by
      rw [length_append]
      simp only [record_at]
      rw [signed_of_range (by omega)]
      push_cast
      ring
    have hlast : (done ++ t).length + run.flatten.length = done.length + (t :: run).flatten.length := by
      rw [length_append, flatten_cons, length_append, Nat.add_assoc]
    have hih := ih hrest (done ++ t) (hbody' ▸ hmax)
    rw [← hbody', hlast, length_append] at hih
    constructor
    · intro h
      cases h with
      | past hat => omega
      | broken hat h => exact absurd (hread.symm.trans h) (by simp)
      | taken hat h hrs =>
        rw [hread] at h
        cases some.inj h
        rw [hnext, length_append] at hrs
        obtain ⟨more, rfl, hmore⟩ := (hih _).mp hrs
        exact ⟨more, rfl, hmore⟩
    · rintro ⟨more, rfl, hmore⟩
      refine .taken (by omega) hread ?_
      rw [hnext, length_append]
      exact (hih _).mpr ⟨more, rfl, hmore⟩

/-- A run of the loop leaves what its records say, where it may take a round for each of them and one
to break. -/
theorem Reads.loop {at_ : ℤ} {rs : List Record} (h : Reads fl body at_ rs) {rounds : ℕ}
    (hrounds : rs.length < rounds) (out : Table Bytes Bytes) :
    parse_pax_loop fl body rounds at_ out = some (rs.foldl keep out) := by
  induction h generalizing rounds out with
  | past hat =>
    cases rounds with
    | zero => exact if_neg (by omega)
    | succ rounds => exact if_neg (by omega)
  | broken hat h =>
    obtain ⟨n, rfl⟩ := exists_eq_succ_of_ne_zero (Nat.ne_of_gt hrounds)
    unfold parse_pax_loop
    rw [if_pos hat, h]
    rfl
  | taken hat h _ ih =>
    obtain ⟨n, rfl⟩ := exists_eq_succ_of_ne_zero (Nat.ne_of_gt (zero_lt_of_lt hrounds))
    unfold parse_pax_loop
    rw [if_pos hat, h]
    exact ih (lt_of_succ_lt_succ hrounds) _

theorem run_lt (h : Runs.Run IsRecord run body) (hbody : body ≠ []) : run.length < body.length := by
  cases run with
  | nil => exact length_pos_of_ne_nil hbody
  | cons r run =>
    obtain ⟨hr, hrun⟩ := forall_mem_cons.mp h.records
    have htail : Runs.Run IsRecord run run.flatten := ⟨hrun, prefix_rfl⟩
    have hle := htail.length_le IsRecord.delimited
    have hstarts := h.starts.length_le
    have htwo := hr.two_le
    rw [flatten_cons, length_append] at hstarts
    rw [length_cons]
    omega

theorem reads_all (hmax : body.length + 1 < 2 ^ 63) (hrun : Runs.Longest IsRecord run body)
    (hstops : Stops fl body run.flatten.length) :
    ReadsAll fl body (records_at 0 run) := by
  have hwithin := records_at_within hrun.records 0
  have hle := hrun.starts.length_le
  have hreads : Reads fl body 1 (records_at 0 run) := by
    obtain ⟨rest, rfl⟩ := hrun.starts
    refine (reads_run fl hrun.records [] rest hmax _).mpr ⟨[], (append_nil _).symm, ?_⟩
    rw [length_nil, Nat.zero_add]
    by_cases hat : ((run.flatten.length + 1 : ℕ) : ℤ) ≤ (run.flatten ++ rest).length
    · exact .broken hat ((read_record_none fl hle hmax).mpr hstops)
    · exact .past (Int.not_le.mp hat)
  refine ⟨hreads, ?_, records_at_ascending hrun.records 0, fun r hr => ?_, ?_⟩
  · cases body with
    | nil =>
      -- With no bytes there is no round at all.
      have hnone : run = [] := by
        have := Runs.Run.length_le IsRecord.delimited hrun.toRun
        exact eq_nil_of_length_eq_zero (le_zero.mp this)
      rw [hnone]
      rfl
    | cons b t =>
      refine hreads.loop fl ?_ ∅
      have := run_lt hrun.toRun (cons_ne_nil b t)
      rwa [← records_at_text 0 run, length_map] at this
  · have := hwithin r hr
    omega
  · rwa [records_at_text]

theorem reads_all_iff (hmax : body.length + 1 < 2 ^ 63) (hrun : Runs.Longest IsRecord run body) :
    (∃ rs, ReadsAll fl body rs) ↔ Stops fl body run.flatten.length := by
  refine ⟨fun ⟨rs, h⟩ => ?_, fun h => ⟨_, reads_all fl hmax hrun h⟩⟩
  have htexts : rs.map Record.text = run := h.longest.unique IsRecord.delimited hrun
  have hle := hrun.starts.length_le
  have hreads := h.reads
  obtain ⟨rest, rfl⟩ := hrun.starts
  obtain ⟨more, rfl, hmore⟩ := (reads_run fl hrun.records [] rest hmax _).mp hreads
  -- The texts are all of the run, so nothing was taken after it.
  rw [map_append, length_nil, records_at_text, append_right_eq_self, map_eq_nil_iff] at htexts
  subst htexts
  rw [length_nil, Nat.zero_add] at hmore
  cases hmore with
  | broken hat h => exact (read_record_none fl hle hmax).mp h
  | past hat =>
    -- The run is the whole body, and there is no space after it.
    intro sp len hsp
    have hnone : find_byte 32 (run.flatten ++ rest) (run.flatten.length + 1 : ℕ) = none := by
      rw [nil_append, length_append] at hat
      have hrest : rest = [] := eq_nil_of_length_eq_zero (by omega)
      rw [find_byte_eq 32 _ (by omega), find_append, hrest]
      rfl
    rw [hnone] at hsp
    cases hsp

/-- Every body starts with a longest run of records. `parse_pax` reads that run, in as many rounds as
the body has bytes, exactly where it breaks on the bytes after it. Lua has no string as long as the
largest integer. -/
theorem parse_pax_reads_all {body : Bytes} (hmax : body.length + 1 < 2 ^ 63) :
    ∃ run, Runs.Longest IsRecord run body ∧ ((∃ rs, ReadsAll fl body rs) ↔ Stops fl body run.flatten.length) := by
  obtain ⟨run, rest, -, hrun, -⟩ := Runs.exists_longest IsRecord.delimited body
  exact ⟨run, hrun, reads_all_iff fl hmax hrun⟩

/-! ## Where it goes on instead -/

/-- Floats that no numeral here asks for. -/
def no_floats : Doubles Unit where
  read _ := ()
  of_integer _ := ()
  finite _ := false
  text _ := []
  to_integer _ := none
  to_integer_range h := absurd h (by simp)

/-- A record, and one that says it is as long as the largest integer. -/
def wrapping_body : Bytes := lit "6 a=b\n9223372036854775807 x=y\n"

/-- The second record of `wrapping_body` does not lie in it. Its length takes `at` to a negative
position, from where the loop reads the first record again. -/
theorem parse_pax_wraps : ¬∃ rs, ReadsAll no_floats wrapping_body rs := by
  rintro ⟨rs, h⟩
  have hfirst : read_record no_floats wrapping_body 1 = some ⟨1, 2, 6, lit "6 a=b\n"⟩ := by decide +kernel
  have hsecond : read_record no_floats wrapping_body 7 = some ⟨7, 26, 2 ^ 63 - 1, []⟩ := by decide +kernel
  have hwithin := h.within
  cases h.reads with
  | past hat => cases hat
  | broken hat hr => exact absurd (hfirst.symm.trans hr) (by simp)
  | taken hat hr hrs =>
    rw [hfirst] at hr
    cases some.inj hr
    cases hrs with
    | past hat => cases hat
    | broken hat hr => exact absurd (hsecond.symm.trans hr) (by simp)
    | taken hat hr hrs =>
      cases some.inj hr
      have hlen := (hwithin _ (mem_cons_of_mem _ mem_cons_self)).2.2.2
      cases hlen

/-- One record, and a body that ends after it. -/
theorem parse_pax_reads_all_one : ∃ run, Runs.Longest IsRecord run (lit "6 a=b\n") ∧
      ((∃ rs, ReadsAll no_floats (lit "6 a=b\n") rs) ↔ Stops no_floats (lit "6 a=b\n") run.flatten.length) :=
  parse_pax_reads_all no_floats (by decide)

end Cosmic.Tar
