/-
The records of a TLS stream, and one pass over them.

A record is a structure whose fields keep it within the caps of its header, so that `record_header`
reads the length of every record, and of nothing else. The pass takes whole records one at a time; the
reader's loop takes those of what it holds, and is shown to be the pass over all it was fed.
-/
import Cosmic.Relay.Hello
import Cosmic.Relay.SocksRead

set_option autoImplicit false

namespace Cosmic.Wire

open Cosmic.Base List Except UInt8

/-! ## Numbers of two bytes -/

def u16_bytes (n : ℕ) : Bytes := [UInt8.ofNat (n / 256), UInt8.ofNat n]

@[simp] theorem u16_bytes_length (n : ℕ) : (u16_bytes n).length = 2 := rfl

/-- The number of two bytes. -/
def pair (a b : UInt8) : ℕ := a.toNat * 256 + b.toNat

theorem pair_lt (a b : UInt8) : pair a b < 65536 := by
  have ha := a.toNat_lt
  have hb := b.toNat_lt
  unfold pair
  omega

variable {n : ℕ}

theorem pair_u16_bytes (h : n < 65536) : pair (UInt8.ofNat (n / 256)) (UInt8.ofNat n) = n := by
  unfold pair
  rw [toNat_ofNat', toNat_ofNat']
  omega

theorem ofNat_eq {b : UInt8} (h : n % 256 = b.toNat) : UInt8.ofNat n = b := by
  apply UInt8.toNat_inj.mp
  rw [toNat_ofNat', h]

theorem u16_bytes_pair (a b : UInt8) : u16_bytes (pair a b) = [a, b] := by
  have ha := a.toNat_lt
  have hb := b.toNat_lt
  have hhigh : UInt8.ofNat (pair a b / 256) = a := ofNat_eq (by unfold pair; omega)
  have hlow : UInt8.ofNat (pair a b) = b := ofNat_eq (by unfold pair; omega)
  rw [u16_bytes, hhigh, hlow]

theorem u16_middle (w : Bytes) (a b : UInt8) (s : Bytes) {k : ℕ} (h : w.length + 1 = k) :
    u16 (w ++ a :: b :: s) k = pair a b := by
  have hsecond : byte_at (w ++ a :: b :: s) (k + 1) = b := by
    rw [append_cons]
    apply byte_at_middle
    rw [length_append, length_singleton]
    omega
  rw [u16, byte_at_middle w a _ h, hsecond, pair]

/-! ## Records -/

/-- A handshake record within the caps of its header. -/
structure Record where
  minor : UInt8
  payload : Bytes
  minor_le : minor ≤ 4
  payload_pos : 0 < payload.length
  payload_le : payload.length ≤ 16384

def Record.encode (r : Record) : Bytes := 22 :: 3 :: r.minor :: (u16_bytes r.payload.length ++ r.payload)

theorem Record.encode_length (r : Record) : r.encode.length = 5 + r.payload.length := by
  unfold encode
  simp only [length_cons, length_append, u16_bytes_length]
  omega

def encoded (rs : List Record) : Bytes := (rs.map Record.encode).flatten

def joined (rs : List Record) : Bytes := (rs.map Record.payload).flatten

@[simp] theorem encoded_nil : encoded [] = [] := rfl

@[simp] theorem joined_nil : joined [] = [] := rfl

theorem encoded_cons (r : Record) (rs : List Record) : encoded (r :: rs) = r.encode ++ encoded rs := rfl

theorem joined_cons (r : Record) (rs : List Record) : joined (r :: rs) = r.payload ++ joined rs := rfl

theorem record_header_drop (data : Bytes) (k : ℕ) (first : Bool) :
    record_header data (k + 1) first = record_header (data.drop k) 1 first := by
  have hbyte : ∀ i, byte_at data (k + 1 + i) = byte_at (data.drop k) (1 + i) := by
    intro i
    rw [show k + 1 + i = k + i + 1 by omega, Nat.add_comm 1 i, byte_at_succ, byte_at_succ, getElem?_drop]
  have hfirst : byte_at data (k + 1) = byte_at (data.drop k) 1 := hbyte 0
  have hhave : data.length + 1 - (k + 1) = (data.drop k).length + 1 - 1 := by
    rw [length_drop]
    omega
  unfold record_header u16
  rw [hhave, hfirst, hbyte 1, hbyte 2, hbyte 3, show k + 1 + 3 + 1 = k + 1 + 4 by omega, hbyte 4]

theorem record_header_five (m x y : UInt8) (t : Bytes) (first : Bool) (hm : m ≤ 4) :
    record_header (22 :: 3 :: m :: x :: y :: t) 1 first =
      if pair x y = 0 ∨ pair x y > 16384 then
        .error (malformed (lit "a handshake record of length " ++ tostring (pair x y)))
      else .ok (pair x y) := by
  have hu : u16 (22 :: 3 :: m :: x :: y :: t) (1 + 3) = pair x y := u16_middle [22, 3, m] x y t rfl
  have hhave : (22 :: 3 :: m :: x :: y :: t).length + 1 - 1 = t.length + 5 := rfl
  have h₁ : byte_at (22 :: 3 :: m :: x :: y :: t) 1 = 22 := rfl
  have h₂ : byte_at (22 :: 3 :: m :: x :: y :: t) (1 + 1) = 3 := rfl
  have h₃ : byte_at (22 :: 3 :: m :: x :: y :: t) (1 + 2) = m := rfl
  unfold record_header
  rw [hhave, hu, h₁, h₂, h₃, if_neg (by omega), if_neg (by simp), if_neg (by omega),
    if_neg (by simp), if_neg (by omega), if_neg (UInt8.not_lt.mpr hm), if_neg (by omega)]

theorem record_header_encode (r : Record) (rest : Bytes) (first : Bool) :
    record_header (r.encode ++ rest) 1 first = .ok r.payload.length := by
  have hpos := r.payload_pos
  have hle := r.payload_le
  have hpair := pair_u16_bytes (show r.payload.length < 65536 by omega)
  have hfive := record_header_five r.minor (UInt8.ofNat (r.payload.length / 256))
    (UInt8.ofNat r.payload.length) (r.payload ++ rest) first r.minor_le
  rwa [hpair, if_neg (by omega)] at hfive

variable {first : Bool}

theorem record_header_five_ok {a b m x y : UInt8} {t : Bytes}
    (h : record_header (a :: b :: m :: x :: y :: t) 1 first = .ok n) :
    a = 22 ∧ b = 3 ∧ m ≤ 4 ∧ 0 < n ∧ n ≤ 16384 ∧ pair x y = n := by
  have herror : ∀ refusal : Hello, ¬(Except.error refusal : Except Hello ℕ) = .ok n := by simp
  have hhave : (a :: b :: m :: x :: y :: t).length + 1 - 1 = t.length + 5 := rfl
  have hhead : a = 22 ∧ b = 3 ∧ m ≤ 4 := by
    unfold record_header at h
    rw [hhave, if_neg (by omega)] at h
    obtain ⟨ha, h⟩ := of_failed (P := fun r : Except Hello ℕ => r = .ok n) h (herror _)
    rw [if_neg (by omega)] at h
    obtain ⟨hb, h⟩ := of_failed (P := fun r : Except Hello ℕ => r = .ok n) h (herror _)
    rw [if_neg (by omega)] at h
    obtain ⟨hm, -⟩ := of_failed (P := fun r : Except Hello ℕ => r = .ok n) h (herror _)
    exact ⟨not_not.mp ha, not_not.mp hb, UInt8.not_lt.mp hm⟩
  obtain ⟨rfl, rfl, hm⟩ := hhead
  rw [record_header_five m x y t first hm] at h
  obtain ⟨hlength, h⟩ := of_failed (P := fun r : Except Hello ℕ => r = .ok n) h (herror _)
  have hn : pair x y = n := ok.inj h
  exact ⟨rfl, rfl, hm, by omega, by omega, hn⟩

variable {data : Bytes}

/-- A header that is not refused begins a record, of the length read; the length is 0 until all of
the header is there. -/
theorem record_header_ok (h : record_header data 1 first = .ok n) : n = 0 ∧ data.length < 5 ∨
      0 < n ∧ n ≤ 16384 ∧ ∃ m t, m ≤ 4 ∧ data = 22 :: 3 :: m :: (u16_bytes n ++ t) := by
  by_cases hlen : data.length < 5
  · left
    refine ⟨?_, hlen⟩
    unfold record_header at h
    dsimp only at h
    rw [Nat.add_sub_cancel, if_pos hlen] at h
    split_ifs at h <;> exact (ok.inj h).symm
  · right
    obtain ⟨w, t, rfl, hw⟩ := exists_split (Nat.le_of_not_lt hlen)
    obtain ⟨a, b, m, x, y, rfl⟩ : ∃ a b m x y, w = [a, b, m, x, y] := by
      match w, hw with
      | [a, b, m, x, y], _ => exact ⟨a, b, m, x, y, rfl⟩
    obtain ⟨rfl, rfl, hm, hpos, hle, rfl⟩ := record_header_five_ok h
    refine ⟨hpos, hle, m, t, hm, ?_⟩
    rw [u16_bytes_pair]
    rfl

theorem exists_record (h : record_header data 1 first = .ok n) (hn : n ≠ 0) (hlen : 5 + n ≤ data.length) :
    ∃ (r : Record) (rest : Bytes), data = r.encode ++ rest ∧ r.payload.length = n := by
  obtain ⟨hzero, -⟩ | ⟨hpos, hle, m, t, hm, rfl⟩ := record_header_ok h
  · exact absurd hzero hn
  · simp only [length_cons, length_append, u16_bytes_length] at hlen
    obtain ⟨payload, rest, rfl, rfl⟩ := exists_split (show n ≤ t.length by omega)
    refine ⟨⟨m, payload, hm, hpos, hle⟩, rest, ?_, rfl⟩
    simp only [Record.encode, cons_append, append_assoc]

theorem record_header_settled (data more : Bytes) (first : Bool) :
    Settled (· ≠ .ok 0) (record_header data 1 first) (record_header (data ++ more) 1 first) := by
  unfold record_header
  rw [Nat.add_sub_cancel, Nat.add_sub_cancel]
  refine Settled.need more (fun h => h rfl) fun h₁ => ?_
  rw [byte_at_append more Nat.one_pos h₁]
  refine Settled.test (fun _ => Settled.refl _) fun _ => ?_
  refine Settled.need more (fun h => h rfl) fun h₂ => ?_
  rw [byte_at_append more (by omega) (by omega)]
  refine Settled.test (fun _ => Settled.refl _) fun _ => ?_
  refine Settled.need more (fun h => h rfl) fun h₃ => ?_
  rw [byte_at_append more (by omega) (by omega)]
  refine Settled.test (fun _ => Settled.refl _) fun _ => ?_
  refine Settled.need more (fun h => h rfl) fun h₅ => ?_
  unfold u16
  rw [byte_at_append more (by omega) (by omega), byte_at_append more (by omega) (by omega)]
  exact Settled.refl _

theorem record_header_append (more : Bytes) {r : Except Hello ℕ} (h : record_header data 1 first = r)
    (hr : r ≠ .ok 0) :
    record_header (data ++ more) 1 first = r := by
  rw [← h] at hr
  rw [record_header_settled data more first hr, h]

/-!
One pass over the records of a stream, for the hello they carry.

The pass takes each whole record there is, in turn, until one answers or no whole record is left. What
it answers and what it leaves do not change when more bytes follow.
-/

/-- What is gathered of a hello: the bytes of the records taken, how many they are, and their payloads,
joined. -/
structure Gather where
  base : ℕ := 0
  records : ℕ := 0
  message : Bytes := []

namespace Gather

def add (g : Gather) (payload : Bytes) : Gather := ⟨g.base + 5 + payload.length, g.records + 1, g.message ++ payload⟩

def judge (g : Gather) : Except Hello Gather :=
  if g.records > MAX_RECORDS then .error records_refusal
  else if g.message.length < 4 then .ok g
  else if byte_at g.message 1 ≠ 1 then .error (message_refusal (byte_at g.message 1))
  else if announced g.message > MAX_HELLO then .error (size_refusal (announced g.message))
  else if g.message.length < 4 + announced g.message then .ok g
  else if g.message.length > 4 + announced g.message then .error surplus_refusal
  else .error (hello_answer g.message g.base)

/-- A gathering that waits for the rest of a hello within its caps. -/
structure Waits (g : Gather) : Prop where
  records : g.records ≤ MAX_RECORDS
  kind : 4 ≤ g.message.length → byte_at g.message 1 = 1
  size : 4 ≤ g.message.length → announced g.message ≤ MAX_HELLO
  short : 4 ≤ g.message.length → g.message.length < 4 + announced g.message

theorem judge_ok {g g' : Gather} (h : g.judge = .ok g') : g' = g ∧ g.Waits := by
  unfold judge at h
  split_ifs at h with hrecords hfour hkind hsize hshort hsurplus
  · exact ⟨(ok.inj h).symm, by omega, fun h₄ => absurd h₄ (by omega),
      fun h₄ => absurd h₄ (by omega), fun h₄ => absurd h₄ (by omega)⟩
  · exact ⟨(ok.inj h).symm, by omega, fun _ => not_not.mp hkind, fun _ => by omega,
      fun _ => hshort⟩

/-- The pass over `data`: an answer, or what is gathered and the bytes left. -/
def run (g : Gather) (data : Bytes) : Except Hello (Gather × Bytes) :=
  match record_header data 1 (g.records == 0) with
  | .error a => .error a
  | .ok n =>
    if n = 0 ∨ data.length < 5 + n then .ok (g, data)
    else
      match (g.add (sub data 6 (5 + n))).judge with
      | .error a => .error a
      | .ok g => g.run (data.drop (5 + n))
termination_by data.length
decreasing_by
  rw [length_drop]
  omega

variable {g g' : Gather} {data : Bytes} {a : Hello}

theorem induct_on {P : Gather → Bytes → Prop}
    (refused : ∀ g data a, record_header data 1 (g.records == 0) = .error a → P g data)
    (stopped : ∀ g data n, record_header data 1 (g.records == 0) = .ok n → n = 0 ∨ data.length < 5 + n → P g data)
    (record : ∀ g (r : Record) rest, (∀ g', P g' rest) → P g (r.encode ++ rest)) (g : Gather)
    (data : Bytes) : P g data := by
  induction hk : data.length using Nat.strong_induction_on generalizing g data with
  | _ k ih =>
    cases hr : record_header data 1 (g.records == 0) with
    | error a => exact refused g data a hr
    | ok n =>
      by_cases hn : n = 0 ∨ data.length < 5 + n
      · exact stopped g data n hr hn
      obtain ⟨r, rest, rfl, -⟩ := exists_record hr (by omega) (by omega)
      apply record
      intro g'
      refine ih rest.length ?_ g' rest rfl
      rw [← hk, length_append, Record.encode_length]
      omega

theorem run_refused (h : record_header data 1 (g.records == 0) = .error a) : g.run data = .error a := by
  rw [run, h]

theorem run_stopped {n : ℕ} (h : record_header data 1 (g.records == 0) = .ok n)
    (hn : n = 0 ∨ data.length < 5 + n) : g.run data = .ok (g, data) := by
  rw [run, h]
  exact if_pos hn

theorem record_payload (r : Record) (rest : Bytes) : sub (r.encode ++ rest) 6 (5 + r.payload.length) = r.payload :=
  sub_middle (22 :: 3 :: r.minor :: u16_bytes r.payload.length) r.payload rest rfl (by
    simp only [length_cons, u16_bytes_length])

theorem record_drop (r : Record) (rest : Bytes) : (r.encode ++ rest).drop (5 + r.payload.length) = rest := by
  rw [← r.encode_length, drop_left]

theorem record_whole (r : Record) (rest : Bytes) :
    ¬(r.payload.length = 0 ∨ (r.encode ++ rest).length < 5 + r.payload.length) := by
  have hpos := r.payload_pos
  rw [length_append, r.encode_length]
  omega

theorem run_record_error {r : Record} (rest : Bytes) (h : (g.add r.payload).judge = .error a) :
    g.run (r.encode ++ rest) = .error a := by
  rw [run, record_header_encode]
  dsimp only
  rw [if_neg (record_whole r rest), record_payload, h]

theorem run_record_ok {r : Record} (rest : Bytes) (h : (g.add r.payload).judge = .ok g') :
    g.run (r.encode ++ rest) = g'.run rest := by
  rw [run, record_header_encode]
  dsimp only
  rw [if_neg (record_whole r rest), record_payload, h]
  rw [record_drop]

theorem run_append_error (more : Bytes) (h : g.run data = .error a) : g.run (data ++ more) = .error a := by
  induction g, data using induct_on with
  | refused g data a' hr =>
    rw [run_refused hr] at h
    rw [run_refused (record_header_append more hr (by simp)), h]
  | stopped g data n hr hn =>
    rw [run_stopped hr hn] at h
    cases h
  | record g r rest ih =>
    rw [append_assoc]
    cases hj : (g.add r.payload).judge with
    | error a' =>
      rw [run_record_error _ hj] at h
      rw [run_record_error _ hj, h]
    | ok t =>
      rw [run_record_ok _ hj] at h
      rw [run_record_ok _ hj, ih t h]

theorem run_append_ok {rest : Bytes} (more : Bytes) (h : g.run data = .ok (g', rest)) :
    g.run (data ++ more) = g'.run (rest ++ more) := by
  induction g, data using induct_on with
  | refused g data a' hr =>
    rw [run_refused hr] at h
    cases h
  | stopped g data n hr hn =>
    rw [run_stopped hr hn] at h
    cases h
    rfl
  | record g r rest' ih =>
    rw [append_assoc]
    cases hj : (g.add r.payload).judge with
    | error a' =>
      rw [run_record_error _ hj] at h
      cases h
    | ok t =>
      rw [run_record_ok _ hj] at h
      rw [run_record_ok _ hj, ih t h]

def adds (g : Gather) (rs : List Record) : Gather := rs.foldl (fun g r => g.add r.payload) g

theorem adds_records (rs : List Record) : (g.adds rs).records = g.records + rs.length := by
  induction rs generalizing g with
  | nil => rfl
  | cons r rs ih =>
    have hstep : g.adds (r :: rs) = (g.add r.payload).adds rs := rfl
    rw [hstep, ih, length_cons]
    show g.records + 1 + rs.length = g.records + (rs.length + 1)
    omega

theorem adds_message (rs : List Record) : (g.adds rs).message = g.message ++ joined rs := by
  induction rs generalizing g with
  | nil => exact (append_nil _).symm
  | cons r rs ih =>
    have hstep : g.adds (r :: rs) = (g.add r.payload).adds rs := rfl
    rw [hstep, ih, joined_cons, ← append_assoc]
    rfl

theorem adds_base (rs : List Record) : (g.adds rs).base = g.base + (encoded rs).length := by
  induction rs generalizing g with
  | nil => rfl
  | cons r rs ih =>
    have hstep : g.adds (r :: rs) = (g.add r.payload).adds rs := rfl
    rw [hstep, ih, encoded_cons, length_append, r.encode_length]
    show g.base + 5 + r.payload.length + _ = _
    omega

/-- Where the pass has no answer, all but the bytes of a record in progress are gathered. -/
theorem run_ok {rest : Bytes} (h : g.run data = .ok (g', rest)) (hg : g.Waits) :
    ∃ rs, data = encoded rs ++ rest ∧ g' = g.adds rs ∧ g'.Waits ∧
      ∃ n, record_header rest 1 (g'.records == 0) = .ok n ∧ (n = 0 ∨ rest.length < 5 + n) := by
  induction g, data using induct_on with
  | refused g data a hr =>
    rw [run_refused hr] at h
    cases h
  | stopped g data n hr hn =>
    rw [run_stopped hr hn] at h
    cases h
    exact ⟨[], rfl, rfl, hg, n, hr, hn⟩
  | record g r rest' ih =>
    cases hj : (g.add r.payload).judge with
    | error a =>
      rw [run_record_error _ hj] at h
      cases h
    | ok t =>
      rw [run_record_ok _ hj] at h
      obtain ⟨rfl, hwaits⟩ := judge_ok hj
      obtain ⟨rs, rfl, hg', hrest⟩ := ih _ h hwaits
      refine ⟨r :: rs, ?_, hg', hrest⟩
      rw [encoded_cons, append_assoc]

theorem run_error (h : g.run data = .error a) (hg : g.Waits) :
    ∃ rs rest, data = encoded rs ++ rest ∧ (g.adds rs).Waits ∧
      (∀ more, g.run (encoded rs ++ more) = (g.adds rs).run more) ∧
      (record_header rest 1 ((g.adds rs).records == 0) = .error a ∨
        ∃ (r : Record) (rest' : Bytes), rest = r.encode ++ rest' ∧ ((g.adds rs).add r.payload).judge = .error a) := by
  induction g, data using induct_on with
  | refused g data a' hr =>
    rw [run_refused hr] at h
    have ha : a' = a := error.inj h
    rw [ha] at hr
    exact ⟨[], data, rfl, hg, fun _ => rfl, .inl hr⟩
  | stopped g data n hr hn =>
    rw [run_stopped hr hn] at h
    cases h
  | record g r rest ih =>
    cases hj : (g.add r.payload).judge with
    | error a' =>
      rw [run_record_error _ hj] at h
      have ha : a' = a := error.inj h
      rw [ha] at hj
      exact ⟨[], r.encode ++ rest, rfl, hg, fun _ => rfl, .inr ⟨r, rest, rfl, hj⟩⟩
    | ok t =>
      rw [run_record_ok _ hj] at h
      obtain ⟨rfl, hwaits⟩ := judge_ok hj
      obtain ⟨rs, rest', rfl, hwaits', hmore, hat⟩ := ih _ h hwaits
      refine ⟨r :: rs, rest', ?_, hwaits', fun more => ?_, hat⟩
      · rw [encoded_cons, append_assoc]
      · rw [encoded_cons, append_assoc, run_record_ok _ hj, hmore]
        rfl

end Gather

/-! ## Answers -/

/-- A hello that is whole and well formed. -/
def Hello.Done (a : Hello) : Prop := a.status = .name ∨ a.status = .no_sni ∨ a.status = .encrypted_sni

/-- An answer after `k` bytes. -/
structure Hello.After (a : Hello) (k : ℕ) : Prop where
  decided : a.status ≠ .more
  done : a.Done → a.consumed = k
  refused : ¬a.Done → a.consumed = 0

theorem malformed_after (why : Bytes) (k : ℕ) : (malformed why).After k :=
  ⟨by simp [malformed], fun h => absurd h (by simp [Hello.Done, malformed]), fun _ => rfl⟩

theorem wrong_after (first : Bool) (why : Bytes) (k : ℕ) : (wrong first why).After k := by
  cases first with
  | false => exact malformed_after _ k
  | true => exact ⟨by simp [wrong], fun h => absurd h (by simp [Hello.Done, wrong]), fun _ => rfl⟩

theorem versioned_after (first : Bool) (why : Bytes) (k : ℕ) : (versioned first why).After k := by
  cases first with
  | false => exact wrong_after false why k
  | true => exact malformed_after why k

variable {a : Hello}

theorem record_header_after (k : ℕ) (h : record_header data 1 first = .error a) : a.After k := by
  unfold record_header at h
  dsimp only at h
  split_ifs at h
  · rw [← error.inj h]
    exact wrong_after first _ k
  · rw [← error.inj h]
    exact versioned_after first _ k
  · rw [← error.inj h]
    exact versioned_after first _ k
  · rw [← error.inj h]
    exact malformed_after _ k

theorem hello_answer_after (message : Bytes) (k : ℕ) : (hello_answer message k).After k := by
  unfold hello_answer
  cases hello_name (sub message 5 message.length) with
  | error why => exact malformed_after why k
  | ok server =>
    dsimp only
    split_ifs
    · exact ⟨by simp, fun _ => rfl, fun h => absurd (.inr (.inr rfl)) h⟩
    · exact ⟨by simp, fun _ => rfl, fun h => absurd (.inr (.inl rfl)) h⟩
    · exact ⟨by simp, fun _ => rfl, fun h => absurd (.inl rfl) h⟩

namespace Gather

theorem judge_error {g : Gather} {a : Hello} (h : g.judge = .error a) : (∃ why, a = malformed why) ∨
      g.records ≤ MAX_RECORDS ∧ 4 ≤ g.message.length ∧ byte_at g.message 1 = 1 ∧
        announced g.message ≤ MAX_HELLO ∧ g.message.length = 4 + announced g.message ∧
        a = hello_answer g.message g.base := by
  unfold judge at h
  split_ifs at h with hrecords hfour hkind hsize hshort hsurplus
  · exact .inl ⟨_, (error.inj h).symm⟩
  · exact .inl ⟨_, (error.inj h).symm⟩
  · exact .inl ⟨_, (error.inj h).symm⟩
  · exact .inl ⟨_, (error.inj h).symm⟩
  · exact .inr ⟨by omega, by omega, not_not.mp hkind, by omega, by omega, (error.inj h).symm⟩

theorem judge_after {g : Gather} {a : Hello} (h : g.judge = .error a) : a.After g.base := by
  obtain ⟨why, rfl⟩ | ⟨-, -, -, -, -, rfl⟩ := judge_error h
  · exact malformed_after why _
  · exact hello_answer_after _ _

theorem start_waits : (({} : Gather)).Waits := ⟨Nat.zero_le _, nofun, nofun, nofun⟩

end Gather

/-- What the first bytes of a stream say. -/
def hello_judge (b : Bytes) : Hello :=
  match ({} : Gather).run b with
  | .error a => a
  | .ok _ => { status := .more, consumed := 0 }

variable {b : Bytes}

/-- The bytes a stream is answered at: those before them do not answer, and those after them do not
matter. -/
theorem hello_run_answer (h : ({} : Gather).run b = .error a) :
    ∃ w x, b = w ++ x ∧ a.After w.length ∧ ({} : Gather).run w = .error a := by
  obtain ⟨rs, rest, rfl, -, hmore, hat⟩ := Gather.run_error h Gather.start_waits
  obtain hrefused | ⟨r, rest', rfl, hj⟩ := hat
  · exact ⟨encoded rs ++ rest, [], (append_nil _).symm, record_header_after _ hrefused, h⟩
  refine ⟨encoded rs ++ r.encode, rest', (append_assoc _ _ _).symm, ?_, ?_⟩
  · have hbase : ((({} : Gather).adds rs).add r.payload).base = (encoded rs ++ r.encode).length := by
      show (({} : Gather).adds rs).base + 5 + r.payload.length = _
      rw [length_append, r.encode_length, Gather.adds_base, Nat.add_assoc]
      exact congrArg (· + _) (Nat.zero_add _)
    rw [← hbase]
    exact Gather.judge_after hj
  · have hlast := Gather.run_record_error [] hj
    rw [append_nil] at hlast
    rw [hmore, hlast]

theorem hello_run_decided (h : ({} : Gather).run b = .error a) : a.status ≠ .more := by
  obtain ⟨w, x, -, hafter, -⟩ := hello_run_answer h
  exact hafter.decided

theorem hello_judge_cases (b : Bytes) : hello_judge b = { status := .more, consumed := 0 } ∨
      ∃ w x, b = w ++ x ∧ (hello_judge b).After w.length ∧ hello_judge w = hello_judge b := by
  unfold hello_judge
  cases hrun : ({} : Gather).run b with
  | ok p => exact .inl rfl
  | error a =>
    obtain ⟨w, x, hb, hafter, hw⟩ := hello_run_answer hrun
    refine .inr ⟨w, x, hb, hafter, ?_⟩
    rw [hw]

theorem hello_judge_append (more : Bytes) (h : (hello_judge b).status ≠ .more) :
    hello_judge (b ++ more) = hello_judge b := by
  unfold hello_judge at h ⊢
  cases hrun : ({} : Gather).run b with
  | ok p =>
    rw [hrun] at h
    exact absurd rfl h
  | error a => rw [Gather.run_append_error more hrun]

end Cosmic.Wire
