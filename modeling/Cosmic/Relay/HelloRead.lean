/-
The hello reader, over the pass.

The reader holds the bytes of the record in progress and what the whole records before it gave. A feed
that is too short for the record is only looked at for its header; any other is the pass over the bytes
held, so that where a feed ends decides nothing.
-/
import Cosmic.Relay.ConnectRead
import Cosmic.Relay.HelloRecord
import Cosmic.Relay.SocksAgree

set_option autoImplicit false

namespace Cosmic.Wire

open Cosmic.Base List Except Nat

/-- The reader's state is at a gathering, before position `pos` of the bytes it holds. -/
structure HelloReading.Holds (st : HelloReading) (g : Gather) (pos : ℕ) : Prop where
  final : st.final = none
  base : st.base + pos = g.base + 1
  records : st.records = g.records
  parts : st.parts.flatten = g.message
  gathered : st.gathered = g.message.length
  total : st.total = if g.message.length < 4 then none else some (announced g.message)

theorem announced_append {message : Bytes} (more : Bytes) (h : 4 ≤ message.length) :
    announced (message ++ more) = announced message := by
  unfold announced
  rw [byte_at_append more (by omega) (by omega), byte_at_append more (by omega) (by omega),
    byte_at_append more (by omega) h]

section

variable {st : HelloReading} {g : Gather} {data payload : Bytes} {pos n : ℕ}

/-- The state with a record's payload gathered, its header not read yet. -/
def HelloReading.gain (st : HelloReading) (part : Bytes) (n : ℕ) : HelloReading :=
  { st with records := st.records + 1, parts := st.parts ++ [part], gathered := st.gathered + n }

theorem hello_take_error {a : Hello} (hrecords : st.records + 1 ≤ MAX_RECORDS)
    (hpart : sub data (pos + 5) (pos + 4 + n) = payload)
    (h : hello_total (st.gain payload n) = .error a) : hello_take st data pos n = .error a := by
  unfold HelloReading.gain at h
  unfold hello_take
  dsimp only
  rw [if_neg (by omega), hpart, h]

theorem hello_take_none {st' : HelloReading} (hrecords : st.records + 1 ≤ MAX_RECORDS)
    (hpart : sub data (pos + 5) (pos + 4 + n) = payload)
    (h : hello_total (st.gain payload n) = .ok (st', none)) : hello_take st data pos n = .ok st' := by
  unfold HelloReading.gain at h
  unfold hello_take
  dsimp only
  rw [if_neg (by omega), hpart, h]

theorem hello_take_some {st' : HelloReading} {size : ℕ} (hrecords : st.records + 1 ≤ MAX_RECORDS)
    (hpart : sub data (pos + 5) (pos + 4 + n) = payload)
    (h : hello_total (st.gain payload n) = .ok (st', some size)) :
    hello_take st data pos n =
      if st'.gathered < 4 + size then .ok st'
      else if st'.gathered > 4 + size then .error surplus_refusal
      else .error (hello_answer st'.parts.flatten (st'.base + pos + 4 + n)) := by
  unfold HelloReading.gain at h
  unfold hello_take
  dsimp only
  rw [if_neg (by omega), hpart, h]

theorem hello_total_short (htotal : st.total = none) (hshort : st.gathered < 4) :
    hello_total st = .ok (st, none) := by
  unfold hello_total
  rw [htotal]
  exact if_pos hshort

theorem hello_total_known {size : ℕ} (htotal : st.total = some size) : hello_total st = .ok (st, some size) := by
  unfold hello_total
  rw [htotal]

theorem hello_total_read {message : Bytes} (htotal : st.total = none)
    (hparts : st.parts.flatten = message) (hfour : ¬st.gathered < 4) :
    hello_total st =
      if byte_at message 1 ≠ 1 then .error (message_refusal (byte_at message 1))
      else if announced message > MAX_HELLO then .error (size_refusal (announced message))
      else
        .ok ({ st with parts := [message], total := some (announced message) }, some (announced message)) := by
  unfold hello_total
  rw [htotal]
  rw [if_neg hfour, hparts]

theorem HelloReading.Holds.gain_parts (hst : st.Holds g pos) :
    (st.gain payload n).parts.flatten = (g.add payload).message := by
  show (st.parts ++ [payload]).flatten = g.message ++ payload
  rw [flatten_append, flatten_singleton, hst.parts]

theorem HelloReading.Holds.gain_gathered (hst : st.Holds g pos) (hn : payload.length = n) :
    (st.gain payload n).gathered = (g.add payload).message.length := by
  show st.gathered + n = (g.message ++ payload).length
  rw [hst.gathered, length_append, hn]

theorem HelloReading.Holds.gain_base (hst : st.Holds g pos) (hn : payload.length = n) :
    (st.gain payload n).base + (pos + 5 + n) = (g.add payload).base + 1 := by
  have hbase := hst.base
  show st.base + (pos + 5 + n) = g.base + 5 + payload.length + 1
  omega

theorem HelloReading.Holds.gain_short (hst : st.Holds g pos) (hn : payload.length = n)
    (hfour : (g.add payload).message.length < 4) :
    (st.gain payload n).Holds (g.add payload) (pos + 5 + n) ∧
      hello_total (st.gain payload n) = .ok (st.gain payload n, none) := by
  have hgathered := hst.gain_gathered hn
  have hbefore : g.message.length < 4 := by
    rw [← hst.gathered]
    have hgain : st.gathered + n = _ := hgathered
    omega
  have htotal : (st.gain payload n).total = _ := hst.total
  rw [if_pos hbefore] at htotal
  refine ⟨⟨hst.final, hst.gain_base hn, congrArg (· + 1) hst.records, hst.gain_parts, hgathered, ?_⟩,
    hello_total_short htotal (by omega)⟩
  rw [if_pos hfour, htotal]

theorem HelloReading.Holds.gain_total (hst : st.Holds g pos) (hn : payload.length = n)
    (hfour : ¬(g.add payload).message.length < 4)
    (hkind : byte_at (g.add payload).message 1 = 1)
    (hsize : announced (g.add payload).message ≤ MAX_HELLO) :
    ∃ st', st'.Holds (g.add payload) (pos + 5 + n) ∧
      hello_total (st.gain payload n) = .ok (st', some (announced (g.add payload).message)) := by
  have hgathered := hst.gain_gathered hn
  have hholds : ∀ parts : List Bytes, parts.flatten = (g.add payload).message →
      HelloReading.Holds { st.gain payload n with
        parts := parts, total := some (announced (g.add payload).message) } (g.add payload)
        (pos + 5 + n) := by
    intro parts hparts
    refine ⟨hst.final, hst.gain_base hn, congrArg (· + 1) hst.records, hparts, hgathered, ?_⟩
    rw [if_neg hfour]
  have htotal : (st.gain payload n).total = _ := hst.total
  by_cases hbefore : g.message.length < 4
  · rw [if_pos hbefore] at htotal
    refine ⟨_, hholds [(g.add payload).message] flatten_singleton, ?_⟩
    rw [hello_total_read htotal hst.gain_parts (by omega), if_neg (not_not.mpr hkind), if_neg (by omega)]
  · rw [if_neg hbefore] at htotal
    have hsame : announced (g.add payload).message = announced g.message :=
      announced_append payload (Nat.le_of_not_lt hbefore)
    refine ⟨_, hholds (st.gain payload n).parts hst.gain_parts, ?_⟩
    rw [hsame, hello_total_known htotal, ← htotal]

theorem hello_total_refused (hst : st.Holds g pos) (hg : g.Waits) (hn : payload.length = n)
    (hfour : ¬(g.add payload).message.length < 4)
    (hbad : ¬(byte_at (g.add payload).message 1 = 1 ∧ announced (g.add payload).message ≤ MAX_HELLO)) :
    hello_total (st.gain payload n) =
      if byte_at (g.add payload).message 1 ≠ 1 then
        .error (message_refusal (byte_at (g.add payload).message 1))
      else .error (size_refusal (announced (g.add payload).message)) := by
  have hgathered := hst.gain_gathered hn
  have hbefore : g.message.length < 4 := by
    by_contra hle
    have hfour' : 4 ≤ g.message.length := Nat.le_of_not_lt hle
    apply hbad
    constructor
    · rw [← hg.kind hfour']
      exact byte_at_append payload Nat.one_pos (by omega)
    · show announced (g.message ++ payload) ≤ MAX_HELLO
      rw [announced_append payload hfour']
      exact hg.size hfour'
  have htotal : (st.gain payload n).total = _ := hst.total
  rw [if_pos hbefore] at htotal
  rw [hello_total_read htotal hst.gain_parts (by omega)]
  by_cases hkind : byte_at (g.add payload).message 1 = 1
  · rw [if_neg (not_not.mpr hkind), if_neg (not_not.mpr hkind), if_pos]
    by_contra hsize
    exact hbad ⟨hkind, Nat.le_of_not_lt hsize⟩
  · rw [if_pos hkind, if_pos hkind]

theorem hello_take_spec (hst : st.Holds g pos) (hg : g.Waits)
    (hpart : sub data (pos + 5) (pos + 4 + n) = payload) (hn : payload.length = n) :
    (∀ a, (g.add payload).judge = .error a → hello_take st data pos n = .error a) ∧
      ∀ g', (g.add payload).judge = .ok g' →
        ∃ st', hello_take st data pos n = .ok st' ∧ st'.Holds g' (pos + 5 + n) := by
  have hrecords : (g.add payload).records = st.records + 1 := congrArg (· + 1) hst.records.symm
  unfold Gather.judge
  by_cases hmany : (g.add payload).records > MAX_RECORDS
  · rw [if_pos hmany]
    rw [hrecords] at hmany
    refine ⟨fun a h => ?_, nofun⟩
    rw [← error.inj h]
    exact if_pos hmany
  have hfew : st.records + 1 ≤ MAX_RECORDS := by omega
  rw [if_neg hmany]
  by_cases hfour : (g.add payload).message.length < 4
  · rw [if_pos hfour]
    obtain ⟨hholds, htotal⟩ := hst.gain_short hn hfour
    refine ⟨nofun, fun g' h => ?_⟩
    rw [← ok.inj h]
    exact ⟨_, hello_take_none hfew hpart htotal, hholds⟩
  rw [if_neg hfour]
  by_cases hbad : byte_at (g.add payload).message 1 = 1 ∧ announced (g.add payload).message ≤ MAX_HELLO
  · -- the header is in order: the rest of the hello is waited for, or the hello is whole
    obtain ⟨hkind, hsize⟩ := hbad
    obtain ⟨st', hholds, htotal⟩ := hst.gain_total hn hfour hkind hsize
    have hbase := hholds.base
    have hend : st'.base + pos + 4 + n = (g.add payload).base := by omega
    rw [if_neg (not_not.mpr hkind), if_neg (by omega), hello_take_some hfew hpart htotal,
      hholds.gathered, hholds.parts, hend]
    split_ifs with hshort hsurplus
    · refine ⟨nofun, fun g' h => ?_⟩
      rw [← ok.inj h]
      exact ⟨st', rfl, hholds⟩
    · exact ⟨fun a h => congrArg _ (error.inj h), nofun⟩
    · exact ⟨fun a h => congrArg _ (error.inj h), nofun⟩
  · have htotal := hello_total_refused hst hg hn hfour hbad
    by_cases hkind : byte_at (g.add payload).message 1 = 1
    · rw [if_neg (not_not.mpr hkind)] at htotal
      have hsize : announced (g.add payload).message > MAX_HELLO := by
        by_contra hle
        exact hbad ⟨hkind, Nat.le_of_not_lt hle⟩
      rw [if_neg (not_not.mpr hkind), if_pos hsize, hello_take_error hfew hpart htotal]
      exact ⟨fun a h => congrArg _ (error.inj h), nofun⟩
    · rw [if_pos hkind] at htotal
      rw [if_pos hkind, hello_take_error hfew hpart htotal]
      exact ⟨fun a h => congrArg _ (error.inj h), nofun⟩

end

/-! ## The loop -/

theorem Record.payload_at (r : Record) {w : Bytes} (rest : Bytes) {k : ℕ} (hk : w.length = k) :
    sub (w ++ (r.encode ++ rest)) (k + 1 + 5) (k + 1 + 4 + r.payload.length) = r.payload := by
  have hsplit : w ++ (r.encode ++ rest) =
      (w ++ (22 :: 3 :: r.minor :: u16_bytes r.payload.length)) ++ (r.payload ++ rest) := by
    simp only [Record.encode, append_assoc, cons_append]
  have hbefore : (w ++ (22 :: 3 :: r.minor :: u16_bytes r.payload.length)).length = k + 5 := by
    rw [length_append, hk]
    rfl
  rw [hsplit]
  exact sub_middle _ _ _ (by omega) (by omega)

section

variable {data : Bytes} {rounds pos n : ℕ} {st st' : HelloReading} {a : Hello}

theorem record_loop_answered (hheader : record_header data pos (st.records == 0) = .ok n)
    (hn : n ≠ 0) (hlen : 5 + n ≤ data.length + 1 - pos) (htake : hello_take st data pos n = .error a) :
    record_loop data (rounds + 1) st pos = .error (hello_finish st a) := by
  rw [record_loop, hheader]
  dsimp only
  rw [if_neg hn, if_neg (by omega), htake]

theorem record_loop_taken (hheader : record_header data pos (st.records == 0) = .ok n)
    (hn : n ≠ 0) (hlen : 5 + n ≤ data.length + 1 - pos) (htake : hello_take st data pos n = .ok st') :
    record_loop data (rounds + 1) st pos = record_loop data rounds st' (pos + 5 + n) := by
  rw [record_loop, hheader]
  dsimp only
  rw [if_neg hn, if_neg (by omega), htake]

end

/-- The header of the record in progress says how many bytes are needed. -/
def Needs (need : ℕ) (g : Gather) (rest : Bytes) : Prop :=
  ∃ n, record_header rest 1 (g.records == 0) = .ok n ∧ need = 5 + n ∧ (n = 0 ∨ rest.length < need)

theorem record_loop_spec {data : Bytes} :
    ∀ (g : Gather) (rest : Bytes) (rounds : ℕ) (st : HelloReading) (k : ℕ), rest = data.drop k →
      rest.length < rounds → k ≤ data.length → st.Holds g (k + 1) → g.Waits →
        (∀ a, g.run rest = .error a → ∃ st', record_loop data rounds st (k + 1) = .error (hello_finish st' a)) ∧
        ∀ g' rest', g.run rest = .ok (g', rest') → ∃ st' k', record_loop data rounds st (k + 1) =
          .ok (st', k' + 1) ∧ rest' = data.drop k' ∧ k' ≤ data.length ∧ st'.Holds g' (k' + 1) ∧
            g'.Waits ∧ Needs st'.need g' rest' := by
  intro g rest
  induction g, rest using Gather.induct_on with
  | refused g rest a hr =>
    intro rounds st k hrest hrounds hk hst hg
    obtain ⟨rounds, rfl⟩ := exists_eq_succ_of_ne_zero (Nat.ne_zero_of_lt hrounds)
    rw [Gather.run_refused hr]
    refine ⟨fun a' h => ⟨st, ?_⟩, nofun⟩
    have hheader : record_header data (k + 1) (st.records == 0) = .error a := by
      rw [record_header_drop, ← hrest, hst.records, hr]
    rw [record_loop, hheader, ← error.inj h]
  | stopped g rest n hr hn =>
    intro rounds st k hrest hrounds hk hst hg
    obtain ⟨rounds, rfl⟩ := exists_eq_succ_of_ne_zero (Nat.ne_zero_of_lt hrounds)
    have hlength : data.length + 1 - (k + 1) = rest.length := by
      rw [hrest, length_drop]
      omega
    rw [Gather.run_stopped hr hn]
    refine ⟨nofun, fun g' rest' h => ?_⟩
    cases h
    have hheader : record_header data (k + 1) (st.records == 0) = .ok n := by
      rw [record_header_drop, ← hrest, hst.records, hr]
    rw [record_loop, hheader]
    dsimp only
    rw [hlength]
    by_cases hzero : n = 0
    · rw [if_pos hzero]
      refine ⟨_, k, rfl, hrest, hk, ⟨hst.final, hst.base, hst.records, hst.parts, hst.gathered,
        hst.total⟩, hg, n, hr, ?_, .inl hzero⟩
      rw [hzero]
    · have hshort := hn.resolve_left hzero
      rw [if_neg hzero, if_pos hshort]
      exact ⟨_, k, rfl, hrest, hk, ⟨hst.final, hst.base, hst.records, hst.parts, hst.gathered,
        hst.total⟩, hg, n, hr, rfl, .inr hshort⟩
  | record g r rest ih =>
    intro rounds st k hrest hrounds hk hst hg
    obtain ⟨rounds, rfl⟩ := exists_eq_succ_of_ne_zero (Nat.ne_zero_of_lt hrounds)
    have hpos := r.payload_pos
    have hsplit : data.length = k + (5 + r.payload.length) + rest.length := by
      have hlen := congrArg List.length hrest
      rw [length_append, r.encode_length, length_drop] at hlen
      omega
    have hpart : sub data (k + 1 + 5) (k + 1 + 4 + r.payload.length) = r.payload := by
      have hdata : data = data.take k ++ (r.encode ++ rest) := by
        rw [hrest, take_append_drop]
      rw [hdata]
      exact r.payload_at rest (length_take_of_le hk)
    have hnext : rest = data.drop (k + (5 + r.payload.length)) := by
      rw [← drop_drop, ← hrest, Gather.record_drop]
    have hheader : record_header data (k + 1) (st.records == 0) = .ok r.payload.length := by
      rw [record_header_drop, ← hrest, record_header_encode]
    have hnonzero : r.payload.length ≠ 0 := by omega
    have hlen : 5 + r.payload.length ≤ data.length + 1 - (k + 1) := by omega
    obtain ⟨herror, hok⟩ := hello_take_spec hst hg hpart rfl
    cases hj : (g.add r.payload).judge with
    | error a =>
      rw [Gather.run_record_error rest hj]
      refine ⟨fun a' h => ⟨st, ?_⟩, nofun⟩
      rw [record_loop_answered hheader hnonzero hlen (herror a hj), error.inj h]
    | ok g' =>
      obtain ⟨st', htaken, hst'⟩ := hok g' hj
      rw [Gather.run_record_ok rest hj, record_loop_taken hheader hnonzero hlen htaken]
      obtain ⟨rfl, hwaits⟩ := Gather.judge_ok hj
      have hat : k + 1 + 5 + r.payload.length = k + (5 + r.payload.length) + 1 := by omega
      rw [hat] at hst' ⊢
      refine ih _ rounds st' _ hnext ?_ (by omega) hst' hwaits
      rw [length_append, r.encode_length] at hrounds
      omega

/-! ## The reader -/

theorem Needs.short {need : ℕ} {g : Gather} {rest : Bytes} (c : Bytes) (h : Needs need g rest)
    (hlen : (rest ++ c).length < need)
    (hheader : ∀ a, record_header (rest ++ c) 1 (g.records == 0) ≠ .error a) :
    Needs need g (rest ++ c) ∧ g.run (rest ++ c) = .ok (g, rest ++ c) := by
  obtain ⟨n, hn, hneed, -⟩ := h
  have hnow : record_header (rest ++ c) 1 (g.records == 0) = .ok n := by
    by_cases hzero : n = 0
    · cases hr : record_header (rest ++ c) 1 (g.records == 0) with
      | error a => exact absurd hr (hheader a)
      | ok n' =>
        obtain ⟨hn', -⟩ | ⟨-, -, m, t, -, hdata⟩ := record_header_ok hr
        · rw [hn', hzero]
        · rw [hdata] at hlen
          simp only [length_cons, length_append, u16_bytes_length] at hlen
          omega
    · exact record_header_append c hn (by simpa using hzero)
  have hstop : n = 0 ∨ (rest ++ c).length < 5 + n := .inr (by omega)
  exact ⟨⟨n, hnow, hneed, .inr hlen⟩, Gather.run_stopped hnow hstop⟩

theorem Needs.header {need : ℕ} {g : Gather} {rest : Bytes} (c : Bytes) (h : Needs need g rest)
    (hlen : (rest ++ c).length < need) (hfive : ¬(rest ++ c).length < 5) (a : Hello) :
    record_header (rest ++ c) 1 (g.records == 0) ≠ .error a := by
  obtain ⟨n, hn, hneed, -⟩ := h
  have hnonzero : n ≠ 0 := by omega
  rw [record_header_append c hn (by simpa using hnonzero)]
  simp

/-- What the reader holds after the bytes `b`, which are not answered. -/
structure HelloReading.Open (b : Bytes) (st : HelloReading) : Prop where
  pending_len : st.pending_len = st.pending.flatten.length
  held : ∃ g, ({} : Gather).run b = .ok (g, st.pending.flatten) ∧ g.Waits ∧ st.Holds g 1 ∧
    Needs st.need g st.pending.flatten

section

variable {st : HelloReading} {b c : Bytes} {a : Hello}

/-- The state a feed works on. -/
def HelloReading.fed (st : HelloReading) (c : Bytes) : HelloReading :=
  { st with pending := st.pending ++ [c], pending_len := st.pending_len + c.length }

theorem feed_refused (hfinal : st.final = none) (hshort : (st.fed c).pending_len < st.need)
    (hfive : (st.fed c).pending_len < 5)
    (h : record_header (st.fed c).pending.flatten 1 (st.records == 0) = .error a) :
    hello_reader.feed st c = hello_finish (st.fed c) a := by
  unfold HelloReading.fed at hshort hfive h ⊢
  unfold hello_reader
  dsimp only
  rw [hfinal]
  rw [if_pos hshort, if_pos hfive, h]

theorem feed_short (hfinal : st.final = none) (hshort : (st.fed c).pending_len < st.need)
    (h : (st.fed c).pending_len < 5 → ∃ n, record_header (st.fed c).pending.flatten 1 (st.records == 0) = .ok n) :
    hello_reader.feed st c = (st.fed c, { status := .more, consumed := 0 }) := by
  unfold HelloReading.fed at hshort h ⊢
  unfold hello_reader
  dsimp only
  rw [hfinal]
  rw [if_pos hshort]
  by_cases hfive : st.pending_len + c.length < 5
  · obtain ⟨n, hn⟩ := h hfive
    rw [if_pos hfive, hn]
  · rw [if_neg hfive]

theorem feed_answered {done : HelloReading × Hello} (hfinal : st.final = none)
    (hlong : ¬(st.fed c).pending_len < st.need)
    (h : record_loop (st.fed c).pending.flatten ((st.fed c).pending.flatten.length + 1) (st.fed c) 1 =
      .error done) : hello_reader.feed st c = done := by
  unfold HelloReading.fed at hlong h
  rw [hfinal] at h
  unfold hello_reader
  dsimp only
  rw [hfinal]
  rw [if_neg hlong, h]

theorem feed_taken {st' : HelloReading} {k : ℕ} (hfinal : st.final = none) (hlong : ¬(st.fed c).pending_len < st.need)
    (h : record_loop (st.fed c).pending.flatten ((st.fed c).pending.flatten.length + 1) (st.fed c) 1 =
      .ok (st', k + 1)) :
    hello_reader.feed st c = ({ st' with
          base := st'.base + (k + 1) - 1
          pending := [(st.fed c).pending.flatten.drop k]
          pending_len := ((st.fed c).pending.flatten.drop k).length },
        { status := .more, consumed := 0 }) := by
  have hrest : (if k + 1 = 1 then (st.fed c).pending.flatten
      else sub (st.fed c).pending.flatten (k + 1) (st.fed c).pending.flatten.length) =
      (st.fed c).pending.flatten.drop k := by
    by_cases hzero : k = 0
    · rw [hzero, if_pos rfl, drop_zero]
    · rw [if_neg (by omega)]
      unfold sub
      rw [Nat.add_sub_cancel, take_length]
  rw [← hrest]
  unfold HelloReading.fed at hlong h ⊢
  rw [hfinal] at h
  unfold hello_reader
  dsimp only
  rw [hfinal]
  rw [if_neg hlong, h]

theorem HelloReading.Holds.opened {g : Gather} {rest : Bytes} {k : ℕ} (hst : st.Holds g (k + 1))
    (hrun : ({} : Gather).run b = .ok (g, rest)) (hg : g.Waits) (hneeds : Needs st.need g rest) :
    HelloReading.Open b { st with
      base := st.base + (k + 1) - 1
      pending := [rest]
      pending_len := rest.length } := by
  have hflat : [rest].flatten = rest := flatten_singleton
  have hbase := hst.base
  refine ⟨congrArg List.length hflat.symm, g, ?_, hg, ?_, ?_⟩
  · rw [hflat, hrun]
  · refine ⟨hst.final, ?_, hst.records, hst.parts, hst.gathered, hst.total⟩
    show st.base + (k + 1) - 1 + 1 = g.base + 1
    omega
  · rwa [hflat]

theorem HelloReading.Open.feed (h : st.Open b) : (∀ a, ({} : Gather).run (b ++ c) = .error a →
      (hello_reader.feed st c).2 = a ∧ (hello_reader.feed st c).1.final = some a) ∧
    ∀ p, ({} : Gather).run (b ++ c) = .ok p → (hello_reader.feed st c).2 = { status := .more, consumed := 0 } ∧
        (hello_reader.feed st c).1.Open (b ++ c) := by
  obtain ⟨hlen, g, hrun, hg, hst, hneeds⟩ := h
  have hdata : (st.fed c).pending.flatten = st.pending.flatten ++ c := by
    show (st.pending ++ [c]).flatten = _
    rw [flatten_append, flatten_singleton]
  have hdata_len : (st.fed c).pending_len = (st.pending.flatten ++ c).length := by
    show st.pending_len + c.length = _
    rw [hlen, length_append]
  have hfed : (st.fed c).Holds g 1 := ⟨hst.final, hst.base, hst.records, hst.parts, hst.gathered, hst.total⟩
  rw [Gather.run_append_ok c hrun]
  by_cases hshort : (st.pending.flatten ++ c).length < st.need
  · cases hheader : record_header (st.pending.flatten ++ c) 1 (g.records == 0) with
    | error a =>
      have hfive : (st.pending.flatten ++ c).length < 5 := by
        by_contra hfive
        exact hneeds.header c hshort hfive a hheader
      rw [Gather.run_refused hheader]
      rw [← hdata_len] at hshort hfive
      rw [← hdata, ← hst.records] at hheader
      rw [feed_refused hst.final hshort hfive hheader]
      exact ⟨fun a' h => ⟨error.inj h, congrArg some (error.inj h)⟩, nofun⟩
    | ok n =>
      obtain ⟨hneeds', hrun'⟩ := hneeds.short c hshort (fun a => by rw [hheader]; simp)
      rw [← hdata_len] at hshort
      rw [← hdata, ← hst.records] at hheader
      rw [hrun', feed_short hst.final hshort (fun _ => ⟨n, hheader⟩)]
      refine ⟨nofun, fun p h => ⟨rfl, ?_, g, ?_, hg, hfed, ?_⟩⟩
      · rw [hdata_len, hdata]
      · rw [Gather.run_append_ok c hrun, hrun', hdata]
      · rwa [hdata]
  · rw [← hdata_len] at hshort
    obtain ⟨herror, hok⟩ := record_loop_spec g (st.fed c).pending.flatten _ (st.fed c) 0 rfl
      (Nat.lt_succ_self _) (Nat.zero_le _) hfed hg
    rw [← hdata]
    refine ⟨fun a h => ?_, fun p h => ?_⟩
    · obtain ⟨st', hloop⟩ := herror a h
      rw [feed_answered hst.final hshort hloop]
      exact ⟨rfl, rfl⟩
    · obtain ⟨st', k, hloop, hrest, hk, hst', hg', hneeds'⟩ := hok p.1 p.2 h
      rw [feed_taken hst.final hshort hloop, ← hrest]
      refine ⟨rfl, hst'.opened ?_ hg' hneeds'⟩
      rw [Gather.run_append_ok c hrun, ← hdata, h]

end

theorem hello_reader_reads : hello_reader.Reads hello_judge (·.status ≠ .more) := by
  apply Feeder.reads_of HelloReading.Open (fun a st => st.final = some a)
  · exact fun b more => hello_judge_append more
  · refine ⟨rfl, {}, Gather.run_stopped rfl (.inl rfl), Gather.start_waits, ?_, 0, rfl, rfl, .inl rfl⟩
    exact ⟨rfl, rfl, rfl, rfl, rfl, rfl⟩
  · intro b st c hopen
    obtain ⟨herror, hok⟩ := hopen.feed
    unfold hello_judge
    cases hrun : ({} : Gather).run (b ++ c) with
    | error a =>
      obtain ⟨hanswer, hclosed⟩ := herror a hrun
      exact ⟨hanswer, .inr ⟨hello_run_decided hrun, hclosed⟩⟩
    | ok p =>
      obtain ⟨hanswer, hopen'⟩ := hok p hrun
      exact ⟨hanswer, .inl hopen'⟩
  · intro a st c hst
    have hfeed : hello_reader.feed st c = (st, a) := by
      unfold hello_reader
      dsimp only
      rw [hst]
    rw [hfeed]
    exact ⟨rfl, hst⟩

theorem hello_reader_invariant : hello_reader.SplitInvariant (·.status ≠ .more) Hello.Done Hello.consumed := by
  apply hello_reader_reads.splitInvariant
  · rintro b (hd | hd | hd) <;> rw [hd] <;> decide
  · intro b
    rcases hello_judge_cases b with hmore | ⟨w, x, rfl, hafter, -⟩
    · rw [hmore]
      exact Nat.zero_le _
    · by_cases hd : (hello_judge (w ++ x)).Done
      · rw [hafter.done hd, length_append]
        exact Nat.le_add_right _ _
      · rw [hafter.refused hd]
        exact Nat.zero_le _
  · intro b hd
    rcases hello_judge_cases b with hmore | ⟨w, x, rfl, hafter, hsame⟩
    · rw [hmore] at hd
      exact absurd hd (by simp [Hello.Done])
    · rw [hafter.done hd, take_left, hsame]

/-! ## Every reader -/

/-- No reader depends on how its stream is cut: the CONNECT reader, the SOCKS readers of both sides and
the hello reader. -/
theorem readers_split_invariant : connect_reader.SplitInvariant (·.status ≠ .more) Connect.Done Connect.consumed ∧
    (∀ password, (socks_greeting_reader password).SplitInvariant (·.status ≠ .more)
      SocksGreeting.Done SocksGreeting.consumed) ∧
    socks_auth_reader.SplitInvariant (·.status ≠ .more) SocksAuth.Done SocksAuth.consumed ∧
    socks_request_reader.SplitInvariant (·.status ≠ .more) SocksRequest.Done SocksRequest.consumed ∧
    (∀ password, (socks_method_reader password).SplitInvariant (·.status ≠ .more)
      SocksMethodAnswer.Done SocksMethodAnswer.consumed) ∧
    socks_auth_status_reader.SplitInvariant (·.status ≠ .more) SocksAuthAnswer.Done SocksAuthAnswer.consumed ∧
    socks_answer_reader.SplitInvariant (·.status ≠ .more) SocksAnswer.Done SocksAnswer.consumed ∧
    hello_reader.SplitInvariant (·.status ≠ .more) Hello.Done Hello.consumed :=
  ⟨connect_reader_invariant, socks_greeting_reader_invariant, socks_auth_reader_invariant,
    socks_request_reader_invariant, socks_method_reader_invariant, socks_auth_status_reader_invariant,
    socks_answer_reader_invariant, hello_reader_invariant⟩

end Cosmic.Wire
