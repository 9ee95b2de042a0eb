/-
The hello reader is fail-closed.

A name is read from a whole hello in whole records only. A length that does not fit the one around it,
at any of the levels from the record to the entry of a name list, is refused, and what is waited for is
within the caps.
-/
import Cosmic.Relay.HelloName
import Cosmic.Relay.HelloRead

set_option autoImplicit false

namespace Cosmic.Wire

open Cosmic.Base List Option Except UInt8

/-! ## The handshake message -/

def u24_bytes (n : ℕ) : Bytes := UInt8.ofNat (n / 65536) :: u16_bytes n

/-- The handshake message of a ClientHello. -/
def handshake (body : Bytes) : Bytes := 1 :: (u24_bytes body.length ++ body)

def Whole (message : Bytes) : Prop := ∃ body, body.length < 2 ^ 24 ∧ message = handshake body

theorem handshake_length (body : Bytes) : (handshake body).length = 4 + body.length := by
  unfold handshake u24_bytes
  rw [length_cons, length_append, length_cons, u16_bytes_length]
  omega

theorem announced_handshake {body : Bytes} (h : body.length < 2 ^ 24) : announced (handshake body) = body.length := by
  have h₂ : byte_at (handshake body) 2 = UInt8.ofNat (body.length / 65536) := rfl
  have h₃ : byte_at (handshake body) 3 = UInt8.ofNat (body.length / 256) := rfl
  have h₄ : byte_at (handshake body) 4 = UInt8.ofNat body.length := rfl
  unfold announced
  rw [h₂, h₃, h₄, toNat_ofNat', toNat_ofNat', toNat_ofNat']
  omega

theorem handshake_of_length {message : Bytes} (hkind : byte_at message 1 = 1)
    (hlen : message.length = 4 + announced message) :
    message = handshake (sub message 5 message.length) := by
  obtain ⟨w, body, hmessage, hw⟩ := exists_split (show 4 ≤ message.length by omega)
  obtain ⟨a, b, c, d, rfl⟩ : ∃ a b c d, w = [a, b, c, d] := by
    match w, hw with
    | [a, b, c, d], _ => exact ⟨a, b, c, d, rfl⟩
  have hsub : sub message 5 message.length = body := by
    unfold sub
    rw [take_length, hmessage]
    rfl
  have ha : a = 1 := by
    rw [← hkind, hmessage]
    rfl
  have hannounced : announced message = b.toNat * 65536 + c.toNat * 256 + d.toNat := by
    rw [hmessage]
    rfl
  have hbody : body.length = b.toNat * 65536 + c.toNat * 256 + d.toNat := by
    have hlength := congrArg List.length hmessage
    rw [length_append, hw] at hlength
    omega
  have hb := b.toNat_lt
  have hc := c.toNat_lt
  have hd := d.toNat_lt
  rw [hsub, handshake, u24_bytes, u16_bytes, ofNat_eq (n := body.length / 65536) (b := b) (by omega),
    ofNat_eq (n := body.length / 256) (b := c) (by omega), ofNat_eq (n := body.length) (b := d) (by omega),
    ← ha, hmessage]
  rfl

theorem handshake_unique {body body' : Bytes} (h : body.length < 2 ^ 24) (h' : body'.length < 2 ^ 24)
    {text : Bytes} (hpre : handshake body <+: text) (hpre' : handshake body' <+: text) :
    body = body' := by
  obtain ⟨t, ht⟩ := hpre
  obtain ⟨t', ht'⟩ := hpre'
  have hsize : announced text = body.length := by
    rw [← ht, announced_append t (by rw [handshake_length]; omega), announced_handshake h]
  have hsize' : announced text = body'.length := by
    rw [← ht', announced_append t' (by rw [handshake_length]; omega), announced_handshake h']
  have hlen : (handshake body).length = (handshake body').length := by
    rw [handshake_length, handshake_length, ← hsize, hsize']
  have hsame : handshake body = handshake body' := (append_inj (ht.trans ht'.symm) hlen).1
  unfold handshake at hsame
  rw [← hsize, ← hsize'] at hsame
  exact append_cancel_left (List.cons.inj hsame).2

/-! ## Records in the pass -/

theorem joined_append (rs rs' : List Record) : joined (rs ++ rs') = joined rs ++ joined rs' := by
  unfold joined
  rw [map_append, flatten_append]

theorem Gather.run_encoded (rs : List Record) (rest : Bytes) {g : Gather} (hg : g.Waits) :
    (g.adds rs).Waits ∧ g.run (encoded rs ++ rest) = (g.adds rs).run rest ∨
      ∃ rs₁ r rs₂ a, rs = rs₁ ++ r :: rs₂ ∧ (g.adds (rs₁ ++ [r])).judge = .error a ∧
        g.run (encoded rs ++ rest) = .error a := by
  induction rs generalizing g with
  | nil => exact .inl ⟨hg, rfl⟩
  | cons r rs ih =>
    rw [encoded_cons, append_assoc]
    cases hj : (g.add r.payload).judge with
    | error a => exact .inr ⟨[], r, rs, a, rfl, hj, run_record_error _ hj⟩
    | ok t =>
      obtain ⟨rfl, hwaits⟩ := judge_ok hj
      rw [run_record_ok _ hj]
      obtain hok | ⟨rs₁, r', rs₂, a, rfl, hj', hrun⟩ := ih hwaits
      · exact .inl hok
      · exact .inr ⟨r :: rs₁, r', rs₂, a, rfl, hj', hrun⟩

theorem adds_start_message (rs : List Record) : (({} : Gather).adds rs).message = joined rs := Gather.adds_message rs

theorem adds_start_records (rs : List Record) : (({} : Gather).adds rs).records = rs.length := by
  rw [Gather.adds_records]
  exact Nat.zero_add _

variable {rs : List Record}

theorem judge_records {a : Hello} (h : (({} : Gather).adds rs).judge = .error a) :
    (∃ why, a = malformed why) ∨
      rs.length ≤ MAX_RECORDS ∧ ∃ body k, body.length ≤ MAX_HELLO ∧ joined rs = handshake body ∧
        a = hello_answer (handshake body) k := by
  obtain hbad | ⟨hrecords, hfour, hkind, hsize, hlen, ha⟩ := Gather.judge_error h
  · exact .inl hbad
  rw [adds_start_records] at hrecords
  rw [adds_start_message] at hfour hkind hsize hlen ha
  have hwhole := handshake_of_length hkind hlen
  refine .inr ⟨hrecords, sub (joined rs) 5 (joined rs).length, (({} : Gather).adds rs).base, ?_, hwhole, ?_⟩
  · have hlength := congrArg List.length hwhole
    rw [handshake_length] at hlength
    omega
  · rwa [← hwhole]

theorem hello_answer_cases (body : Bytes) (k : ℕ) : (∃ why, hello_answer (handshake body) k = malformed why) ∨
      ∃ c : ClientHello, body = c.encode ∧ c.Sound ∧ (hello_answer (handshake body) k).status ≠ .not_tls ∧
        ∀ n, (hello_answer (handshake body) k).name = some n →
          (hello_answer (handshake body) k).status = .name ∧ c.Names n := by
  have hbody : sub (handshake body) 5 (handshake body).length = body := by
    unfold sub
    rw [take_length]
    rfl
  unfold hello_answer
  rw [hbody]
  cases hname : hello_name body with
  | error why => exact .inl ⟨why, rfl⟩
  | ok server =>
    obtain ⟨c, hc, hsound, hnames⟩ := hello_name_ok hname
    refine .inr ⟨c, hc, hsound, ?_⟩
    dsimp only
    split_ifs with hencrypted hnone
    · exact ⟨by simp, nofun⟩
    · exact ⟨by simp, nofun⟩
    · refine ⟨by simp, fun n h => ⟨rfl, ?_⟩⟩
      rw [← some.inj h]
      exact hnames (Bool.eq_false_iff.mpr hencrypted) hnone

theorem hello_answer_some {message : Bytes} {k : ℕ} (h : (hello_answer message k).status = .name) :
    ∃ n, (hello_answer message k).name = some n := by
  unfold hello_answer at h ⊢
  cases hname : hello_name (sub message 5 message.length) with
  | error why =>
    rw [hname] at h
    cases h
  | ok server =>
    rw [hname] at h
    dsimp only at h ⊢
    split_ifs at h ⊢
    exact ⟨server.name, rfl⟩

/-! ## What is read, refused and waited for -/

/-- The stream begins with records that carry a sound hello, which names `n`. -/
def Named (b n : Bytes) : Prop :=
  ∃ (rs : List Record) (c : ClientHello), encoded rs <+: b ∧ rs.length ≤ MAX_RECORDS ∧
    c.encode.length ≤ MAX_HELLO ∧ joined rs = handshake c.encode ∧ c.Sound ∧ c.Names n

/-- A length that does not fit, in what records carry. -/
inductive Broken (rs : List Record) : Prop
  /-- The hello is past its cap. -/
  | size (hfour : 4 ≤ (joined rs).length) (h : MAX_HELLO < announced (joined rs))
  /-- The hello is not whole in as many records as there may be. -/
  | records (h : MAX_RECORDS < rs.length) (hopen : ∀ k ≤ MAX_RECORDS, ¬Whole (joined (rs.take k)))
  /-- The hello does not end with a record. -/
  | ends (body : Bytes) (h : body.length < 2 ^ 24) (hbody : handshake body <+: joined rs)
      (hends : ∀ k, joined (rs.take k) ≠ handshake body)
  /-- A vector of the hello does not fill the one around it. -/
  | fields (body : Bytes) (h : body.length < 2 ^ 24) (hbody : handshake body <+: joined rs)
      (hfields : ¬∃ c : ClientHello, body = c.encode ∧ c.Sound)

/-- What is waited for: the rest of a record within its cap, of a hello within its own. -/
def Awaits (b : Bytes) : Prop :=
  ∃ rs rest, b = encoded rs ++ rest ∧ rs.length ≤ MAX_RECORDS ∧ (4 ≤ (joined rs).length →
      announced (joined rs) ≤ MAX_HELLO ∧ (joined rs).length < 4 + announced (joined rs)) ∧
    (rest.length < 5 ∨ ∃ r : Record, rest <+: r.encode ∧ rest.length < r.encode.length)

theorem Gather.Waits.joined (h : (({} : Gather).adds rs).Waits) :
    rs.length ≤ MAX_RECORDS ∧ (4 ≤ (joined rs).length →
      announced (joined rs) ≤ MAX_HELLO ∧ (Wire.joined rs).length < 4 + announced (Wire.joined rs)) := by
  have hrecords := h.records
  have hsize := h.size
  have hshort := h.short
  rw [adds_start_records] at hrecords
  rw [adds_start_message] at hsize hshort
  exact ⟨hrecords, fun hfour => ⟨hsize hfour, hshort hfour⟩⟩

theorem Gather.Waits.not_whole (h : (({} : Gather).adds rs).Waits) {body : Bytes}
    (hlen : body.length < 2 ^ 24) (hbody : handshake body <+: Wire.joined rs) : False := by
  obtain ⟨t, ht⟩ := hbody
  have hfour : 4 ≤ (handshake body).length := by
    rw [handshake_length]
    omega
  have hsize : announced (Wire.joined rs) = body.length := by
    rw [← ht, announced_append t hfour, announced_handshake hlen]
  have hlength := congrArg List.length ht
  rw [length_append, handshake_length] at hlength
  have hshort := (h.joined.2 (by omega)).2
  omega

theorem hello_judge_broken {b : Bytes} (hpre : encoded rs <+: b)
    (h : Broken rs) : (hello_judge b).status = .malformed := by
  obtain ⟨rest, rfl⟩ := hpre
  unfold hello_judge
  obtain ⟨hwaits, -⟩ | ⟨rs₁, r, rs₂, a, hrs, hj, hrun⟩ := Gather.run_encoded rs rest Gather.start_waits
  · -- nothing is answered by the end of the records: the hello is short, and within the caps
    exfalso
    obtain ⟨hrecords, hsize⟩ := hwaits.joined
    cases h with
    | size hfour h => exact absurd (hsize hfour).1 (by omega)
    | records h hopen => omega
    | ends body h hbody hends => exact hwaits.not_whole h hbody
    | fields body h hbody hfields => exact hwaits.not_whole h hbody
  · rw [hrun]
    obtain ⟨why, rfl⟩ | ⟨hrecords, body', k, hcap, hwhole, rfl⟩ := judge_records hj
    · rfl
    have hlt : body'.length < 2 ^ 24 := by
      have hmax : MAX_HELLO = 16384 := rfl
      omega
    have hsplit : rs = (rs₁ ++ [r]) ++ rs₂ := by
      rw [hrs, append_cons]
    have htake : rs.take (rs₁.length + 1) = rs₁ ++ [r] := by
      rw [hsplit]
      exact take_left' (by simp)
    have hpre : handshake body' <+: joined rs := by
      rw [hsplit, joined_append, hwhole]
      exact prefix_append _ _
    cases h with
    | size hfour h =>
      exfalso
      obtain ⟨t, ht⟩ := hpre
      rw [← ht, announced_append t (by rw [handshake_length]; omega), announced_handshake hlt] at h
      omega
    | records h hopen =>
      exfalso
      refine hopen (rs₁.length + 1) ?_ ⟨body', hlt, ?_⟩
      · rwa [length_append, length_singleton] at hrecords
      · rw [htake, hwhole]
    | ends body h hbody hends =>
      exfalso
      apply hends (rs₁.length + 1)
      rw [htake, hwhole, handshake_unique hlt h hpre hbody]
    | fields body h hbody hfields =>
      obtain ⟨why, hwhy⟩ | ⟨c, hc, hsound, -⟩ := hello_answer_cases body' k
      · rw [hwhy]
        rfl
      · exact absurd ⟨c, (handshake_unique h hlt hbody hpre).trans hc, hsound⟩ hfields

theorem record_header_error {data : Bytes} {first : Bool} {a : Hello} (h : record_header data 1 first = .error a) :
    a.name = none ∧ (a.status = .malformed ∨ a.status = .not_tls ∧ first = true ∧ byte_at data 1 ≠ 22) := by
  unfold record_header at h
  dsimp only at h
  split_ifs at h with h₁ hkind
  · rw [← error.inj h]
    cases first with
    | false => exact ⟨rfl, .inl rfl⟩
    | true => exact ⟨rfl, .inr ⟨rfl, rfl, hkind⟩⟩
  · rw [← error.inj h]
    cases first <;> exact ⟨rfl, .inl rfl⟩
  · rw [← error.inj h]
    cases first <;> exact ⟨rfl, .inl rfl⟩
  · rw [← error.inj h]
    exact ⟨rfl, .inl rfl⟩

theorem hello_judge_record {minor : UInt8} {n : ℕ} {rest : Bytes}
    (hn : n < 65536) (hlen : n = 0 ∨ 16384 < n)
    (hopen : ∀ body, body.length < 2 ^ 24 → ¬handshake body <+: joined rs) :
    (hello_judge (encoded rs ++ 22 :: 3 :: minor :: (u16_bytes n ++ rest))).status = .malformed := by
  unfold hello_judge
  obtain ⟨hwaits, hrun⟩ | ⟨rs₁, r, rs₂, a, rfl, hj, hrun⟩ :=
    Gather.run_encoded rs (22 :: 3 :: minor :: (u16_bytes n ++ rest)) Gather.start_waits
  · rw [hrun]
    cases hheader : record_header (22 :: 3 :: minor :: (u16_bytes n ++ rest)) 1
        ((({} : Gather).adds rs).records == 0) with
    | error a =>
      rw [Gather.run_refused hheader]
      obtain hbad | ⟨-, -, hkind⟩ := (record_header_error hheader).2
      · exact hbad
      · exact absurd rfl hkind
    | ok n' =>
      exfalso
      obtain ⟨-, -, -, hpos, hle, hpair⟩ := record_header_five_ok hheader
      rw [pair_u16_bytes hn] at hpair
      omega
  · rw [hrun]
    obtain ⟨why, rfl⟩ | ⟨-, body, k, hcap, hwhole, -⟩ := judge_records hj
    · rfl
    · exfalso
      have hmax : MAX_HELLO = 16384 := rfl
      apply hopen body (by omega)
      rw [append_cons, joined_append, hwhole]
      exact prefix_append _ _

theorem hello_judge_named {b n : Bytes} (h : (hello_judge b).name = some n) :
    (hello_judge b).status = .name ∧ Named b n := by
  unfold hello_judge at h ⊢
  cases hrun : ({} : Gather).run b with
  | ok p =>
    rw [hrun] at h
    cases h
  | error a =>
    rw [hrun] at h
    obtain ⟨rs, rest, rfl, -, -, hat⟩ := Gather.run_error hrun Gather.start_waits
    obtain hrefused | ⟨r, rest', rfl, hj⟩ := hat
    · rw [(record_header_error hrefused).1] at h
      cases h
    have hlast : (({} : Gather).adds (rs ++ [r])).judge = .error a := by
      unfold Gather.adds
      rwa [foldl_append]
    obtain ⟨why, rfl⟩ | ⟨hrecords, body, k, hcap, hwhole, rfl⟩ := judge_records hlast
    · cases h
    obtain ⟨why, hwhy⟩ | ⟨c, rfl, hsound, -, hnames⟩ := hello_answer_cases body k
    · rw [hwhy] at h
      cases h
    obtain ⟨hstatus, hname⟩ := hnames n h
    refine ⟨hstatus, rs ++ [r], c, ?_, hrecords, hcap, hwhole, hsound, hname⟩
    have hencoded : encoded (rs ++ [r]) = encoded rs ++ r.encode := by
      unfold encoded
      rw [map_append, flatten_append, map_singleton, flatten_singleton]
    rw [hencoded, ← append_assoc]
    exact prefix_append _ _

theorem hello_judge_some {b : Bytes} (h : (hello_judge b).status = .name) : ∃ n, (hello_judge b).name = some n := by
  unfold hello_judge at h ⊢
  cases hrun : ({} : Gather).run b with
  | ok p =>
    rw [hrun] at h
    cases h
  | error a =>
    rw [hrun] at h
    obtain ⟨rs, rest, -, -, -, hat⟩ := Gather.run_error hrun Gather.start_waits
    obtain hrefused | ⟨r, rest', -, hj⟩ := hat
    · obtain hbad | ⟨hbad, -⟩ := (record_header_error hrefused).2
      · rw [hbad] at h
        cases h
      · rw [hbad] at h
        cases h
    · obtain ⟨why, rfl⟩ | ⟨-, -, -, -, -, rfl⟩ := Gather.judge_error hj
      · cases h
      · exact hello_answer_some h

theorem hello_judge_tls {b : Bytes} (h : b.head? = some 22) : (hello_judge b).status ≠ .not_tls := by
  unfold hello_judge
  cases hrun : ({} : Gather).run b with
  | ok p => simp
  | error a =>
    obtain ⟨rs, rest, rfl, -, -, hat⟩ := Gather.run_error hrun Gather.start_waits
    obtain hrefused | ⟨r, rest', rfl, hj⟩ := hat
    · obtain hbad | ⟨-, hfirst, hkind⟩ := (record_header_error hrefused).2
      · rw [hbad]
        decide
      -- the first header is that of the stream's first byte
      exfalso
      rw [adds_start_records] at hfirst
      have hnil : rs = [] := length_eq_zero_iff.mp (by simpa using hfirst)
      rw [hnil, encoded_nil, nil_append] at h
      cases rest with
      | nil => cases h
      | cons b t => exact hkind (some.inj h)
    · have hlast : (({} : Gather).adds (rs ++ [r])).judge = .error a := by
        unfold Gather.adds
        rwa [foldl_append]
      obtain ⟨why, rfl⟩ | ⟨-, body, k, -, -, rfl⟩ := judge_records hlast
      · simp [malformed]
      obtain ⟨why, hwhy⟩ | ⟨c, -, -, hstatus, -⟩ := hello_answer_cases body k
      · rw [hwhy]
        simp [malformed]
      · exact hstatus

theorem hello_judge_awaits {b : Bytes} (h : (hello_judge b).status = .more) : Awaits b := by
  unfold hello_judge at h
  cases hrun : ({} : Gather).run b with
  | error a =>
    rw [hrun] at h
    exact absurd h (hello_run_decided hrun)
  | ok p =>
    obtain ⟨rs, rfl, hg, hwaits, n, hheader, hn⟩ := Gather.run_ok hrun Gather.start_waits
    rw [hg] at hwaits
    obtain ⟨hrecords, hsize⟩ := hwaits.joined
    refine ⟨rs, p.2, rfl, hrecords, hsize, ?_⟩
    obtain ⟨-, hshort⟩ | ⟨hpos, hle, m, t, hm, hrest⟩ := record_header_ok hheader
    · exact .inl hshort
    right
    have hlen : p.2.length < 5 + n := hn.resolve_left (by omega)
    have hlength := congrArg List.length hrest
    simp only [length_cons, length_append, u16_bytes_length] at hlength
    -- any payload of the record's length that begins with what is there
    have hpayload : (t ++ List.replicate (n - t.length) 0).length = n := by
      rw [length_append, length_replicate]
      omega
    obtain ⟨r, rfl, hr⟩ : ∃ r : Record, r.minor = m ∧ r.payload = t ++ List.replicate (n - t.length) 0 :=
      ⟨⟨m, t ++ List.replicate (n - t.length) 0, hm, by omega, by omega⟩, rfl, rfl⟩
    refine ⟨r, ⟨List.replicate (n - t.length) 0, ?_⟩, ?_⟩
    · rw [Record.encode, hr, hpayload, hrest]
      simp only [cons_append, append_assoc]
    · rwa [Record.encode_length, hr, hpayload]

/-- The hello reader is fail-closed, whatever the cuts: it names a server only where whole records carry
a hello whose vectors fill one another, with one `server_name` extension whose one entry has that
canonical name, and no extension that encrypts it; a stream that begins as a handshake is never not TLS;
lengths that do not fit, and those of records that no record may have, are malformed; and what is waited
for is within the caps. -/
theorem hello_fail_closed (cs : List Bytes) (c : Bytes) : (∀ n, (hello_reader.answer cs c).name = some n →
      (hello_reader.answer cs c).status = .name ∧ Named (cs.flatten ++ c) n) ∧
    ((hello_reader.answer cs c).status = .name → ∃ n, (hello_reader.answer cs c).name = some n) ∧
    ((cs.flatten ++ c).head? = some 22 → (hello_reader.answer cs c).status ≠ .not_tls) ∧
    (∀ rs, encoded rs <+: cs.flatten ++ c → Broken rs → (hello_reader.answer cs c).status = .malformed) ∧
    (∀ rs minor n rest, cs.flatten ++ c = encoded rs ++ 22 :: 3 :: minor :: (u16_bytes n ++ rest) →
      n < 65536 → (n = 0 ∨ 16384 < n) → (∀ body, body.length < 2 ^ 24 → ¬handshake body <+: joined rs) →
          (hello_reader.answer cs c).status = .malformed) ∧
    ((hello_reader.answer cs c).status = .more → Awaits (cs.flatten ++ c)) := by
  rw [hello_reader_reads.answers]
  refine ⟨fun n => hello_judge_named, hello_judge_some, hello_judge_tls,
    fun rs hpre => hello_judge_broken hpre, ?_, hello_judge_awaits⟩
  intro rs minor n rest hb hn hlen hopen
  rw [hb]
  exact hello_judge_record hn hlen hopen

def small_hello : Bytes :=
  22 :: 3 :: 1 :: vector16 (handshake (List.replicate 34 0 ++ vector8 [] ++ vector16 [19, 1] ++
    vector8 [0] ++ vector16 (u16_bytes 0 ++ vector16 (vector16 (0 :: vector16 (lit "Host.example"))))))

/-- It is named after its record, cut within a length. -/
theorem hello_fail_closed_small : Named ([small_hello.take 59].flatten ++ small_hello.drop 59) (lit "host.example") :=
  ((hello_fail_closed [small_hello.take 59] (small_hello.drop 59)).1 (lit "host.example") (by decide +kernel)).2

end Cosmic.Wire
