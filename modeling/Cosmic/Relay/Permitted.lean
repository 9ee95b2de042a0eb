/-
What the relay may connect to, said of bits: `permitted` answers exactly the answers that are granted
literally, or that no refused prefix holds, that are none of the host's own and, of the IPv6 ones,
that are global unicast.

`within` compares whole bytes and a masked one; `take_bits_iff` turns that into a comparison of bits
once, and from there on a prefix is a set of addresses.
-/
import Cosmic.Base.Bits
import Cosmic.Relay.Address

set_option autoImplicit false

namespace Cosmic.RelayAddress

open Cosmic.Base List Except

/-! ## Bytes compared -/

theorem same_iff {a b : Bytes} : same a b = true ↔ a = b := by
  unfold same
  rw [Bool.and_eq_true, beq_iff_eq, all_eq_true]
  constructor
  · rintro ⟨hlen, hall⟩
    apply ext_getElem? fun i => ?_
    by_cases hi : i < a.length
    · simpa using hall i (mem_range.mpr hi)
    · rw [getElem?_eq_none (by omega), getElem?_eq_none (by omega)]
  · rintro rfl
    exact ⟨rfl, fun i _ => beq_self_eq_true _⟩

theorem any_bytes_ne {a b : Bytes} {n : ℕ} :
    (List.range n).any (fun i => a[i]? != b[i]?) = false ↔ a.take n = b.take n := by
  rw [any_eq_false]
  constructor
  · intro h
    apply ext_getElem? fun i => ?_
    by_cases hi : i < n
    · rw [getElem?_take_of_lt hi, getElem?_take_of_lt hi]
      simpa using h i (mem_range.mpr hi)
    · rw [getElem?_take_eq_none (by omega), getElem?_take_eq_none (by omega)]
  · intro h i hi
    have hget : (a.take n)[i]? = (b.take n)[i]? := by rw [h]
    rw [getElem?_take_of_lt (mem_range.mp hi), getElem?_take_of_lt (mem_range.mp hi)] at hget
    simp [hget]

theorem begins_iff {bytes start : Bytes} : begins bytes start = true ↔ bytes.take start.length = start := by
  have hne := any_bytes_ne (a := bytes) (b := start) (n := start.length)
  rw [take_length] at hne
  rw [← hne]
  unfold begins
  rw [all_eq_not_any_not]
  simp only [Bool.not_eq_true']
  rfl

/-! ## Prefixes -/

/-- A prefix holds the addresses of its length that share its first bits. -/
def Held (b : Bytes) (p : Prefix) : Prop :=
  b.length = p.bytes.length ∧ (bits b).take p.bits = (bits p.bytes).take p.bits

/-- A prefix no longer than its address. -/
def Prefix.Fits (p : Prefix) : Prop := p.bits ≤ 8 * p.bytes.length

instance (p : Prefix) : Decidable p.Fits := inferInstanceAs (Decidable (_ ≤ _))

/-- Every entry of `DENY` is an address and a number. -/
theorem prefixes_read : DENY.mapM read_prefix = some PREFIXES := by decide +kernel

theorem prefixes_fit : ∀ p ∈ PREFIXES, p.Fits := by decide +kernel

theorem within_spec {b : Bytes} {p : Prefix} (hfit : p.Fits) :
    ∃ held, within b p = .ok held ∧ (held = true ↔ Held b p) := by
  unfold within Held
  by_cases hlen : b.length = p.bytes.length
  · have hbits : p.bits ≤ 8 * b.length := by
      rwa [hlen]
    rw [if_neg (not_not.mpr hlen), take_bits_iff hlen hbits]
    by_cases hwhole : b.take (p.bits / 8) = p.bytes.take (p.bits / 8)
    · dsimp only
      rw [any_bytes_ne.mpr hwhole, if_neg (by decide)]
      by_cases hrest : p.bits % 8 = 0
      · exact ⟨true, by rw [if_pos hrest], by simp [hlen, hwhole, hrest]⟩
      have hlt : p.bits / 8 < b.length := by omega
      have hlt' : p.bits / 8 < p.bytes.length := by omega
      rw [if_neg hrest, getElem?_eq_getElem hlt, getElem?_eq_getElem hlt']
      refine ⟨_, rfl, ?_⟩
      simp only [beq_iff_eq, hlen, hwhole, true_and, Option.some_inj]
      constructor
      · rintro h - _ _ rfl rfl
        exact h
      · intro h
        exact h hrest _ _ rfl rfl
    · have hany : (List.range (p.bits / 8)).any (fun i => b[i]? != p.bytes[i]?) = true := by
        by_contra hfalse
        exact hwhole (any_bytes_ne.mp (Bool.eq_false_iff.mpr hfalse))
      dsimp only
      rw [hany, if_pos rfl]
      exact ⟨false, rfl, by simp [hwhole]⟩
  · rw [if_pos hlen]
    exact ⟨false, rfl, by simp [hlen]⟩

theorem first_within_spec {b : Bytes} {want : Class → Bool} {ps : List Prefix} (hfit : ∀ p ∈ ps, p.Fits) :
    ∃ found, first_within b want ps = .ok found ∧ (found = none ↔ ∀ p ∈ ps, want p.cls = true → ¬Held b p) := by
  induction ps with
  | nil => exact ⟨none, rfl, by simp⟩
  | cons p ps ih =>
    obtain ⟨found, hfound, hnone⟩ := ih fun q hq => hfit q (mem_cons_of_mem p hq)
    rw [first_within]
    by_cases hwant : want p.cls = true
    · obtain ⟨held, hheld, hiff⟩ := within_spec (hfit p mem_cons_self)
      rw [if_pos hwant, hheld]
      cases held with
      | true =>
        refine ⟨some p.cls, rfl, ?_⟩
        have hp : Held b p := hiff.mp rfl
        constructor
        · intro h
          cases h
        · exact fun h => absurd hp (h p mem_cons_self hwant)
      | false =>
        have hp : ¬Held b p := fun h => absurd (hiff.mpr h) (by decide)
        refine ⟨found, hfound, hnone.trans ?_⟩
        rw [forall_mem_cons]
        exact ⟨fun h => ⟨fun _ => hp, h⟩, fun h => h.2⟩
    · rw [if_neg hwant]
      refine ⟨found, hfound, hnone.trans ?_⟩
      rw [forall_mem_cons]
      exact ⟨fun h => ⟨fun hw => absurd hw hwant, h⟩, fun h => h.2⟩

theorem first_bits {b : Bytes} (h : b.length = 16) :
    (b[0]?.map (· &&& 0xe0)) ≠ some 0x20 ↔ (bits b).take 3 ≠ [false, false, true] := by
  cases b with
  | nil => exact absurd h (by decide)
  | cons c b =>
    have hmask : (0xe0 : UInt8) = high_mask 3 := by decide
    have hroot : (0x20 : UInt8) = 0x20 &&& high_mask 3 := by decide
    have hbits : (byte_bits 0x20).take 3 = [false, false, true] := by decide
    rw [bits_cons, take_append_of_le_length (by simp), getElem?_cons_zero, Option.map_some,
      ne_eq, ne_eq, Option.some_inj, hmask, hroot, and_high_mask (by decide), hbits]

/-- An address that nothing refuses: no prefix holds it, it is not one of the host's own, and an IPv6
one is global unicast. -/
structure Public (b : Bytes) (own : Bytes → Prop) : Prop where
  not_refused : ∀ p ∈ PREFIXES, ¬Held b p
  not_own : ¬own b
  global : b.length = 16 → (bits b).take 3 = [false, false, true]

theorem classify_spec (b : Bytes) (own : List Bytes) :
    ∃ cls, classify b own = .ok cls ∧ (cls = none ↔ Public b (· ∈ own)) := by
  obtain ⟨meta_, hmeta, hmeta_none⟩ := @first_within_spec b (· == .metadata) _ prefixes_fit
  obtain ⟨found, hfound, hfound_none⟩ := @first_within_spec b (· != .metadata) _ prefixes_fit
  have hown : own.any (same b) = true ↔ b ∈ own := by
    rw [any_eq_true]
    constructor
    · rintro ⟨o, ho, h⟩
      rwa [same_iff.mp h]
    · exact fun h => ⟨b, h, same_iff.mpr rfl⟩
  unfold classify
  rw [hmeta]
  cases meta_ with
  | some cls =>
    refine ⟨some cls, rfl, ⟨fun h => absurd h (by simp), fun hpub => ?_⟩⟩
    exact absurd (hmeta_none.mpr fun p hp _ => hpub.not_refused p hp) (by simp)
  | none =>
    by_cases hmem : b ∈ own
    · rw [if_pos (hown.mpr hmem)]
      exact ⟨some .own, rfl, ⟨fun h => absurd h (by simp), fun hpub => absurd hmem hpub.not_own⟩⟩
    rw [if_neg (fun h => hmem (hown.mp h)), hfound]
    cases found with
    | some cls =>
      refine ⟨some cls, rfl, ⟨fun h => absurd h (by simp), fun hpub => ?_⟩⟩
      exact absurd (hfound_none.mpr fun p hp _ => hpub.not_refused p hp) (by simp)
    | none =>
      have hno : ∀ p ∈ PREFIXES, ¬Held b p := by
        intro p hp
        by_cases hcls : p.cls = .metadata
        · exact hmeta_none.mp rfl p hp (by simp [hcls])
        · exact hfound_none.mp rfl p hp (by simp [hcls])
      by_cases hglobal : b.length = 16 ∧ (b[0]?.map (· &&& 0xe0)) ≠ some 0x20
      · rw [if_pos hglobal]
        refine ⟨some .nonglobal, rfl, ⟨fun h => absurd h (by simp), fun hpub => ?_⟩⟩
        exact absurd (hpub.global hglobal.1) ((first_bits hglobal.1).mp hglobal.2)
      · rw [if_neg hglobal]
        refine ⟨none, rfl, ⟨fun _ => ⟨hno, hmem, fun hlen => ?_⟩, fun _ => rfl⟩⟩
        by_contra hbits
        exact hglobal ⟨hlen, (first_bits hlen).mpr hbits⟩

/-! ## Literal grants and own addresses -/

/-- A grant whose address has the bytes `b` and whose port is `port` or any. -/
def Names (grant b : Bytes) (port : ℤ) : Prop :=
  ∃ t, Grant.parse grant = .ok t ∧ t.bytes = some b ∧ (t.port = 0 ∨ (t.port : ℤ) = port)

theorem grants_address_iff {grant b : Bytes} {port : ℤ} :
    grants_address b port grant = true ↔ Names grant b port := by
  unfold grants_address Names
  cases hparse : Grant.parse grant with
  | error why => simp
  | ok t =>
    cases hbytes : t.bytes with
    | none => simp [hbytes]
    | some bytes =>
      simp only [hbytes, Bool.and_eq_true, same_iff, Bool.or_eq_true, beq_iff_eq, ok.injEq,
        exists_eq_left', Option.some_inj]

theorem granted_iff {b : Bytes} {port : ℤ} {grants : List Bytes} :
    granted b port grants = true ↔ ∃ grant ∈ grants, Names grant b port := by
  unfold granted
  rw [any_eq_true]
  simp only [grants_address_iff]

/-- `b` is an own address by the entry `text`, an IPv4-mapped entry counting as the IPv4 one. -/
def IsOwn (text b : Bytes) : Prop :=
  Grant.address text = some (MAPPED ++ b) ∧ b.length = 4 ∨
    Grant.address text = some b ∧ ∀ v, v.length = 4 → b ≠ MAPPED ++ v

theorem carried {v : Bytes} (h : v.length = 4) : ((MAPPED ++ v).drop 12).take 4 = v := by
  exact take_of_length_le (Nat.le_of_eq h)

theorem own_address_iff {text b : Bytes} : own_address text = .ok b ↔ IsOwn text b := by
  unfold own_address IsOwn parse
  cases haddr : Grant.address text with
  | none => simp
  | some bytes =>
    dsimp only
    have hmapped : bytes.length = 16 ∧ begins bytes MAPPED = true ↔
        bytes = MAPPED ++ (bytes.drop 12).take 4 ∧ ((bytes.drop 12).take 4).length = 4 := by
      constructor
      · rintro ⟨hlen, hbegins⟩
        have htake : bytes.take 12 = MAPPED := begins_iff.mp hbegins
        have hrest : (bytes.drop 12).length ≤ 4 := by
          rw [length_drop]
          omega
        refine ⟨?_, ?_⟩
        · rw [take_of_length_le hrest, ← htake, take_append_drop]
        · rw [length_take, length_drop]
          omega
      · rintro ⟨heq, hlen⟩
        have hlen16 : bytes.length = 16 := by
          rw [heq, length_append, hlen]
          rfl
        refine ⟨hlen16, begins_iff.mpr ?_⟩
        rw [heq]
        exact take_left
    by_cases h : bytes.length = 16 ∧ begins bytes MAPPED = true
    · obtain ⟨heq, hlen⟩ := hmapped.mp h
      rw [if_pos h, ok.injEq]
      constructor
      · rintro rfl
        exact .inl ⟨by rw [← heq], hlen⟩
      rintro (⟨hb, -⟩ | ⟨hb, hno⟩)
      · rw [Option.some.inj hb] at h ⊢
        have h12 : MAPPED.length = 12 := rfl
        rw [length_append, h12] at h
        exact carried (by omega)
      · rw [← Option.some.inj hb] at hno
        exact absurd heq (hno _ hlen)
    · rw [if_neg h, ok.injEq]
      constructor
      · rintro rfl
        refine .inr ⟨rfl, fun v hv heq => h (hmapped.mpr ?_)⟩
        have hv' : (bytes.drop 12).take 4 = v := by
          rw [heq, carried hv]
        rw [hv']
        exact ⟨heq, hv⟩
      · rintro (⟨hb, hlen⟩ | ⟨hb, -⟩)
        · have hb' := Option.some.inj hb
          have hv' : (bytes.drop 12).take 4 = b := by
            rw [hb', carried hlen]
          exact absurd (hmapped.mpr (by rw [hv']; exact ⟨hb', hlen⟩)) h
        · exact Option.some.inj hb

theorem own_addresses_mem {texts own : List Bytes} (h : own_addresses texts = .ok own) {b : Bytes} :
    b ∈ own ↔ ∃ text ∈ texts, IsOwn text b := by
  unfold own_addresses at h
  induction texts generalizing own with
  | nil =>
    have hown : ([] : List Bytes) = own := ok.inj h
    simp [← hown]
  | cons text texts ih =>
    rw [mapM_cons] at h
    cases hhead : own_address text with
    | error e =>
      rw [hhead] at h
      exact absurd h (by simp [bind, Except.bind])
    | ok a =>
      rw [hhead] at h
      cases htail : texts.mapM own_address with
      | error e =>
        rw [htail] at h
        exact absurd h (by simp [bind, Except.bind])
      | ok rest =>
        rw [htail] at h
        have hown : a :: rest = own := ok.inj h
        rw [← hown, mem_cons, ih htail]
        constructor
        · rintro (rfl | ⟨entry, hentry, hb⟩)
          · exact ⟨text, mem_cons_self, own_address_iff.mp hhead⟩
          · exact ⟨entry, mem_cons_of_mem text hentry, hb⟩
        · rintro ⟨entry, hentry, hb⟩
          rcases mem_cons.mp hentry with rfl | hentry
          · have ha := own_address_iff.mpr hb
            rw [hhead] at ha
            exact .inl (ok.inj ha).symm
          · exact .inr ⟨entry, hentry, hb⟩

/-! ## The answers that are allowed -/

/-- An answer the relay may connect to: its text is numeric, and its address is granted literally or
refused by nothing. -/
def Allowed (port : ℤ) (grants : List Bytes) (own : Bytes → Prop) (answer : Answer) : Prop :=
  ∃ b, Grant.address answer.address = some b ∧ ((∃ grant ∈ grants, Names grant b port) ∨ Public b own)

theorem check_spec (answer : Answer) (port : ℤ) (grants own : List Bytes) :
    ∃ ok reason, check answer.address port grants own = .ok (ok, reason) ∧
      (ok = true ↔ Allowed port grants (· ∈ own) answer) := by
  unfold check parse Allowed
  cases Grant.address answer.address with
  | none => exact ⟨false, _, rfl, by simp⟩
  | some b =>
    simp only [Option.some_inj, exists_eq_left']
    by_cases hgranted : granted b port grants = true
    · rw [if_pos hgranted]
      exact ⟨true, _, rfl, ⟨fun _ => .inl (granted_iff.mp hgranted), fun _ => rfl⟩⟩
    have hno : ¬∃ grant ∈ grants, Names grant b port := fun h => hgranted (granted_iff.mpr h)
    obtain ⟨cls, hcls, hpublic⟩ := classify_spec b own
    rw [if_neg hgranted, hcls]
    cases cls with
    | some cls =>
      refine ⟨false, _, rfl, ⟨fun h => absurd h (by decide), ?_⟩⟩
      rintro (h | h)
      · exact absurd h hno
      · exact absurd (hpublic.mpr h) (by simp)
    | none => exact ⟨true, _, rfl, ⟨fun _ => .inr (hpublic.mp rfl), fun _ => rfl⟩⟩

open scoped Classical in
theorem sift_spec (answers : List Answer) (port : ℤ) (grants own : List Bytes) : ∃ why, sift port grants own answers =
      .ok (answers.filter (fun a => Allowed port grants (· ∈ own) a), why) := by
  induction answers with
  | nil => exact ⟨[], rfl⟩
  | cons answer answers ih =>
    obtain ⟨why, hrest⟩ := ih
    obtain ⟨ok, reason, hcheck, hok⟩ := check_spec answer port grants own
    rw [sift, hcheck]
    rw [hrest]
    by_cases hallowed : Allowed port grants (· ∈ own) answer
    · rw [filter_cons_of_pos (by simpa using hallowed), hok.mpr hallowed]
      exact ⟨why, rfl⟩
    · rw [filter_cons_of_neg (by simpa using hallowed), Bool.eq_false_iff.mpr (fun h => hallowed (hok.mp h))]
      exact ⟨reason :: why, rfl⟩

/-- What an IPv6 address that carries an IPv4 one begins with: IPv4-mapped, IPv4-compatible,
IPv4-translated, NAT64 with the well-known and with the local-use prefix, 6to4 and Teredo. -/
def CARRIERS : List Bytes := [[0, 0, 0, 0, 0, 0, 0, 0, 0, 0, 0xff, 0xff], [0, 0, 0, 0, 0, 0, 0, 0, 0, 0, 0, 0],
  [0, 0, 0, 0, 0, 0, 0, 0, 0xff, 0xff, 0, 0],
  [0, 0x64, 0xff, 0x9b, 0, 0, 0, 0, 0, 0, 0, 0],
  [0, 0x64, 0xff, 0x9b, 0, 1],
  [0x20, 0x02],
  [0x20, 0x01, 0, 0]]

/-- An IPv6 address that embeds an IPv4 one. -/
def Carrier (b : Bytes) : Prop := b.length = 16 ∧ ∃ start ∈ CARRIERS, b.take start.length = start

theorem carriers_refused : ∀ start ∈ CARRIERS, ∃ p ∈ PREFIXES,
    p.bytes.length = 16 ∧ p.bits = 8 * start.length ∧ p.bytes.take start.length = start := by
  decide +kernel

theorem Carrier.held {b : Bytes} (h : Carrier b) : ∃ p ∈ PREFIXES, Held b p := by
  obtain ⟨hlen, start, hstart, htake⟩ := h
  obtain ⟨p, hp, hplen, hbits, hptake⟩ := carriers_refused start hstart
  have hle : start.length ≤ 16 := by
    rw [← htake, length_take]
    omega
  refine ⟨p, hp, hlen.trans hplen.symm, ?_⟩
  rw [take_bits_iff (hlen.trans hplen.symm) (by omega), hbits,
    Nat.mul_div_cancel_left _ (by decide), Nat.mul_mod_right, htake, hptake]
  exact ⟨rfl, fun h => absurd rfl h⟩

theorem Names.ipv6 {grant b : Bytes} {port : ℤ} (h : Names grant b port) (hlen : b.length = 16) :
    ∃ t, Grant.parse grant = .ok t ∧ t.kind = .ipv6 ∧ t.bytes = some b ∧ (t.port = 0 ∨ (t.port : ℤ) = port) := by
  obtain ⟨t, ht, hbytes, hport⟩ := h
  have hhost := Grant.parse_host_of ht
  rw [hbytes] at hhost
  refine ⟨t, ht, ?_, hbytes, hport⟩
  generalize t.kind = kind, t.host = canonical, Grant.host_of grant = host at hhost
  cases hhost with
  | ipv4 hfour => exact absurd (hfour.symm.trans hlen) (by decide)
  | ipv6 sixteen hc haddr => rfl

open scoped Classical in
/-- **What the relay may connect to.** The answers are the allowed ones in order, or none with a
reason when there are none; and one that embeds an IPv4 address is answered only where a grant names
its own sixteen bytes. -/
theorem permitted_exact {texts own : List Bytes} (hown : own_addresses texts = .ok own)
    (answers : List Answer) (port : ℤ) (grants : List Bytes) :
    (∃ why, permitted answers port grants own = .ok
      (let allowed := answers.filter
        (fun a => Allowed port grants (fun b => ∃ text ∈ texts, IsOwn text b) a)
      if allowed = [] then (none, why) else (some allowed, []))) ∧
    ∀ answer ∈ answers, Allowed port grants (fun b => ∃ text ∈ texts, IsOwn text b) answer →
      ∀ b, Grant.address answer.address = some b → Carrier b →
        ∃ grant ∈ grants, ∃ t, Grant.parse grant = .ok t ∧ t.kind = .ipv6 ∧ t.bytes = some b ∧
          (t.port = 0 ∨ (t.port : ℤ) = port) := by
  constructor
  · have hmem : (fun b => ∃ text ∈ texts, IsOwn text b) = (· ∈ own) := by
      funext b
      exact propext (own_addresses_mem hown).symm
    obtain ⟨why, hsift⟩ := sift_spec answers port grants own
    rw [hmem]
    unfold permitted
    by_cases hnil : answers = []
    · exact ⟨_, by rw [if_pos hnil, hnil]; rfl⟩
    · rw [if_neg hnil, hsift]
      dsimp only
      by_cases hallowed : answers.filter (fun a => Allowed port grants (· ∈ own) a) = []
      · exact ⟨_, by rw [if_pos hallowed, if_neg (by simp [hallowed])]⟩
      · exact ⟨[], by rw [if_neg hallowed, if_pos (length_pos_of_ne_nil hallowed)]⟩
  · rintro answer - ⟨b', hb', hwhy⟩ b hb hcarrier
    rw [hb] at hb'
    obtain rfl := Option.some.inj hb'
    rcases hwhy with ⟨grant, hgrant, hnames⟩ | hpublic
    · exact ⟨grant, hgrant, hnames.ipv6 hcarrier.1⟩
    · obtain ⟨p, hp, hheld⟩ := hcarrier.held
      exact absurd hheld (hpublic.not_refused p hp)

/-- Of a private, a mapped and a public address, a policy that grants the private one literally is
answered the private and the public one. -/
theorem permitted_exact_mixed : permitted [⟨lit "10.0.0.1", lit "inet"⟩, ⟨lit "::ffff:8.8.8.8", lit "inet6"⟩,
        ⟨lit "8.8.8.8", lit "inet"⟩] 443 [lit "10.0.0.1:443", lit "*:*"] [[192, 168, 7, 7]] =
      .ok (some [⟨lit "10.0.0.1", lit "inet"⟩, ⟨lit "8.8.8.8", lit "inet"⟩], []) ∧
    ∀ answer ∈ [⟨lit "::ffff:8.8.8.8", lit "inet6"⟩],
      Allowed 443 [lit "*:*"] (fun b => ∃ text ∈ [lit "::ffff:192.168.7.7"], IsOwn text b) answer →
      ∀ b, Grant.address answer.address = some b → Carrier b →
        ∃ grant ∈ [lit "*:*"], ∃ t, Grant.parse grant = .ok t ∧ t.kind = .ipv6 ∧
          t.bytes = some b ∧ (t.port = 0 ∨ (t.port : ℤ) = 443) :=
  ⟨by decide +kernel,
    (permitted_exact
      (show own_addresses [lit "::ffff:192.168.7.7"] = .ok [[192, 168, 7, 7]] by decide +kernel)
      [⟨lit "::ffff:8.8.8.8", lit "inet6"⟩] 443 [lit "*:*"]).2⟩

end Cosmic.RelayAddress
