/-
The native connector's judgement of an address: `core/connector.c` up to `connector_public_allowed`,
and its agreement with the relay's.

The connector reads the refused prefixes and the host's own addresses from text a second time, in C,
with the machine's `inet_pton` behind a check of its own. A prefix of the connector is a sixteen byte
array with a length; `pad` says so, and everything else is said of the bytes the length counts.
-/
import Cosmic.Relay.Permitted

set_option autoImplicit false

namespace Cosmic.Connector

open Cosmic.Base List Except

/-! ## Reading an address -/

/-- The machine's `inet_pton`: the four bytes of an IPv4 text, the sixteen of an IPv6 one. -/
structure InetPton where
  inet4 : Bytes → Option Bytes
  inet6 : Bytes → Option Bytes

/-- One octet of `cosmic_numeric_host`'s loop: one to three digits, no leading zero, 255 at most. -/
def numeric_octet (part : Bytes) : Bool :=
  part ≠ [] && part.all isDigit && part.length ≤ 3 && digits_value 10 part ≤ 255 &&
    !(part.length > 1 && part.head? == some 48)

/-- `cosmic_numeric_host`: whether a text is a numeric address with no leading zeros in its octets.
The octets are looked for after the last colon, or in the whole of a text that has none. -/
def numeric_host (host : Bytes) : Bool :=
  if host.any (fun c => !(c == 58 || c == 46 || isHex c)) then false
  else
    let v4 := (host.reverse.takeWhile (· != 58)).reverse
    if 58 ∈ host ∧ 46 ∉ v4 then 46 ∉ host
    else
      let octets := v4.splitOn 46
      octets.length == 4 && octets.all numeric_octet

/-- A prefix of `length` bytes (4 or 16), of which `bits` are held. -/
structure Prefix where
  bytes : Bytes
  length : ℕ
  bits : ℕ
  deriving DecidableEq, Repr

/-- An array of sixteen bytes that begins with those given and ends with zeros. -/
def pad (s : Bytes) : Bytes := s ++ List.replicate (16 - s.length) 0

/-- The numeric address in `text` as a prefix of all its bits, an IPv4-mapped IPv6 address reduced to
the IPv4 address it carries when `reduce`. -/
def connector_address (net : InetPton) (text : Bytes) (reduce : Bool) : Option Prefix :=
  if ¬numeric_host text then none
  else if 58 ∉ text then (net.inet4 text).map fun b => ⟨pad b, 4, 4 * 8⟩
  else
    match net.inet6 text with
    | none => none
    | some b =>
      if reduce ∧ b.take 12 = RelayAddress.MAPPED then some ⟨pad (b.drop 12), 4, 4 * 8⟩
      else some ⟨pad b, 16, 16 * 8⟩

/-- The number of bits after the slash: one to three digits without a leading zero. -/
def prefix_bits (text : Bytes) : Option ℕ :=
  if text = [] ∨ text.length > 3 then none
  else if text.head? = some 48 ∧ text.length > 1 then none
  else if ¬text.all isDigit then none
  else some (digits_value 10 text)

/-- `text` as `address/bits` when `cidr`, else as an address alone. -/
def connector_prefix (net : InetPton) (text : Bytes) (cidr : Bool) : Option Prefix :=
  if cidr then
    match text.dropWhile (· != 47) with
    | [] => none
    | _ :: bits_text =>
      match prefix_bits bits_text with
      | none => none
      | some bits =>
        match connector_address net (text.takeWhile (· != 47)) false with
        | none => none
        | some out => if bits > out.length * 8 then none else some { out with bits := bits }
  else connector_address net text true

/-- One entry of a list of prefixes: shorter than 64 bytes and without a NUL. -/
def connector_entry (net : InetPton) (cidr : Bool) (text : Bytes) : Except Bytes Prefix :=
  if text.length ≥ 64 ∨ 0 ∈ text then .error (lit "a public entry is not an address")
  else
    match connector_prefix net text cidr with
    | some out => .ok out
    | none =>
      .error (if cidr then
          lit "a deny entry must be a numeric address and prefix length, as 10.0.0.0/8"
        else lit "an own entry must be a numeric address")

/-- A list of at most `limit` prefixes. -/
def connector_prefixes (net : InetPton) (cidr : Bool) (limit : ℕ) (texts : List Bytes) : Except Bytes (List Prefix) :=
  if texts.length > limit then .error (lit "a public list holds too many entries")
  else texts.mapM (connector_entry net cidr)

def CONNECTOR_DENY : ℕ := 128
def CONNECTOR_OWN : ℕ := 256

structure Public where
  deny : List Prefix
  own : List Prefix
  deriving DecidableEq, Repr

/-- Reads `{ deny = {cidr...}, own = {address...} }`. -/
def connector_public_read (net : InetPton) (deny own : List Bytes) : Except Bytes Public :=
  match connector_prefixes net true CONNECTOR_DENY deny with
  | .error e => .error e
  | .ok denies =>
    match connector_prefixes net false CONNECTOR_OWN own with
    | .error e => .error e
    | .ok owns => .ok ⟨denies, owns⟩

/-! ## The judgement -/

/-- Whether `p` holds `address`. -/
def connector_within (p : Prefix) (address : Bytes) : Bool :=
  if p.length ≠ address.length then false
  else
    let whole := p.bits / 8
    let rest := p.bits % 8
    if p.bytes.take whole ≠ address.take whole then false
    else if rest = 0 then true
    else
      let mask : UInt8 := UInt8.ofNat (0xff <<< (8 - rest))
      (p.bytes.getD whole 0 ^^^ address.getD whole 0) &&& mask == 0

/-- Whether a public connector may connect to `address`, 4 or 16 bytes. -/
def connector_public_allowed (pub : Public) (address : Bytes) : Bool :=
  if address.length = 16 ∧ address.getD 0 0 &&& 0xe0 ≠ 0x20 then false
  else if pub.deny.any (connector_within · address) then false
  else if pub.own.any (connector_within · address) then false
  else true

/-! ## Prefixes as sets of addresses -/

/-- A prefix that holds the addresses whose first `bits` bits are those of the address `b`. -/
structure Prefix.Of (p : Prefix) (b : Bytes) (bits : ℕ) : Prop where
  bytes : p.bytes = pad b
  length : p.length = b.length
  bits_eq : p.bits = bits
  fits : bits ≤ 8 * b.length

theorem mask_eq {rest : ℕ} (h : rest ≤ 8) : UInt8.ofNat (0xff <<< (8 - rest)) = high_mask rest := by
  interval_cases rest <;> decide

theorem and_xor_eq_zero {a b m : UInt8} : (a ^^^ b) &&& m = 0 ↔ a &&& m = b &&& m := by
  have hdist : (a ^^^ b) &&& m = (a &&& m) ^^^ (b &&& m) := by
    apply UInt8.toNat_inj.mp
    simp only [UInt8.toNat_and, UInt8.toNat_xor]
    exact Nat.and_xor_distrib_right
  rw [hdist, UInt8.xor_eq_zero_iff]

theorem connector_within_iff {p : Prefix} {b address : Bytes} {n : ℕ} (hp : p.Of b n) :
    connector_within p address = true ↔ address.length = b.length ∧ (bits address).take n = (bits b).take n := by
  unfold connector_within
  rw [hp.bytes, hp.length, hp.bits_eq]
  have hfits := hp.fits
  by_cases hlen : address.length = b.length
  · have hle : n / 8 ≤ b.length := by omega
    have htake : (pad b).take (n / 8) = b.take (n / 8) := by
      unfold pad
      rw [take_append_of_le_length hle]
    rw [if_neg (by rw [hlen]; simp), take_bits_iff hlen (by omega)]
    dsimp only
    rw [htake]
    by_cases hwhole : b.take (n / 8) = address.take (n / 8)
    · rw [if_neg (by simp [hwhole])]
      by_cases hrest : n % 8 = 0
      · simp [hrest, hlen, hwhole]
      have hlt : n / 8 < b.length := by omega
      have hlt' : n / 8 < address.length := by omega
      have hpad : (pad b).getD (n / 8) 0 = b[n / 8] := by
        unfold pad
        rw [getD_eq_getElem _ _ (by rw [length_append]; omega), getElem_append_left hlt]
      rw [if_neg hrest, hpad, getD_eq_getElem _ _ hlt', mask_eq (by omega), beq_iff_eq,
        and_xor_eq_zero, getElem?_eq_getElem hlt, getElem?_eq_getElem hlt']
      simp only [hlen, hwhole.symm, true_and, Option.some_inj]
      constructor
      · rintro h - _ _ rfl rfl
        exact h.symm
      · intro h
        exact (h hrest _ _ rfl rfl).symm
    · rw [if_pos hwhole]
      constructor
      · intro h
        cases h
      · rintro ⟨-, h, -⟩
        exact absurd h.symm hwhole
  · rw [if_pos (fun h => hlen h.symm)]
    simp [hlen]

/-! ## The two readings -/

/-- What is assumed of the machine: a numeric address is read as the strict grammar reads it. -/
structure InetPton.Strict (net : InetPton) : Prop where
  inet4 : ∀ text, numeric_host text = true → 58 ∉ text → net.inet4 text = Grant.address text
  inet6 : ∀ text, numeric_host text = true → 58 ∈ text → net.inet6 text = Grant.address text

theorem Prefix.of_pad {b : Bytes} {n : ℕ} (h : b.length = n) : Prefix.Of ⟨pad b, n, n * 8⟩ b (8 * b.length) :=
  ⟨rfl, h.symm, by rw [h, Nat.mul_comm], Nat.le_refl _⟩

variable {net : InetPton}

theorem connector_address_four (hnet : net.Strict) {text : Bytes}
    (hnum : numeric_host text = true) (hcolon : 58 ∉ text) (reduce : Bool) :
    connector_address net text reduce = (Grant.address text).map fun b => ⟨pad b, 4, 4 * 8⟩ := by
  unfold connector_address
  rw [if_neg (not_not.mpr hnum), if_pos hcolon, hnet.inet4 text hnum hcolon]

theorem connector_address_six (hnet : net.Strict) {text b : Bytes}
    (hnum : numeric_host text = true) (hcolon : 58 ∈ text) (hb : Grant.address text = some b)
    (reduce : Bool) :
    connector_address net text reduce =
      if reduce = true ∧ b.take 12 = RelayAddress.MAPPED then some ⟨pad (b.drop 12), 4, 4 * 8⟩
      else some ⟨pad b, 16, 16 * 8⟩ := by
  unfold connector_address
  rw [if_neg (not_not.mpr hnum), if_neg (not_not.mpr hcolon), hnet.inet6 text hnum hcolon, hb]

theorem connector_address_none (hnet : net.Strict) {text : Bytes} {reduce : Bool}
    (h : numeric_host text = false ∨ Grant.address text = none) :
    connector_address net text reduce = none := by
  by_cases hnum : numeric_host text = true
  · have hnone : Grant.address text = none := by
      rcases h with h | h
      · rw [hnum] at h
        cases h
      · exact h
    by_cases hcolon : 58 ∈ text
    · unfold connector_address
      rw [if_neg (not_not.mpr hnum), if_neg (not_not.mpr hcolon), hnet.inet6 text hnum hcolon, hnone]
    · rw [connector_address_four hnet hnum hcolon, hnone]
      rfl
  · unfold connector_address
    rw [if_pos hnum]

theorem connector_address_read (hnet : net.Strict) {text : Bytes} {reduce : Bool}
    {p : Prefix} (h : connector_address net text reduce = some p) :
    numeric_host text = true ∧ ∃ b, Grant.address text = some b := by
  by_cases hnum : numeric_host text = true
  · cases hb : Grant.address text with
    | none =>
      rw [connector_address_none hnet (.inr hb)] at h
      cases h
    | some b => exact ⟨hnum, b, rfl⟩
  · rw [connector_address_none hnet (.inl (Bool.eq_false_iff.mpr hnum))] at h
    cases h

theorem connector_address_whole (hnet : net.Strict) {text b : Bytes}
    (hnum : numeric_host text = true) (hb : Grant.address text = some b) :
    connector_address net text false = some ⟨pad b, b.length, b.length * 8⟩ := by
  rcases Grant.address_length hb with ⟨hcolon, hlen⟩ | ⟨hcolon, hlen⟩
  · rw [connector_address_six hnet hnum hcolon hb, if_neg (by simp), hlen]
  · rw [connector_address_four hnet hnum hcolon, hb, hlen]
    rfl

theorem connector_address_own (hnet : net.Strict) {text : Bytes} {p : Prefix}
    (h : connector_address net text true = some p) :
    ∃ b, RelayAddress.IsOwn text b ∧ p.Of b (8 * b.length) := by
  obtain ⟨hnum, b, hb⟩ := connector_address_read hnet h
  rcases Grant.address_length hb with ⟨hcolon, hlen⟩ | ⟨hcolon, hlen⟩
  · rw [connector_address_six hnet hnum hcolon hb] at h
    by_cases hmapped : b.take 12 = RelayAddress.MAPPED
    · rw [if_pos ⟨rfl, hmapped⟩] at h
      have hdrop : (b.drop 12).length = 4 := by
        rw [length_drop]
        omega
      refine ⟨b.drop 12, .inl ⟨?_, hdrop⟩, ?_⟩
      · rwa [← hmapped, take_append_drop]
      · rw [← Option.some.inj h]
        exact Prefix.of_pad hdrop
    · rw [if_neg (fun hc => hmapped hc.2)] at h
      refine ⟨b, .inr ⟨hb, fun v _ hv => hmapped ?_⟩, ?_⟩
      · rw [hv]
        rfl
      · rw [← Option.some.inj h]
        exact Prefix.of_pad hlen
  · rw [connector_address_four hnet hnum hcolon, hb] at h
    refine ⟨b, .inr ⟨hb, fun v hv heq => ?_⟩, ?_⟩
    · rw [heq, length_append, hv] at hlen
      cases hlen
    · rw [← Option.some.inj h]
      exact Prefix.of_pad hlen

theorem connector_entry_ok {cidr : Bool} {text : Bytes} {p : Prefix}
    (h : connector_entry net cidr text = .ok p) : connector_prefix net text cidr = some p := by
  unfold connector_entry at h
  split at h
  · cases h
  · split at h
    · next hp => rw [hp, ok.inj h]
    · cases h

theorem connector_entries_ok {cidr : Bool} {texts : List Bytes} {ps : List Prefix}
    (h : texts.mapM (connector_entry net cidr) = .ok ps) :
    Forall₂ (fun text p => connector_prefix net text cidr = some p) texts ps := by
  induction texts generalizing ps with
  | nil =>
    have hps : ([] : List Prefix) = ps := ok.inj h
    rw [← hps]
    exact .nil
  | cons text texts ih =>
    rw [mapM_cons] at h
    cases hhead : connector_entry net cidr text with
    | error e =>
      rw [hhead] at h
      cases h
    | ok p =>
      rw [hhead] at h
      cases htail : texts.mapM (connector_entry net cidr) with
      | error e =>
        rw [htail] at h
        cases h
      | ok rest =>
        rw [htail] at h
        have hps : p :: rest = ps := ok.inj h
        rw [← hps]
        exact .cons (connector_entry_ok hhead) (ih htail)

theorem connector_entries_of {cidr : Bool} {texts : List Bytes}
    (h : ∀ text ∈ texts, ∃ p, connector_entry net cidr text = .ok p) :
    ∃ ps, texts.mapM (connector_entry net cidr) = .ok ps := by
  induction texts with
  | nil => exact ⟨[], rfl⟩
  | cons text texts ih =>
    obtain ⟨p, hp⟩ := h text mem_cons_self
    obtain ⟨ps, hps⟩ := ih fun t ht => h t (mem_cons_of_mem text ht)
    refine ⟨p :: ps, ?_⟩
    rw [mapM_cons, hp, hps]
    rfl

theorem prefix_bits_some {text : Bytes} {n : ℕ} (h : prefix_bits text = some n) : decimal text = some n := by
  unfold prefix_bits at h
  split at h
  · cases h
  next hlen =>
  split at h
  · cases h
  split at h
  · cases h
  · next hdigits =>
    rw [not_or] at hlen
    rw [not_not] at hdigits
    rw [decimal_of_digits hlen.1 (all_eq_true.mp hdigits), ← h]

theorem connector_prefix_deny (hnet : net.Strict) {entry : RelayAddress.Deny}
    {p : Prefix} (h : connector_prefix net entry.cidr true = some p) :
    ∃ q, RelayAddress.read_prefix entry = some q ∧ p.Of q.bytes q.bits := by
  unfold connector_prefix at h
  unfold RelayAddress.read_prefix
  rw [if_pos rfl] at h
  cases hslash : entry.cidr.dropWhile (· != 47) with
  | nil =>
    rw [hslash] at h
    cases h
  | cons c bits_text =>
    rw [hslash] at h
    dsimp only at h ⊢
    cases hbits : prefix_bits bits_text with
    | none =>
      rw [hbits] at h
      cases h
    | some n =>
      rw [hbits] at h
      cases haddr : connector_address net (entry.cidr.takeWhile (· != 47)) false with
      | none =>
        rw [haddr] at h
        cases h
      | some out =>
        obtain ⟨hnum, b, hb⟩ := connector_address_read hnet haddr
        have hout := connector_address_whole hnet hnum hb
        rw [haddr] at h hout
        dsimp only at h
        split at h
        · cases h
        next hle =>
        rw [Option.some.inj hout] at hle h
        have hparse : RelayAddress.parse (entry.cidr.takeWhile (· != 47)) = some b := hb
        rw [prefix_bits_some hbits, hparse]
        refine ⟨_, rfl, ?_⟩
        rw [← Option.some.inj h]
        exact ⟨rfl, rfl, rfl, by dsimp only at hle ⊢; omega⟩

def strict : InetPton := ⟨Grant.address, Grant.address⟩

theorem connector_entry_strict (hnet : net.Strict) (cidr : Bool) (text : Bytes) :
    connector_entry net cidr text = connector_entry strict cidr text := by
  have haddr : ∀ t reduce, connector_address net t reduce = connector_address strict t reduce := by
    intro t reduce
    unfold connector_address
    by_cases hnum : numeric_host t = true
    · by_cases hcolon : 58 ∈ t
      · rw [hnet.inet6 t hnum hcolon]
        simp only [hcolon, not_true_eq_false, if_false]
        rfl
      · rw [hnet.inet4 t hnum hcolon]
        simp only [hcolon, not_false_eq_true, if_true]
        rfl
    · rw [if_pos hnum, if_pos hnum]
  unfold connector_entry connector_prefix
  simp only [haddr]

theorem deny_entries : ∀ text ∈ RelayAddress.deny_cidrs, (connector_entry strict true text).isOk = true := by
  decide +kernel

theorem deny_accepted (hnet : net.Strict) :
    ∃ denies, connector_prefixes net true CONNECTOR_DENY RelayAddress.deny_cidrs = .ok denies := by
  have hcount : ¬RelayAddress.deny_cidrs.length > CONNECTOR_DENY := by decide
  unfold connector_prefixes
  rw [if_neg hcount]
  apply connector_entries_of
  intro text htext
  rw [connector_entry_strict hnet]
  have hok := deny_entries text htext
  cases hentry : connector_entry strict true text with
  | error e =>
    rw [hentry] at hok
    cases hok
  | ok p => exact ⟨p, rfl⟩

/-! ## The two judgements -/

theorem forall₂_mem_left {α β : Type} {R : α → β → Prop} {s : List α} {t : List β}
    (h : Forall₂ R s t) {a : α} (ha : a ∈ s) : ∃ b ∈ t, R a b := by
  induction h with
  | nil => exact absurd ha not_mem_nil
  | cons hab _ ih =>
    rcases mem_cons.mp ha with rfl | ha
    · exact ⟨_, mem_cons_self, hab⟩
    · obtain ⟨b, hb, hr⟩ := ih ha
      exact ⟨b, mem_cons_of_mem _ hb, hr⟩

theorem forall₂_mem_right {α β : Type} {R : α → β → Prop} {s : List α} {t : List β}
    (h : Forall₂ R s t) {b : β} (hb : b ∈ t) : ∃ a ∈ s, R a b :=
  forall₂_mem_left h.flip hb

theorem denied_iff (hnet : net.Strict) {denies : List Prefix}
    (h : connector_prefixes net true CONNECTOR_DENY RelayAddress.deny_cidrs = .ok denies)
    {address : Bytes} :
    denies.any (connector_within · address) = true ↔ ∃ p ∈ RelayAddress.PREFIXES, RelayAddress.Held address p := by
  have hentries : Forall₂ (fun text p => connector_prefix net text true = some p) RelayAddress.deny_cidrs denies := by
    unfold connector_prefixes at h
    split at h
    · cases h
    · exact connector_entries_ok h
  unfold RelayAddress.deny_cidrs at hentries
  rw [forall₂_map_left_iff] at hentries
  have hread := mapM_eq_some_iff.mp RelayAddress.prefixes_read
  rw [any_eq_true]
  constructor
  · rintro ⟨p, hp, hwithin⟩
    obtain ⟨entry, hentry, hprefix⟩ := forall₂_mem_right hentries hp
    obtain ⟨q, hq, hof⟩ := connector_prefix_deny hnet hprefix
    have hmem : some q ∈ RelayAddress.PREFIXES.map some := by
      rw [← hread, ← hq]
      exact mem_map_of_mem hentry
    obtain ⟨q', hq', heq⟩ := mem_map.mp hmem
    refine ⟨q, ?_, (connector_within_iff hof).mp hwithin⟩
    rwa [← Option.some.inj heq]
  · rintro ⟨q, hq, hheld⟩
    have hmem : some q ∈ RelayAddress.DENY.map RelayAddress.read_prefix := by
      rw [hread]
      exact mem_map_of_mem hq
    obtain ⟨entry, hentry, heq⟩ := mem_map.mp hmem
    obtain ⟨p, hp, hprefix⟩ := forall₂_mem_left hentries hentry
    obtain ⟨q', hq', hof⟩ := connector_prefix_deny hnet hprefix
    rw [heq] at hq'
    cases hq'
    exact ⟨p, hp, (connector_within_iff hof).mpr hheld⟩

theorem owned_iff (hnet : net.Strict) {texts own : List Bytes} {owns : List Prefix}
    (hown : RelayAddress.own_addresses texts = .ok own)
    (h : connector_prefixes net false CONNECTOR_OWN texts = .ok owns) {address : Bytes} :
    owns.any (connector_within · address) = true ↔ address ∈ own := by
  have hentries : Forall₂ (fun text p => connector_prefix net text false = some p) texts owns := by
    unfold connector_prefixes at h
    split at h
    · cases h
    · exact connector_entries_ok h
  -- an own address holds itself only, since all its bits are compared
  have hself : ∀ {p : Prefix} {b : Bytes}, p.Of b (8 * b.length) →
      (connector_within p address = true ↔ address = b) := by
    intro p b hof
    rw [connector_within_iff hof]
    constructor
    · rintro ⟨hlen, hbits⟩
      apply bits_inj
      rwa [take_of_length_le (by rw [bits_length, hlen]), take_of_length_le (by rw [bits_length])] at hbits
    · rintro rfl
      exact ⟨rfl, rfl⟩
  rw [any_eq_true, RelayAddress.own_addresses_mem hown]
  constructor
  · rintro ⟨p, hp, hwithin⟩
    obtain ⟨text, htext, hprefix⟩ := forall₂_mem_right hentries hp
    obtain ⟨b, hisown, hof⟩ := connector_address_own hnet hprefix
    rw [(hself hof).mp hwithin]
    exact ⟨text, htext, hisown⟩
  · rintro ⟨text, htext, hisown⟩
    obtain ⟨p, hp, hprefix⟩ := forall₂_mem_left hentries htext
    obtain ⟨b, hisown', hof⟩ := connector_address_own hnet hprefix
    have heq : address = b := by
      have h₁ := RelayAddress.own_address_iff.mpr hisown
      rw [RelayAddress.own_address_iff.mpr hisown'] at h₁
      exact (ok.inj h₁).symm
    exact ⟨p, hp, (hself hof).mpr heq⟩

theorem connector_public_allowed_iff (hnet : net.Strict) {texts own : List Bytes}
    {pub : Public} (hown : RelayAddress.own_addresses texts = .ok own)
    (hpub : connector_public_read net RelayAddress.deny_cidrs texts = .ok pub) {address : Bytes} :
    connector_public_allowed pub address = true ↔ RelayAddress.Public address (· ∈ own) := by
  unfold connector_public_read at hpub
  split at hpub
  · cases hpub
  next denies hdenies =>
  split at hpub
  · cases hpub
  next owns howns =>
  have hpub' : Public.mk denies owns = pub := ok.inj hpub
  have hdeny := @denied_iff _ hnet _ hdenies address
  have howned := @owned_iff _ hnet _ _ _ hown howns address
  have hglobal : address.length = 16 → (address.getD 0 0 &&& 0xe0 ≠ 0x20 ↔
      (bits address).take 3 ≠ [false, false, true]) := by
    intro hlen
    rw [← RelayAddress.first_bits hlen, getElem?_eq_getElem (by omega), getD_eq_getElem _ _ (by omega)]
    simp
  rw [← hpub']
  unfold connector_public_allowed
  constructor
  · intro h
    split at h
    · cases h
    next hroot =>
    split at h
    · cases h
    next hd =>
    split at h
    · cases h
    · next ho =>
      refine ⟨fun p hp hheld => hd (hdeny.mpr ⟨p, hp, hheld⟩), fun hmem => ho (howned.mpr hmem),
        fun hlen => ?_⟩
      by_contra hbits
      exact hroot ⟨hlen, (hglobal hlen).mpr hbits⟩
  · intro h
    rw [if_neg, if_neg, if_neg]
    · exact fun ho => h.not_own (howned.mp ho)
    · intro hd
      obtain ⟨p, hp, hheld⟩ := hdeny.mp hd
      exact h.not_refused p hp hheld
    · rintro ⟨hlen, hroot⟩
      exact (hglobal hlen).mp hroot (h.global hlen)

theorem spelling {address : Bytes} (h : address.length = 4 ∨ address.length = 16) :
    ∃ text, Grant.address text = some address := by
  rcases h with h | h
  · have hcolon : 58 ∉ Grant.dotted address := Grant.not_mem_dotted (by decide) (by decide)
    exact ⟨_, (Grant.address_of_no_colon hcolon).mpr ⟨h, rfl⟩⟩
  · exact ⟨_, Grant.address_ipv6_text ⟨address, h⟩⟩

/-- **The connector judges as the relay does.** For own addresses both accept, it reads the relay's
list of prefixes, and allows an address exactly where the relay's check, under a policy without a
literal grant, refuses no spelling of it. -/
theorem connector_judges {net : InetPton} (hnet : net.Strict) {texts own : List Bytes}
    {owns : List Prefix} (hown : RelayAddress.own_addresses texts = .ok own)
    (howns : connector_prefixes net false CONNECTOR_OWN texts = .ok owns) :
    ∃ pub, connector_public_read net RelayAddress.deny_cidrs texts = .ok pub ∧ pub.own = owns ∧
      ∀ address : Bytes, address.length = 4 ∨ address.length = 16 → ∀ (port : ℤ) (grants : List Bytes),
          (∀ grant ∈ grants, ∀ t, Grant.parse grant = .ok t → t.bytes = none) →
          (connector_public_allowed pub address = true ↔ ∀ text, Grant.address text = some address →
              ∃ reason, RelayAddress.check text port grants own = .ok (true, reason)) := by
  obtain ⟨denies, hdenies⟩ := deny_accepted hnet
  have hpub : connector_public_read net RelayAddress.deny_cidrs texts = .ok ⟨denies, owns⟩ := by
    unfold connector_public_read
    rw [hdenies]
    rw [howns]
  refine ⟨⟨denies, owns⟩, hpub, rfl, fun address hlen port grants hno => ?_⟩
  have hnames : ¬∃ grant ∈ grants, RelayAddress.Names grant address port := by
    rintro ⟨grant, hgrant, t, ht, hbytes, -⟩
    rw [hno grant hgrant t ht] at hbytes
    cases hbytes
  rw [connector_public_allowed_iff hnet hown hpub]
  constructor
  · intro hpublic text htext
    obtain ⟨ok, reason, hcheck, hok⟩ := RelayAddress.check_spec ⟨text, []⟩ port grants own
    rw [hok.mpr ⟨address, htext, .inr hpublic⟩] at hcheck
    exact ⟨reason, hcheck⟩
  intro h
  obtain ⟨text, htext⟩ := spelling hlen
  obtain ⟨reason, htrue⟩ := h text htext
  obtain ⟨ok, reason', hcheck, hok⟩ := RelayAddress.check_spec ⟨text, []⟩ port grants own
  have heq : (ok, reason') = (true, reason) := by
    have h' := hcheck.symm.trans htrue
    exact Except.ok.inj h'
  obtain ⟨b, hb, hwhy⟩ := hok.mp (Prod.mk.inj heq).1
  have hb' : b = address := by
    have h' := hb.symm.trans htext
    exact Option.some.inj h'
  rw [hb'] at hwhy
  exact hwhy.resolve_left hnames

/-- With an own address written as an IPv4-mapped one, and `inet_pton` the strict grammar itself. -/
theorem connector_judges_mapped : ∃ pub, connector_public_read ⟨Grant.address, Grant.address⟩ RelayAddress.deny_cidrs
        [lit "::ffff:9.9.9.9"] = .ok pub ∧
      pub.own = [⟨pad [9, 9, 9, 9], 4, 32⟩] ∧
      ∀ address : Bytes, address.length = 4 ∨ address.length = 16 → ∀ (port : ℤ) (grants : List Bytes),
          (∀ grant ∈ grants, ∀ t, Grant.parse grant = .ok t → t.bytes = none) →
          (connector_public_allowed pub address = true ↔ ∀ text, Grant.address text = some address →
              ∃ reason, RelayAddress.check text port grants [[9, 9, 9, 9]] = .ok (true, reason)) :=
  connector_judges ⟨fun _ _ _ => rfl, fun _ _ _ => rfl⟩
    (show RelayAddress.own_addresses [lit "::ffff:9.9.9.9"] = .ok [[9, 9, 9, 9]] by decide +kernel)
    (by decide +kernel)

end Cosmic.Connector
