/-
What `parse_tzif` accepts is a zone, as RFC 8536 lays one out.

`Tzif` says which zone a file is by the places its parts are at: its counts, its transitions, their
types, the abbreviations, the footer. Each stage of the reader is shown to read only bytes of the
file and to answer what the layout has at the place it reads.
-/
import Cosmic.Time.Tzif
import Cosmic.Time.ZoneAt

set_option autoImplicit false

namespace Cosmic.Time

open Cosmic.Base List Option Function
open Attempt

/-! ## The layout -/

/-- The header at `i` has the counts `c`. -/
structure HeaderAt (data : Bytes) (i : ℕ) (c : Counts) : Prop where
  inside : Within data i 44
  magic : sub data i (i + 3) = lit "TZif"
  isut : c.isut = nat_at data 4 (i + 20)
  isstd : c.isstd = nat_at data 4 (i + 24)
  leap : c.leap = nat_at data 4 (i + 28)
  time : c.time = nat_at data 4 (i + 32)
  type : c.type = nat_at data 4 (i + 36)
  char : c.char = nat_at data 4 (i + 40)

/-- Where a second header is, after a first with the counts `c` and the block of 32-bit numbers that
it is of. -/
def Counts.second (c : Counts) : ℕ := 45 + c.length 4 + c.leap * 8

/-- The data block that is read: of a version 1 file its only one, and of a later version its second. -/
inductive BlockOf (data : Bytes) : Block → Prop where
  | one {c : Counts} (header : HeaderAt data 1 c) (version : byte data 5 = some 0) :
      BlockOf data { version := 0, counts := c, at_ := 45, size := 4 }
  | later {c c' : Counts} {v : UInt8} (header : HeaderAt data 1 c) (version : byte data 5 = some v)
      (known : v = 0x32 ∨ v = 0x33 ∨ v = 0x34) (header' : HeaderAt data c.second c')
      (version' : byte data (c.second + 4) = some v) :
      BlockOf data { version := v.toNat, counts := c', at_ := c.second + 44, size := 8 }

namespace Block

variable (b : Block)

def indices_at : ℕ := b.at_ + b.counts.time * b.size

def types_at : ℕ := b.indices_at + b.counts.time

def names_at : ℕ := b.types_at + b.counts.type * 6

/-- Where the block ends. -/
def stop : ℕ := b.at_ + b.counts.length b.size

end Block

/-- The abbreviation at `name` is `a`: a NUL ends it, and both are among the abbreviations. -/
structure NameAt (data : Bytes) (names chars name : ℕ) (a : Bytes) : Prop where
  inside : name + a.length < chars
  bytes : sub data (names + name) (names + name + a.length) = a ++ [0]
  no_nul : 0 ∉ a
  short : a.length ≤ 255

/-- The local time type at `i` is `k`. -/
structure KindAt (data : Bytes) (names chars i : ℕ) (k : Kind) : Prop where
  offset : k.offset = int_at data 4 i
  range : k.InRange
  dst : byte data (i + 4) = some (if k.dst then 1 else 0)
  name : ∃ name, byte data (i + 5) = some name ∧ NameAt data names chars name.toNat k.abbreviation

/-- The footer at `i`, which ends the data. -/
def FooterAt (data : Bytes) (i : ℕ) (footer : Option Posix) : Prop :=
  ∃ tz, data.drop (i - 1) = 10 :: tz ++ [10] ∧ 10 ∉ tz ∧
    ((tz = [] ∧ footer = none) ∨ ∃ p, parse_posix tz = .ok p ∧ footer = some p)

/-- The data block `b` of `data`, and what comes after it, are the zone `rules`. -/
structure Tzif (data : Bytes) (b : Block) (rules : Rules) : Prop where
  block : BlockOf data b
  inside : Within data b.at_ (b.counts.length b.size)
  count : rules.transitions.length = b.counts.time
  transition : ∀ j t, rules.transitions[j]? = some t → t = int_at data b.size (b.at_ + j * b.size)
  ascending : rules.transitions.Pairwise (· < ·)
  each : rules.kinds.length = b.counts.time
  kind : ∀ j k, rules.kinds[j]? = some k → ∃ type, byte data (b.indices_at + j) = some type ∧
    type.toNat < b.counts.type ∧ KindAt data b.names_at b.counts.char (b.types_at + type.toNat * 6) k
  first : 0 < b.counts.type ∧ KindAt data b.names_at b.counts.char b.types_at rules.first
  after : if b.version = 0 then rules.footer = none ∧ b.stop = data.length + 1 else FooterAt data b.stop rules.footer

/-! ## Numbers -/

section

variable {data : Bytes} {i : ℕ}

theorem u32_safe (h : Within data i 4) : Safe (u32 data i) (fun n => n = nat_at data 4 i) := by
  refine safe_bind (byte_at_safe h le_rfl (by omega)) ?_
  rintro _ ⟨a, ha, rfl⟩
  refine safe_bind (byte_at_safe h (by omega) (by omega)) ?_
  rintro _ ⟨b, hb, rfl⟩
  refine safe_bind (byte_at_safe h (by omega) (by omega)) ?_
  rintro _ ⟨c, hc, rfl⟩
  refine safe_bind (byte_at_safe h (by omega) (by omega)) ?_
  rintro _ ⟨d, hd, rfl⟩
  refine safe_pure ?_
  rw [shifts_eq b.toNat_lt c.toNat_lt d.toNat_lt, nat_at_succ h.1 hd, nat_at_succ h.1 hc, nat_at_succ h.1 hb,
    nat_at_succ h.1 ha, nat_at_zero data h.1]
  ring

theorem i32_safe (h : Within data i 4) : Safe (i32 data i) (fun n => n = int_at data 4 i) := by
  refine safe_bind (u32_safe h) ?_
  rintro n rfl
  refine safe_pure ?_
  have hlt := nat_at_lt h
  unfold int_at
  rw [Int.bmod_def]
  norm_num at hlt ⊢
  split <;> split <;> omega

theorem i64_safe (h : Within data i 8) : Safe (i64 data i) (fun n => n = int_at data 8 i) := by
  refine safe_bind (u32_safe (h.of_le le_rfl (by omega))) ?_
  rintro _ rfl
  have hlow : Within data (i + 4) 4 := h.of_le (by omega) (by omega)
  refine safe_bind (u32_safe hlow) ?_
  rintro _ rfl
  refine safe_pure ?_
  have hlt := nat_at_lt hlow
  have heq : (nat_at data 4 i) <<< 32 ||| nat_at data 4 (i + 4) = nat_at data 8 i := by
    rw [← Nat.shiftLeft_add_eq_or_of_lt (by norm_num at hlt ⊢; exact hlt), Nat.shiftLeft_eq,
      show 8 = 4 + 4 from rfl, nat_at_add h.1 4 h.2]
    norm_num
    ring
  rw [heq]
  unfold int_at signed
  rw [Int.bmod_def]
  norm_num
  split <;> omega

/-! ## The header -/

theorem tzif_counts_safe (hi : 1 ≤ i) : Safe (tzif_counts data i) (HeaderAt data i) := by
  refine safe_refuse_bind fun hlen => ?_
  refine safe_refuse_bind fun hmagic => ?_
  have h : Within data i 44 := ⟨hi, by omega⟩
  refine safe_bind (u32_safe (h.of_le (by omega) (by omega))) fun isut hisut => ?_
  refine safe_bind (u32_safe (h.of_le (by omega) (by omega))) fun isstd hisstd => ?_
  refine safe_bind (u32_safe (h.of_le (by omega) (by omega))) fun leap hleap => ?_
  refine safe_bind (u32_safe (h.of_le (by omega) (by omega))) fun time htime => ?_
  refine safe_bind (u32_safe (h.of_le (by omega) (by omega))) fun type htype => ?_
  refine safe_bind (u32_safe (h.of_le (by omega) (by omega))) fun char hchar => ?_
  exact safe_pure ⟨h, not_not.mp hmagic, hisut, hisstd, hleap, htime, htype, hchar⟩

end

theorem find_block_safe (data : Bytes) : Safe (find_block data) (BlockOf data) := by
  refine safe_bind (tzif_counts_safe le_rfl) fun c header => ?_
  refine safe_bind (byte_at_safe header.inside (by omega) (by omega)) ?_
  rintro _ ⟨v, hv, rfl⟩
  refine safe_refuse_bind fun hversion => ?_
  split
  next hzero => 
    have hv₀ : v = 0 := UInt8.toNat_inj.mp hzero
    refine safe_pure ?_
    rw [hzero]
    exact BlockOf.one header (hv₀ ▸ hv)
  next hnonzero =>
    have hsecond : 45 + c.time * 5 + c.type * 6 + c.char + c.leap * 8 + c.isstd + c.isut = c.second := by
      unfold Counts.second Counts.length
      omega
    rw [hsecond]
    have hpos : 1 ≤ c.second := by
      omega
    refine safe_bind (safe_explain _ (tzif_counts_safe hpos)) fun c' header' => ?_
    refine safe_bind (byte_at_safe header'.inside (by omega) (by omega)) ?_
    rintro _ ⟨v', hv', rfl⟩
    refine safe_refuse_bind fun hsame => ?_
    have hvv : v' = v := UInt8.toNat_inj.mp (not_not.mp hsame)
    have hknown : v = 0x32 ∨ v = 0x33 ∨ v = 0x34 := by
      simp only [← UInt8.toNat_inj]
      have h₂ : (0x32 : UInt8).toNat = 50 := rfl
      have h₃ : (0x33 : UInt8).toNat = 51 := rfl
      have h₄ : (0x34 : UInt8).toNat = 52 := rfl
      omega
    exact safe_pure (BlockOf.later header hv hknown header' (hvv ▸ hv'))

theorem check_counts_safe (data : Bytes) (b : Block) :
    Safe (check_counts data b) (fun _ => 0 < b.counts.type ∧ b.at_ + b.counts.length b.size - 1 ≤ data.length) := by
  refine safe_refuse_bind fun htype => ?_
  refine safe_refuse_bind fun _ => ?_
  refine safe_refuse_bind fun _ => ?_
  refine safe_refuse_bind fun _ => ?_
  refine safe_refuse_bind fun _ => ?_
  exact safe_refuse.mono fun _ hlen => ⟨Nat.pos_of_ne_zero htype, Nat.not_lt.mp hlen⟩

/-! ## The data block -/

section

variable {data : Bytes}

/-- After `i` of the transitions at `start`. -/
structure Transitions.After (data : Bytes) (size start i : ℕ) (s : Transitions) : Prop where
  at_ : s.at_ = start + i * size
  length : s.transitions.length = i
  each : ∀ j t, s.transitions[j]? = some t → t = int_at data size (start + j * size)
  ascending : s.transitions.Pairwise (· < ·)
  previous : ∀ t ∈ s.transitions, ∃ p ∈ s.previous, t ≤ p

theorem read_transition_safe {size start n i : ℕ} {s : Transitions} (hsize : size = 4 ∨ size = 8)
    (h : Within data start (n * size)) (hi : i < n) (hs : s.After data size start i) :
    Safe (read_transition data size (i + 1) s) (Transitions.After data size start (i + 1)) := by
  have hspan : (i + 1) * size ≤ n * size := Nat.mul_le_mul_right size hi
  have hnext : (i + 1) * size = i * size + size := Nat.succ_mul i size
  have hat := hs.at_
  have hin : Within data s.at_ size := h.of_le (by omega) (by omega)
  refine safe_bind (P := fun t => t = int_at data size s.at_) ?_ fun t ht => ?_
  · obtain rfl | rfl := hsize
    · exact i32_safe hin
    · exact i64_safe hin
  refine safe_refuse_bind fun hprevious => ?_
  have habove : ∀ t' ∈ s.transitions, t' < t := by
    intro t' ht'
    obtain ⟨p, hp, hle⟩ := hs.previous t' ht'
    have hlt : ¬t ≤ p := fun h => hprevious (by rw [mem_def.mp hp]; simpa using h)
    omega
  refine safe_pure ⟨by dsimp only; omega, ?_, ?_, ?_, ?_⟩
  · rw [length_append, hs.length, length_singleton]
  · intro j t' ht'
    rw [getElem?_append, hs.length] at ht'
    split at ht'
    · exact hs.each j t' ht'
    · rw [getElem?_singleton] at ht'
      split at ht'
      · obtain rfl : j = i := by omega
        rw [← some.inj ht', ht, hat]
      · cases ht'
  · refine pairwise_append.mpr ⟨hs.ascending, pairwise_singleton _ _, fun t' ht' u hu => ?_⟩
    rw [mem_singleton.mp hu]
    exact habove t' ht'
  · intro t' ht'
    refine ⟨t, rfl, ?_⟩
    rcases mem_append.mp ht' with ht' | ht'
    · exact (habove t' ht').le
    · exact (mem_singleton.mp ht').le

/-- After `i` of the indices at `start`. -/
structure Indices.After (data : Bytes) (types start i : ℕ) (s : Indices) : Prop where
  at_ : s.at_ = start + i
  length : s.indices.length = i
  each : ∀ j x, s.indices[j]? = some x → ∃ type, byte data (start + j) = some type ∧ type.toNat < types ∧ x = type.toNat + 1

theorem read_index_safe {types start n i : ℕ} {s : Indices} (h : Within data start n) (hi : i < n)
    (hs : s.After data types start i) :
    Safe (read_index data types (i + 1) s) (Indices.After data types start (i + 1)) := by
  have hat := hs.at_
  refine safe_bind (byte_at_safe h (by omega) (by omega)) ?_
  rintro _ ⟨b, hb, rfl⟩
  refine safe_refuse_bind fun hlt => ?_
  refine safe_pure ⟨by dsimp only; omega, ?_, ?_⟩
  · rw [length_append, hs.length, length_singleton]
  intro j x hx
  rw [getElem?_append, hs.length] at hx
  split at hx
  · exact hs.each j x hx
  · rw [getElem?_singleton] at hx
    split at hx
    · obtain rfl : j = i := by omega
      exact ⟨b, hat ▸ hb, by omega, (some.inj hx).symm⟩
    · cases hx

/-- The first NUL at or after `k` of the abbreviations is at `nul`. -/
structure NulAt (data : Bytes) (names window k nul : ℕ) : Prop where
  le : k ≤ nul
  lt : nul < window
  zero : byte data (names + nul) = some 0
  first : ∀ m, k ≤ m → m < nul → byte data (names + m) ≠ some 0

/-- After `i` of the places, the last ones. -/
structure Nuls.After (data : Bytes) (names window i : ℕ) (s : Nuls) : Prop where
  next : ∀ n, s.next_nul = some n → NulAt data names window (window - i) n
  each : ∀ k n, s.nul_after k = some n → NulAt data names window k n

theorem pass_nul_safe {names window i : ℕ} {s : Nuls} (h : Within data names window) (hi : i < window)
    (hs : s.After data names window i) :
    Safe (pass_nul data names window (i + 1) s) (Nuls.After data names window (i + 1)) := by
  refine safe_bind (byte_at_safe h (j := names + (window - (i + 1))) (by omega) (by omega)) ?_
  rintro _ ⟨b, hb, rfl⟩
  have hnext : ∀ n, (if b.toNat = 0 then some (window - (i + 1)) else s.next_nul) = some n →
      NulAt data names window (window - (i + 1)) n := by
    intro n hn
    split at hn
    next hzero =>
      cases hn
      have hb₀ : b = 0 := UInt8.toNat_inj.mp hzero
      exact ⟨le_rfl, by omega, hb₀ ▸ hb, fun m h₁ h₂ => absurd h₁ (Nat.not_le.mpr h₂)⟩
    next hnonzero =>
      obtain ⟨hle, hlt, hnul, hfirst⟩ := hs.next n hn
      refine ⟨by omega, hlt, hnul, fun m h₁ h₂ => ?_⟩
      by_cases hm : m = window - (i + 1)
      · rw [hm, hb]
        intro h
        rw [some.inj h] at hnonzero
        exact hnonzero rfl
      · exact hfirst m (by omega) h₂
  generalize (if b.toNat = 0 then some (window - (i + 1)) else s.next_nul) = next at hnext ⊢
  refine safe_pure ⟨hnext, fun k n hn => ?_⟩
  dsimp only at hn
  split at hn
  next =>
    by_cases hk : k = window - (i + 1)
    · rw [hk, update_self] at hn
      rw [hk]
      exact hnext n hn
    · rw [update_of_ne hk] at hn
      exact hs.each k n hn
  next => exact hs.each k n hn

theorem NulAt.name {names chars window name nul : ℕ} (h : NulAt data names window name nul) (hin : Within data names chars)
    (hwindow : window ≤ chars) (hshort : nul - name ≤ 255) :
    NameAt data names chars name (sub data (names + name) (names + nul - 1)) := by
  have hle := h.le
  have hlt := h.lt
  have hpos := hin.1
  have hstop := hin.2
  have hlen : (sub data (names + name) (names + nul - 1)).length = nul - name := by
    rw [sub_length (by omega) (by omega) (by omega)]
    omega
  refine ⟨by rw [hlen]; omega, ?_, fun hmem => ?_, by rw [hlen]; exact hshort⟩
  · rw [hlen, show names + name + (nul - name) = names + nul by omega, sub_succ (by omega) (by omega) h.zero]
  · obtain ⟨j, hj₁, hj₂, hj⟩ := mem_sub (by omega) hmem
    obtain ⟨m, rfl⟩ := Nat.exists_eq_add_of_le ((Nat.le_add_right _ _).trans hj₁)
    exact h.first m (by omega) (by omega) hj

/-- After `i` of the local time types at `start`. -/
structure Kinds.After (data : Bytes) (names chars start i : ℕ) (s : Kinds) : Prop where
  at_ : s.at_ = start + i * 6
  length : s.kinds.length = i
  each : ∀ j k, s.kinds[j]? = some k → KindAt data names chars (start + j * 6) k
  abbreviations : ∀ name a, s.abbreviations name = some a → NameAt data names chars name a

theorem read_abbreviation_safe {names chars window i name : ℕ} {nul_after : ℕ → Option ℕ} {abbreviations : ℕ → Option Bytes}
    (hin : Within data names chars) (hwindow : window ≤ chars)
    (hnul : ∀ k n, nul_after k = some n → NulAt data names window k n)
    (habb : ∀ name a, abbreviations name = some a → NameAt data names chars name a) :
    Safe (read_abbreviation data names nul_after i name abbreviations)
      (fun r => NameAt data names chars name r.1 ∧ ∀ name a, r.2 name = some a → NameAt data names chars name a) := by
  unfold read_abbreviation
  cases ha : abbreviations name with
  | some a => exact ⟨habb name a ha, habb⟩
  | none =>
    cases hn : nul_after name with
    | none => trivial
    | some nul =>
      dsimp only
      split
      next => trivial
      next hshort =>
        have hname := (hnul name nul hn).name hin hwindow (Nat.not_lt.mp hshort)
        refine safe_ok ⟨hname, fun name' a ha' => ?_⟩
        dsimp only at ha'
        by_cases hsame : name' = name
        · rw [hsame, update_self] at ha'
          rwa [hsame, ← some.inj ha']
        · rw [update_of_ne hsame] at ha'
          exact habb name' a ha'

theorem read_kind_safe {names chars window start n i : ℕ} {nul_after : ℕ → Option ℕ} {s : Kinds}
    (hin : Within data names chars) (hwindow : window ≤ chars)
    (hnul : ∀ k n, nul_after k = some n → NulAt data names window k n) (h : Within data start (n * 6)) (hi : i < n)
    (hs : s.After data names chars start i) :
    Safe (read_kind data names chars nul_after (i + 1) s) (Kinds.After data names chars start (i + 1)) := by
  have hat := hs.at_
  have h₆ : Within data s.at_ 6 := h.of_le (by omega) (by omega)
  refine safe_bind (i32_safe (h₆.of_le le_rfl (by omega))) fun offset hoffset => ?_
  refine safe_bind (byte_at_safe h₆ (by omega) (by omega)) ?_
  rintro _ ⟨dst, hdst, rfl⟩
  refine safe_bind (byte_at_safe h₆ (by omega) (by omega)) ?_
  rintro _ ⟨name, hname, rfl⟩
  refine safe_refuse_bind fun hrange => ?_
  refine safe_refuse_bind fun hflag => ?_
  refine safe_refuse_bind fun _ => ?_
  refine safe_bind (read_abbreviation_safe hin hwindow hnul hs.abbreviations) ?_
  rintro ⟨a, abbreviations⟩ ⟨ha, habb⟩
  refine safe_pure ⟨by dsimp only; omega, ?_, fun j k hk => ?_, habb⟩
  · rw [length_append, hs.length, length_singleton]
  rw [getElem?_append, hs.length] at hk
  split at hk
  · exact hs.each j k hk
  rw [getElem?_singleton] at hk
  split at hk
  · obtain rfl : j = i := by omega
    rw [← some.inj hk, ← hat]
    refine ⟨hoffset, ⟨by dsimp only; omega, by dsimp only; omega⟩, ?_, name, hname, ha⟩
    rw [hdst]
    have hdst' : dst.toNat = 0 ∨ dst.toNat = 1 := by omega
    rcases hdst' with h | h
    · rw [show dst = 0 from UInt8.toNat_inj.mp h]
      rfl
    · rw [show dst = 1 from UInt8.toNat_inj.mp h]
      rfl
  · cases hk

theorem read_indicator_safe {start n i at_ : ℕ} (h : Within data start n) (hi : i < n) (hat : at_ = start + i) :
    Safe (read_indicator data (i + 1) at_) (fun at_ => at_ = start + (i + 1)) := by
  refine safe_bind (byte_at_safe h (by omega) (by omega)) fun b _ => ?_
  refine safe_refuse_bind fun _ => ?_
  exact safe_pure (by omega)

/-! ## The footer -/

theorem read_footer_safe {i : ℕ} (hi : 1 ≤ i) :
    Safe (read_footer data i) (fun r => data.length < r.2 → FooterAt data i r.1) := by
  refine safe_refuse_bind fun hopen => ?_
  cases hfind : find (· == 10) data (i + 1) with
  | none => trivial
  | some close =>
    obtain ⟨hle, ⟨b, hb, hten⟩, hbefore⟩ := find_some (by omega) hfind
    rw [show b = 10 by simpa using hten] at hb
    have hclose := (byte_some_le hb).2
    have hfirst : byte data i = some 10 := by
      have hmem : (10 : UInt8) ∈ sub data i i := by
        rw [not_not.mp hopen]
        exact mem_singleton_self _
      obtain ⟨k, h₁, h₂, hk⟩ := mem_sub hi hmem
      rwa [le_antisymm h₁ h₂]
    have hlayout : data.length < close + 1 → data.drop (i - 1) = 10 :: sub data (i + 1) (close - 1) ++ [10] := by
      intro hend
      have hlast : close = data.length := by omega
      have hsub : data.drop (i - 1) = sub data i close := by
        rw [hlast]
        unfold sub
        rw [take_length]
      rw [hsub, sub_cons hi (by omega) hfirst, sub_succ (by omega) hle hb]
      rfl
    have hinner : 10 ∉ sub data (i + 1) (close - 1) := by
      intro hmem
      obtain ⟨k, h₁, h₂, hk⟩ := mem_sub (by omega) hmem
      exact absurd (hbefore k 10 h₁ (by omega) hk) (by decide)
    dsimp only
    split
    next hnil => exact safe_pure fun hend => ⟨_, hlayout hend, hinner, .inl ⟨hnil, rfl⟩⟩
    next =>
      cases hposix : parse_posix (sub data (i + 1) (close - 1)) with
      | error why => trivial
      | ok p => exact safe_pure fun hend => ⟨_, hlayout hend, hinner, .inr ⟨p, hposix, rfl⟩⟩

end

/-! ## The file -/

theorem BlockOf.size {data : Bytes} {b : Block} (h : BlockOf data b) : b.size = 4 ∨ b.size = 8 := by
  cases h with
  | one => exact .inl rfl
  | later => exact .inr rfl

theorem BlockOf.pos {data : Bytes} {b : Block} (h : BlockOf data b) : 1 ≤ b.at_ := by
  cases h with
  | one => exact Nat.succ_pos 44
  | later => exact Nat.le_add_left _ _

theorem parse_tzif_safe (data : Bytes) : Safe (parse_tzif data) (fun rules => ∃ b, Tzif data b rules) := by
  refine safe_bind (find_block_safe data) fun b hb => ?_
  refine safe_bind (check_counts_safe data b) fun _ ⟨htype, hlen⟩ => ?_
  have hpos := hb.pos
  have hin : Within data b.at_ (b.counts.length b.size) := ⟨hpos, by omega⟩
  have hlength : b.counts.length b.size = b.counts.time * b.size + b.counts.time + b.counts.type * 6 + b.counts.char +
      (b.counts.isstd + b.counts.isut) := by
    unfold Counts.length
    ring
  have hindices : b.indices_at = b.at_ + b.counts.time * b.size := rfl
  have htypes : b.types_at = b.indices_at + b.counts.time := rfl
  have hnames : b.names_at = b.types_at + b.counts.type * 6 := rfl
  refine safe_bind (safe_each (Transitions.After data b.size b.at_) b.counts.time (fun i s hi hs => ?_) ?_) fun t ht => ?_
  · exact read_transition_safe hb.size (hin.of_le le_rfl (by omega)) hi hs
  · exact ⟨by simp, rfl, by simp, List.Pairwise.nil, by simp⟩
  have hat : t.at_ = b.indices_at := ht.at_
  refine safe_bind (safe_each (Indices.After data b.counts.type b.indices_at) b.counts.time (fun i s hi hs => ?_) ?_)
    fun indices hind => ?_
  · exact read_index_safe (hin.of_le (by omega) (by omega)) hi hs
  · exact ⟨hat, rfl, by simp⟩
  have hat' : indices.at_ = b.types_at := hind.at_
  rw [hat', ← hnames]
  have hchars : Within data b.names_at b.counts.char := hin.of_le (by omega) (by omega)
  have hwindow : min b.counts.char 511 ≤ b.counts.char := min_le_left _ _
  refine safe_bind (safe_each (Nuls.After data b.names_at (min b.counts.char 511)) _ (fun i s hi hs => ?_) ?_)
    fun nuls hnuls => ?_
  · exact pass_nul_safe (hchars.of_le le_rfl (by omega)) hi hs
  · exact ⟨by simp, by simp⟩
  refine safe_bind (safe_each (Kinds.After data b.names_at b.counts.char b.types_at) b.counts.type (fun i s hi hs => ?_) ?_)
    fun kinds hkinds => ?_
  · exact read_kind_safe hchars hwindow hnuls.each (hin.of_le (by omega) (by omega)) hi hs
  · exact ⟨by simp, rfl, by simp, by simp⟩
  have hend : kinds.at_ + b.counts.char = b.names_at + b.counts.char := by rw [hkinds.at_, ← hnames]
  rw [hend]
  refine safe_bind (safe_each (fun i at_ => at_ = b.names_at + b.counts.char + i) (b.counts.isstd + b.counts.isut)
    (fun i s hi hs => ?_) rfl) fun at_ hat'' => ?_
  · exact read_indicator_safe (hin.of_le (by omega) (by omega)) hi hs
  have hstop : at_ = b.stop := by
    unfold Block.stop
    omega
  rw [hstop]
  refine safe_bind (P := fun k => kinds.kinds[0]? = some k) (safe_need ?_) fun first hfirst => ?_
  · exact ⟨_, getElem?_eq_getElem (hkinds.length ▸ htype), getElem?_eq_getElem (hkinds.length ▸ htype)⟩
  refine safe_bind (safe_collect (R := fun index k => kinds.kinds[index - 1]? = some k) fun index hindex => ?_)
    fun each_kind heach => ?_
  · obtain ⟨j, hj⟩ := mem_iff_getElem?.mp hindex
    obtain ⟨type, -, hlt, rfl⟩ := hind.each j index hj
    refine safe_need ⟨_, getElem?_eq_getElem ?_, getElem?_eq_getElem ?_⟩
    all_goals rwa [hkinds.length]
  refine safe_bind (P := fun r => data.length < r.2 →
    if b.version = 0 then r.1 = none ∧ b.stop = data.length + 1 else FooterAt data b.stop r.1) ?_ ?_
  · split
    · exact safe_ok fun hlast => ⟨rfl, by dsimp only at hlast; unfold Block.stop at hlast ⊢; omega⟩
    · exact read_footer_safe (hpos.trans (Nat.le_add_right _ _))
  rintro ⟨footer, last⟩ hfooter
  refine safe_refuse_bind fun hlast => ?_
  refine safe_pure ⟨b, hb, hin, ht.length, ht.each, ht.ascending, ?_, ?_, ⟨htype, ?_⟩, ?_⟩
  · exact heach.length_eq.symm.trans hind.length
  · intro j k hk
    obtain ⟨hj, rfl⟩ := List.getElem?_eq_some_iff.mp hk
    have hj' : j < indices.indices.length := heach.length_eq ▸ hj
    obtain ⟨type, hbyte, hlt, hindex⟩ := hind.each j _ (getElem?_eq_getElem hj')
    refine ⟨type, hbyte, hlt, hkinds.each _ _ ?_⟩
    have hkind := heach.get hj' hj
    rwa [get_eq_getElem, get_eq_getElem, hindex, Nat.add_sub_cancel] at hkind
  · exact hkinds.each 0 first hfirst
  · exact hfooter (Nat.not_le.mp hlast)

end Cosmic.Time

/-!
A zone that was read says what RFC 8536 and POSIX define.

What a file lays out is a valid zone: the reader has checked its transitions, its types and its
abbreviations, and its TZ string is one that `parse_posix` accepted.
-/

namespace Cosmic.Time

open Cosmic.Base

theorem Tzif.valid {data : Bytes} {b : Block} {rules : Rules} (h : Tzif data b rules) : rules.Valid where
  ascending := h.ascending
  each := h.each.trans h.count.symm
  kinds k hk := by
    obtain ⟨j, hj⟩ := List.mem_iff_getElem?.mp hk
    obtain ⟨type, -, -, hkind⟩ := h.kind j k hj
    exact hkind.range
  first := h.first.2.range
  footer p hp := by
    have hafter := h.after
    split at hafter
    · rw [hafter.1] at hp
      cases hp
    obtain ⟨tz, -, -, ⟨-, hnone⟩ | ⟨p', hparse, hsome⟩⟩ := hafter
    · rw [hnone] at hp
      cases hp
    · rw [hsome] at hp
      cases hp
      exact parse_posix_valid hparse

def IsSecond (s : ℤ) : Prop := MIN_S ≤ s ∧ s ≤ MAX_S

theorem IsSecond.le {s : ℤ} (h : IsSecond s) : -2 ^ 62 ≤ s := by
  have hmin := h.1
  unfold MIN_S NS at hmin
  omega

/-- `parse_tzif` ends on every byte string without a read outside it, and accepts only what is laid
out as RFC 8536 has it; of every moment a zone it accepts says what RFC 8536 defines, and a TZ string
that `parse_posix` accepts what POSIX does. -/
theorem zone_says : (∀ data, parse_tzif data ≠ .raised ∧ ∀ rules, parse_tzif data = .ok rules →
      (∃ b, Tzif data b rules) ∧ ∀ s, IsSecond s → rules.Says s (kind_at rules s)) ∧
    ∀ tz p, parse_posix tz = .ok p → p.Valid ∧ ∀ s, IsSecond s → p.Says s (posix_kind p s) := by
  refine ⟨fun data => ⟨(parse_tzif_safe data).not_raised, fun rules hok => ?_⟩, fun tz p hok => ?_⟩
  · obtain ⟨b, htzif⟩ := (parse_tzif_safe data).answer hok
    exact ⟨⟨b, htzif⟩, fun s hs => kind_at_says htzif.valid hs.le⟩
  · have hvalid := parse_posix_valid hok
    exact ⟨hvalid, fun s hs => posix_kind_says hvalid hs.le⟩

/-- A version 2 file: one local time type, and a TZ string for the moments after its one transition. -/
def one_transition : Bytes :=
  let header (version times types chars : UInt8) : Bytes :=
    lit "TZif" ++ version :: List.replicate 15 0 ++ List.replicate 12 0 ++
      [0, 0, 0, times, 0, 0, 0, types, 0, 0, 0, chars]
  header 50 0 1 1 ++ [0, 0, 0, 0, 0, 0, 0] ++ header 50 1 1 4 ++ [255, 255, 255, 255, 255, 255, 255, 255, 0] ++
    [0, 0, 14, 16, 0, 0] ++ lit "CET" ++ [0] ++ lit "\nCET-1CEST,M3.5.0,M10.5.0/3\n"

def cet : Kind := { offset := 3600, abbreviation := lit "CET", dst := false }

def cet_posix : Posix where
  std := cet
  dst := some {
    kind := { offset := 7200, abbreviation := lit "CEST", dst := true }
    start := { form := .M 3 5 0, time := 7200 }
    finish := { form := .M 10 5 0, time := 10800 } }

def cet_rules : Rules where
  transitions := [-1]
  kinds := [cet]
  first := cet
  footer := some cet_posix

theorem zone_says_cet :
    cet_rules.Says 1000 (kind_at cet_rules 1000) ∧ cet_posix.Says (-1000) (posix_kind cet_posix (-1000)) := by
  have hrules : parse_tzif one_transition = .ok cet_rules := by decide +kernel
  have hposix : parse_posix (lit "CET-1CEST,M3.5.0,M10.5.0/3") = .ok cet_posix := by decide +kernel
  have hsecond : IsSecond 1000 ∧ IsSecond (-1000) := by
    unfold IsSecond MIN_S MAX_S NS
    omega
  exact ⟨(( zone_says.1 one_transition).2 cet_rules hrules).2 1000 hsecond.1,
    ( zone_says.2 _ cet_posix hposix).2 (-1000) hsecond.2⟩

end Cosmic.Time
