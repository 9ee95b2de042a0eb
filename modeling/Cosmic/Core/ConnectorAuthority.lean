/-
What the connector connects to.

A table request reaches a slot of its range by the port asked for, and a public one the scratch slot
just written, so that what the kernel is given is the address and the port asked for, and allowed.
-/
import Cosmic.Core.ConnectorLoop

set_option autoImplicit false

namespace Cosmic.Connector

open Cosmic.Base List

/-- An address that a request may be connected to, and the pointer to it: a slot of its range with the
port asked for, or an address that the public lists allow, as the request gives it. -/
inductive Authorised (plan : Plan) (endpoints : List Endpoint) (r : Request) : ℕ → Bytes → Prop
  | table {i j : ℕ} {range : Range} {e : Endpoint} (hindex : r.index.toNat = i + 1)
      (hrange : plan.ranges[i]? = some range) (hendpoint : endpoints[i]? = some e)
      (hslot : j < range.slots.toNat) (hport : e.slot_port j = r.port.toNat) :
      Authorised plan endpoints r (range.base.toNat + j * e.stride) (sockaddr e.address r.port.toNat)
  | scratch {pub : Public} {address : Bytes} (hindex : r.index = CONNECTOR_PUBLIC)
      (hpub : plan.pub = some pub)
      (hfamily : r.family = 4 ∧ address.length = 4 ∨ r.family = 6 ∧ address.length = 16)
      (haddress : r.address = address ++ List.replicate (16 - address.length) 0)
      (hallowed : connector_public_allowed pub address = true) (hport : r.port.toNat ≤ 65535) :
      Authorised plan endpoints r (if address.length = 16 then plan.scratch + CONNECTOR_STRIDE else plan.scratch)
        (sockaddr address r.port.toNat)

def reads (did : List Did) : Bytes :=
  did.flatMap fun d => match d with
    | .read s => s
    | _ => []

def replies (did : List Did) : List Reply :=
  did.filterMap fun d => match d with
    | .reply a => some a
    | _ => none

@[simp] theorem reads_append (did did' : List Did) : reads (did ++ did') = reads did ++ reads did' := flatMap_append

@[simp] theorem replies_append (did did' : List Did) :
    replies (did ++ did') = replies did ++ replies did' := filterMap_append

/-- Events of a connect that is begun: no byte is read and no reply given, and what is connected to is
as `P` has it. -/
structure Dials (P : ℕ → Bytes → Prop) (did : List Did) : Prop where
  reads : reads did = []
  replies : replies did = []
  connects : ∀ fd p a, Did.connect fd p a ∈ did → P p a

/-- What a request comes to: only `room` lets a connect go on, and a descriptor is that of a connect
made. -/
structure Comes (P : ℕ → Bytes → Prop) (room : Bool) (b : Begun) : Prop where
  dials : Dials P b.2
  room : b.1.1 = EINPROGRESS → room = true
  connected : 0 ≤ b.1.2 → ∃ p a, Did.connect b.1.2 p a ∈ b.2

variable {P : ℕ → Bytes → Prop}

theorem comes_refused {room : Bool} {failure : ℕ} (h : failure ≠ EINPROGRESS) :
    Comes P room ((failure, -1), []) :=
  ⟨⟨rfl, rfl, nofun⟩, fun heq => absurd heq h, nofun⟩

theorem comes_begin {m : Memory} {address : ℕ} {size : UInt32} (k : Dial)
    (h : P address (m.load address size.toNat)) : Comes P true (connector_begin m address size k) := by
  have hmem : ∀ {fd fd' : ℤ} {p : ℕ} {a : Bytes}, Did.connect fd' p a =
      .connect fd address (m.load address size.toNat) → P p a := by
    intro fd fd' p a heq
    obtain ⟨-, rfl, rfl⟩ := Did.connect.inj heq
    exact h
  unfold connector_begin
  cases k.socket with
  | error failure =>
    exact ⟨⟨rfl, rfl, by simp⟩, fun _ => rfl, by simp⟩
  | ok fd =>
    split_ifs
    · refine ⟨⟨rfl, rfl, fun fd' p a hin => ?_⟩, fun _ => rfl,
        fun _ => ⟨address, m.load address size.toNat, by simp⟩⟩
      simp only [mem_cons, not_mem_nil, or_false, reduceCtorEq, false_or] at hin
      exact hmem hin
    · refine ⟨⟨rfl, rfl, fun fd' p a hin => ?_⟩, fun _ => rfl,
        fun _ => ⟨address, m.load address size.toNat, by simp⟩⟩
      simp only [mem_cons, not_mem_nil, or_false, reduceCtorEq, false_or] at hin
      exact hmem hin
    · refine ⟨⟨rfl, rfl, fun fd' p a hin => ?_⟩, fun _ => rfl, by simp⟩
      simp only [mem_cons, not_mem_nil, or_false, reduceCtorEq, false_or] at hin
      exact hmem hin

/-! ## A table request -/

theorem ntohs_htons {port : ℕ} (h : port < 65536) : ntohs (htons port) = port := by
  have hhigh : (htons port).getD 0 0 = UInt8.ofNat (port / 256) := rfl
  have hlow : (htons port).getD 1 0 = UInt8.ofNat port := rfl
  rw [ntohs, hhigh, hlow, UInt8.toNat_ofNat', UInt8.toNat_ofNat']
  omega

theorem Range.Serves.port {low high : ℕ} {m : Memory} {r : Range} {e : Endpoint}
    (h : r.Serves low high m e) {j : ℕ} (hj : j < r.slots.toNat) (hlt : e.slot_port j < 65536) :
    ntohs (m.load (r.base.toNat + j * e.stride + 2) 2) = e.slot_port j := by
  obtain ⟨family, rest, hfamily, hsplit⟩ := e.sockaddr_split
  have hheld := h.held j hj
  have hlen := congrArg List.length hheld
  rw [hsplit] at hheld hlen
  have htwo : (htons (e.slot_port j)).length = 2 := rfl
  rw [Memory.load_length, length_append, length_append, hfamily, htwo] at hlen
  rw [hlen, Memory.load_add, Memory.load_add] at hheld
  have hfirst := (append_inj hheld (by simp [hfamily, htwo])).1
  rw [(append_inj hfirst (by simp [hfamily])).2, ntohs_htons hlt]

theorem table_pointer {low high : ℕ} {m : Memory} {range : Range} {e : Endpoint}
    (h : range.Serves low high m e) (hhigh : high ≤ 2 ^ 64) {port : UInt32} (h₁ : 1 ≤ port.toNat)
    (h₂ : port.toNat ≤ 65535) :
    ∃ j, j < range.slots.toNat ∧ (e.port = 0 → j + 1 = port.toNat) ∧
      (range.base + (if range.slots > 1 then (port - 1).toUInt64 * connector_stride range.length
        else 0)).toNat = range.base.toNat + j * e.stride := by
  have hle := h.le_high
  have hslots := h.slots
  have hlength := h.length
  have hstride : (connector_stride range.length).toNat = e.stride := by
    rw [hlength]
    rfl
  rcases slots_cases e with ⟨hport, hs⟩ | ⟨hport, hs⟩
  · rw [hs] at hslots
    have hcount : range.slots.toNat = 65535 := by
      rw [hslots]
      rfl
    refine ⟨port.toNat - 1, by omega, fun _ => by omega, ?_⟩
    have hpred : (port - 1).toUInt64.toNat = port.toNat - 1 := by
      have hone : (1 : UInt32) ≤ port := UInt32.le_iff_toNat_le.mpr h₁
      rw [UInt32.toNat_toUInt64, UInt32.toNat_sub_of_le _ _ hone]
      rfl
    have hmul : (port.toNat - 1) * e.stride + e.stride ≤ range.slots.toNat * e.stride := by
      rw [← Nat.succ_mul]
      exact Nat.mul_le_mul_right _ (by omega)
    have hpositive := e.stride_cases.2
    rw [hslots, if_pos (by decide), UInt64.toNat_add, UInt64.toNat_mul, hpred, hstride]
    rw [Nat.mod_eq_of_lt (show (port.toNat - 1) * e.stride < 2 ^ 64 by omega), Nat.mod_eq_of_lt (by omega)]
  · rw [hs] at hslots
    refine ⟨0, by rw [hslots]; decide, fun h => absurd h hport, ?_⟩
    rw [hslots, if_neg (by decide), Nat.zero_mul, UInt64.add_zero, Nat.add_zero]

variable {plan : Plan} {endpoints : List Endpoint} {low high : ℕ} {m : Memory} {r : Request} {room : Bool}

theorem comes_ite {p : Prop} [Decidable p] {b b' : Begun}
    (h : p → Comes P room b) (h' : ¬p → Comes P room b') : Comes P room (if p then b else b') := by
  by_cases hp : p
  · rw [if_pos hp]
    exact h hp
  · rw [if_neg hp]
    exact h' hp

theorem forall₂_getElem? {α β : Type} {R : α → β → Prop} {s : List α} {t : List β}
    (h : Forall₂ R s t) {i : ℕ} {a : α} (ha : s[i]? = some a) : ∃ b, t[i]? = some b ∧ R a b := by
  induction h generalizing i with
  | nil => cases ha
  | @cons a' b' s t hab hst ih =>
    cases i with
    | zero =>
      obtain rfl : a' = a := Option.some.inj ha
      exact ⟨b', rfl, hab⟩
    | succ i => exact ih ha

theorem connector_connect_comes
    (htable : Forall₂ (Range.Serves low high m) plan.ranges endpoints) (hhigh : high ≤ 2 ^ 64)
    (k : Dial) :
    Comes (Authorised plan endpoints r) room (connector_connect plan m r room k) := by
  refine comes_ite (fun _ => comes_refused (by decide)) fun _ => ?_
  refine comes_ite (fun _ => comes_refused (by decide)) fun _ => ?_
  refine comes_ite (fun _ => comes_refused (by decide)) fun hbounds => ?_
  cases hrange : plan.ranges[r.index.toNat - 1]? with
  | none => exact comes_refused (by decide)
  | some range =>
    refine comes_ite (fun _ => comes_refused (by decide)) fun hheld => ?_
    refine comes_ite (fun _ => comes_refused (by decide)) fun hroom => ?_
    rw [not_not.mp hroom]
    simp only [not_or, UInt32.lt_iff_toNat_lt, gt_iff_lt, not_lt] at hbounds
    obtain ⟨hindex, -, hport, hport'⟩ := hbounds
    -- the range serves the endpoint at its place, and the port it holds is the one asked for
    obtain ⟨e, hendpoint, hserves⟩ := forall₂_getElem? htable hrange
    obtain ⟨j, hj, hwild, hpointer⟩ := table_pointer hserves hhigh hport hport'
    have hslot : e.slot_port j < 65536 := by
      unfold Endpoint.slot_port
      split
      · next h => exact lt_of_eq_of_lt (hwild h) (Nat.lt_succ_of_le hport')
      · exact Nat.lt_succ_of_le e.port_le
    rw [hpointer, hserves.port hj hslot, not_not] at hheld
    rw [hpointer]
    apply comes_begin
    rw [hserves.held j hj, hheld]
    have hone : 1 ≤ r.index.toNat := hindex
    exact .table (by omega) hrange hendpoint hj hheld

/-! ## A public request -/

theorem load_zeros {n : ℕ} (h : n ≤ CONNECTOR_STRIDE) (slot : ℕ) :
    (m.store slot (List.replicate CONNECTOR_STRIDE 0)).load slot n = List.replicate n 0 := by
  rw [Memory.load_store_take (by rwa [length_replicate]), take_replicate, Nat.min_eq_left h]

theorem load_written (slot port : ℕ) (family : UInt8) (address : Bytes) (gap rest : ℕ)
    (h : 4 + gap + address.length + rest ≤ CONNECTOR_STRIDE) :
    ((((m.store slot (List.replicate CONNECTOR_STRIDE 0)).store slot [family, 0]).store (slot + 2)
      (htons port)).store (slot + 4 + gap) address).load slot (4 + gap + address.length + rest) =
        [family, 0] ++ htons port ++ List.replicate gap 0 ++ address ++ List.replicate rest 0 := by
  have hzeros := load_zeros (m := m) h slot
  have hsplit : List.replicate (4 + gap + address.length + rest) (0 : UInt8) =
      [] ++ [0, 0] ++ ([0, 0] ++ (List.replicate gap 0 ++ List.replicate address.length 0 ++
        List.replicate rest 0)) := by
    rw [replicate_append_replicate, replicate_append_replicate,
      show 4 + gap + address.length + rest = 2 + (2 + (gap + address.length + rest)) by omega]
    rw [← replicate_append_replicate, ← replicate_append_replicate]
    rfl
  rw [hsplit] at hzeros
  have hfamily := Memory.load_store_middle (q := slot) (s := [family, 0]) hzeros rfl rfl
  rw [nil_append, ← append_assoc] at hfamily
  have hport := Memory.load_store_middle (s := htons port) hfamily rfl rfl
  rw [← append_assoc, ← append_assoc] at hport
  apply Memory.load_store_middle hport
  · rw [length_replicate]
  · rw [length_append, length_replicate, ← Nat.add_assoc]
    rfl

variable (plan m) in
theorem scratch_slot_spec {address : Bytes} (h : address.length = 4 ∨ address.length = 16) (port : ℕ) :
    ∃ m' slot size, scratch_slot plan m address port = (m', slot, size) ∧
      m'.load slot size.toNat = sockaddr address port ∧
      slot = (if address.length = 16 then plan.scratch + CONNECTOR_STRIDE else plan.scratch) ∧
      ∀ q, q < plan.scratch ∨ plan.scratch + CONNECTOR_SCRATCH * CONNECTOR_STRIDE ≤ q → m' q = m q := by
  have hstride : CONNECTOR_STRIDE = 128 := rfl
  have hpage : CONNECTOR_SCRATCH * CONNECTOR_STRIDE = 256 := rfl
  have houtside : ∀ (m : Memory) (p : ℕ) (s : Bytes), plan.scratch ≤ p →
      p + s.length ≤ plan.scratch + CONNECTOR_SCRATCH * CONNECTOR_STRIDE →
        ∀ q, q < plan.scratch ∨ plan.scratch + CONNECTOR_SCRATCH * CONNECTOR_STRIDE ≤ q → m.store p s q = m q := by
    intro m p s hlow hhigh q hq
    obtain hq | hq := hq
    · exact Memory.store_of_lt (by omega)
    · exact Memory.store_of_ge (by omega)
  have htwo : (htons port).length = 2 := rfl
  have hzeros : (List.replicate CONNECTOR_STRIDE (0 : UInt8)).length = 128 := rfl
  unfold scratch_slot sockaddr
  rcases h with h | h
  · rw [if_neg (show ¬address.length = 16 by omega), if_pos h, if_pos h]
    refine ⟨_, _, _, rfl, ?_, rfl, fun q hq => ?_⟩
    · have hload := load_written (m := m) plan.scratch port 2 address 0 8 (by rw [h]; decide)
      rw [h] at hload
      rwa [sockaddr_in, ← append_assoc]
    rw [houtside _ _ _ (by omega) (by omega) q hq, houtside _ _ _ (by omega) (by omega) q hq,
      houtside _ _ _ (by omega) (by simp; omega) q hq, houtside _ _ _ (by omega) (by omega) q hq]
  · rw [if_pos h, if_neg (by omega), if_neg (show ¬address.length = 4 by omega)]
    refine ⟨_, _, _, rfl, ?_, rfl, fun q hq => ?_⟩
    · have hload := load_written (m := m) (plan.scratch + CONNECTOR_STRIDE) port 10 address 4 4 (by rw [h]; decide)
      rw [h] at hload
      rwa [sockaddr_in6, ← append_assoc, ← append_assoc]
    rw [houtside _ _ _ (by omega) (by omega) q hq, houtside _ _ _ (by omega) (by omega) q hq,
      houtside _ _ _ (by omega) (by simp; omega) q hq, houtside _ _ _ (by omega) (by omega) q hq]

theorem eq_zeros {s : Bytes} (h : ¬s.any (· ≠ 0) = true) : s = List.replicate s.length 0 := by
  apply eq_replicate_iff.mpr
  refine ⟨rfl, fun b hb => ?_⟩
  by_contra hne
  exact h (any_eq_true.mpr ⟨b, hb, by simpa using hne⟩)

/-- Outside the scratch page, memory is as it was. -/
def Keeps (plan : Plan) (m m' : Memory) : Prop :=
  ∀ q, q < plan.scratch ∨ plan.scratch + CONNECTOR_SCRATCH * CONNECTOR_STRIDE ≤ q → m' q = m q

theorem comes_keeps_ite {p : Prop} [Decidable p] {b b' : Begun × Memory}
    (h : p → Comes P room b.1 ∧ Keeps plan m b.2) (h' : ¬p → Comes P room b'.1 ∧ Keeps plan m b'.2) :
    Comes P room (if p then b else b').1 ∧ Keeps plan m (if p then b else b').2 := by
  by_cases hp : p
  · rw [if_pos hp]
    exact h hp
  · rw [if_neg hp]
    exact h' hp

theorem connector_public_comes (hindex : r.index = CONNECTOR_PUBLIC) (haddress : r.address.length = 16) (k : Dial) :
    Comes (Authorised plan endpoints r) room (connector_public_connect plan m r room k).1 ∧
      Keeps plan m (connector_public_connect plan m r room k).2 := by
  have hrefused : ∀ failure, failure ≠ EINPROGRESS →
      Comes (Authorised plan endpoints r) room ((failure, -1), []) ∧ Keeps plan m m :=
    fun failure h => ⟨comes_refused h, fun _ _ => rfl⟩
  unfold connector_public_connect
  cases hpub : plan.pub with
  | none => exact hrefused EPERM (by decide)
  | some pub =>
    refine comes_keeps_ite (fun _ => hrefused EINVAL (by decide)) fun hbounds => ?_
    refine comes_keeps_ite (fun _ => hrefused EINVAL (by decide)) fun hzeros => ?_
    refine comes_keeps_ite (fun _ => hrefused CONNECTOR_DENIED (by decide)) fun hallowed => ?_
    refine comes_keeps_ite (fun _ => hrefused 0 (by decide)) fun _ => ?_
    refine comes_keeps_ite (fun _ => hrefused CONNECTOR_BUSY (by decide)) fun hroom => ?_
    rw [not_not.mp hroom]
    obtain ⟨hlength, hport⟩ := not_or.mp hbounds
    have hle : r.port ≤ 65535 := UInt32.not_lt.mp hport
    -- the family says how much of the sixteen bytes is the address
    have hfamily : r.family = 4 ∧ (if r.family = 4 then 4 else if r.family = 6 then 16 else 0) = 4 ∨ r.family = 6 ∧
        (if r.family = 4 then 4 else if r.family = 6 then 16 else 0) = 16 := by
      by_cases h₄ : r.family = 4
      · exact .inl ⟨h₄, if_pos h₄⟩
      · rw [if_neg h₄] at hlength ⊢
        by_cases h₆ : r.family = 6
        · exact .inr ⟨h₆, if_pos h₆⟩
        · exact absurd (if_neg h₆) hlength
    generalize (if r.family = 4 then 4 else if r.family = 6 then 16 else 0) = width at *
    have htake : (r.address.take width).length = width := length_take_of_le (by omega)
    have hcases : (r.address.take width).length = 4 ∨ (r.address.take width).length = 16 := by omega
    obtain ⟨m', slot, size, hslot, hload, hpointer, hkeeps⟩ := scratch_slot_spec plan m hcases r.port.toNat
    rw [hslot]
    refine ⟨comes_begin k ?_, hkeeps⟩
    rw [hload, hpointer]
    refine .scratch hindex hpub ?_ ?_ (not_not.mp hallowed) (UInt32.le_iff_toNat_le.mp hle)
    · rwa [htake]
    · have hrest := eq_zeros hzeros
      rw [length_drop, haddress] at hrest
      rw [htake, ← hrest, take_append_drop]

variable (room) in
/-- What a request comes to, of either kind. -/
theorem connector_answer_comes
    (htable : Forall₂ (Range.Serves low high m) plan.ranges endpoints) (hhigh : high ≤ 2 ^ 64)
    (haddress : r.address.length = 16) (k : Dial) :
    Comes (Authorised plan endpoints r) room (connector_answer plan m r room k).1 ∧
      Keeps plan m (connector_answer plan m r room k).2 := by
  refine comes_keeps_ite (fun hindex => connector_public_comes hindex haddress k) fun _ => ?_
  exact ⟨connector_connect_comes htable hhigh k, fun _ _ => rfl⟩

end Cosmic.Connector
