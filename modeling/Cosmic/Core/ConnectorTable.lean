/-
The connector's table of socket addresses: `connector_table` of `core/connector.c`, and the layout of
`sockaddr_in` and `sockaddr_in6` on Linux.

A table is memory: a range of slots an endpoint, each slot an address of the range's length, at
multiples of its stride. The family is two bytes of the machine's order, the port two of the network's.
-/
import Cosmic.Base.Memory
import Cosmic.Core.ConnectorFilter
import Mathlib.Data.List.Forall2

set_option autoImplicit false

namespace Cosmic.Connector

open Cosmic.Base List

/-- A number of 16 bits, in network order. -/
def htons (n : ℕ) : Bytes := [UInt8.ofNat (n / 256), UInt8.ofNat n]

/-- `AF_INET`, a port, an IPv4 address and the padding. -/
def sockaddr_in (port : ℕ) (address : Bytes) : Bytes := [2, 0] ++ htons port ++ (address ++ List.replicate 8 0)

/-- `AF_INET6`, a port, the flow, an IPv6 address and the scope. -/
def sockaddr_in6 (port : ℕ) (address : Bytes) : Bytes :=
  [10, 0] ++ htons port ++ (List.replicate 4 0 ++ address ++ List.replicate 4 0)

/-- The socket address of `address`, of 4 or 16 bytes, and a port. -/
def sockaddr (address : Bytes) (port : ℕ) : Bytes :=
  if address.length = 4 then sockaddr_in port address else sockaddr_in6 port address

/-- An endpoint that the connector is given: an address and its port, 0 for every port. -/
structure Endpoint where
  address : Bytes
  port : ℕ
  address_length : address.length = 4 ∨ address.length = 16
  port_le : port ≤ 65535

namespace Endpoint

def slots (e : Endpoint) : UInt32 := if e.port = 0 then 65535 else 1

def length (e : Endpoint) : UInt32 := if e.address.length = 4 then 16 else 28

def stride (e : Endpoint) : ℕ := (connector_stride e.length).toNat

/-- The port of slot `j`. -/
def slot_port (e : Endpoint) (j : ℕ) : ℕ := if e.port = 0 then j + 1 else e.port

end Endpoint

/-- A range holds an endpoint's addresses, between `low` and `high`: in each slot that of the slot's
port. -/
structure Range.Serves (low high : ℕ) (m : Memory) (r : Range) (e : Endpoint) : Prop where
  slots : r.slots = e.slots
  length : r.length = e.length
  low_le : low ≤ r.base.toNat
  le_high : r.base.toNat + r.slots.toNat * e.stride ≤ high
  held : ∀ j < r.slots.toNat, m.load (r.base.toNat + j * e.stride) r.length.toNat = sockaddr e.address (e.slot_port j)

namespace Endpoint

variable (e : Endpoint)

theorem stride_cases : e.length.toNat ≤ e.stride ∧ (e.stride = 16 ∨ e.stride = 32) := by
  unfold stride length
  split
  · exact ⟨by decide, .inl rfl⟩
  · exact ⟨by decide, .inr rfl⟩

theorem sockaddr_split : ∃ family rest : Bytes, family.length = 2 ∧
    ∀ port, sockaddr e.address port = family ++ htons port ++ rest := by
  unfold sockaddr
  by_cases h : e.address.length = 4
  · exact ⟨[2, 0], _, rfl, fun port => by rw [if_pos h]; rfl⟩
  · exact ⟨[10, 0], _, rfl, fun port => by rw [if_neg h]; rfl⟩

end Endpoint

variable {e : Endpoint} {m : Memory} {base : ℕ}

theorem slots_cases (e : Endpoint) : e.port = 0 ∧ e.slots = 65535 ∨ e.port ≠ 0 ∧ e.slots = 1 := by
  by_cases h : e.port = 0
  · exact .inl ⟨h, if_pos h⟩
  · exact .inr ⟨h, if_neg h⟩

theorem Range.Serves.mono {low low' high : ℕ} {m m' : Memory} {r : Range} {e : Endpoint}
    (h : r.Serves low high m e) (hlow : low' ≤ low) (hsame : ∀ q, low ≤ q → q < high → m' q = m q) :
    r.Serves low' high m' e := by
  have hle := h.low_le
  have hhigh := h.le_high
  obtain ⟨hlength, -⟩ := e.stride_cases
  refine ⟨h.slots, h.length, Nat.le_trans hlow h.low_le, h.le_high, fun j hj => ?_⟩
  rw [← h.held j hj]
  have hslot : (j + 1) * e.stride ≤ r.slots.toNat * e.stride := Nat.mul_le_mul_right _ hj
  rw [Nat.succ_mul] at hslot
  apply Memory.load_congr
  intro i hi
  rw [h.length] at hi
  exact hsame _ (by omega) (by omega)

end Cosmic.Connector
