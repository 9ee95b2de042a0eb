/-
The connector's serving loop: `connector_connect`, `connector_public_connect`, `connector_serve`,
`connector_settle` and `connector_loop` of `core/connector.c`.

What the kernel answers is a parameter: a `Wake` is one round of the loop, with the answers to each call
it makes. What the connector does is a list of events, in order; an exit is an error with the events
before it. A descriptor is C's `int`, the clock's milliseconds a whole number, -1 where it fails; the
array of connects in flight is a list whose length is `flying`.
-/
import Cosmic.Core.ConnectorPublic
import Cosmic.Core.ConnectorTable

set_option autoImplicit false

namespace Cosmic.Connector

open Cosmic.Base

def CONNECTOR_REQUEST_BYTES : ℕ := 36
def CONNECTOR_FLIGHT : ℕ := 64
def CONNECTOR_DENIED : ℕ := 0x10000
def CONNECTOR_BUSY : ℕ := 0x10001
def CONNECTOR_PUBLIC : UInt32 := 0xffffffff
def CONNECTOR_STRIDE : ℕ := 128
def CONNECTOR_SCRATCH : ℕ := 2

def EPERM : ℕ := 1
def EINTR : ℕ := 4
def EIO : ℕ := 5
def EINVAL : ℕ := 22
def ETIMEDOUT : ℕ := 110
def EINPROGRESS : ℕ := 115

structure Request where
  tag : UInt32
  index : UInt32
  port : UInt32
  wait : UInt32
  family : UInt32
  address : Bytes
  deriving DecidableEq, Repr

structure Flight where
  fd : ℤ
  tag : UInt32
  deadline : ℤ
  deriving DecidableEq, Repr

/-- What a connector is started with: the table's ranges, the scratch slots, what a public one refuses,
and the milliseconds a connect may take. -/
structure Plan where
  ranges : List Range
  scratch : ℕ
  pub : Option Public
  timeout : UInt32

/-- What the loop holds: the connects in flight, the bytes of the request read so far, and the memory
of the table and the scratch slots. -/
structure State where
  flight : List Flight
  held : Bytes
  memory : Memory

/-- A reply: its request's tag, an errno, and the descriptor passed with it, if any. -/
structure Reply where
  tag : UInt32
  failure : ℕ
  fd : Option ℤ
  deriving DecidableEq, Repr

/-- What the connector does that others see. -/
inductive Did where
  /-- It says the word that begins the protocol. -/
  | hello (word : ℕ)
  /-- It waits, the milliseconds given at most. -/
  | poll (left : Option ℤ)
  /-- It takes bytes of the stream. -/
  | read (bytes : Bytes)
  | socket (family : Bytes)
  /-- It connects to the address in memory, whose bytes the kernel copies. -/
  | connect (fd : ℤ) (pointer : ℕ) (address : Bytes)
  /-- It replies, and the stream takes all of it. -/
  | reply (reply : Reply)
  | close (fd : ℤ)
  deriving DecidableEq, Repr

/-- The kernel's answers as a connect is begun, and the clock after it: a descriptor or an errno, and an
errno, 0 for a connection made. -/
structure Dial where
  socket : Except ℕ ℤ
  connect : ℕ
  now : ℤ

inductive Poll where
  | interrupted
  | failed
  /-- What the stream is ready for: an error, or bytes or its end. -/
  | woke (broken readable : Bool)

inductive Read where
  | interrupted
  | failed
  | bytes (s : Bytes)

/-- One round of the loop, by what the kernel answers: which sockets are ready and what error each has,
the clock before and after the wait, the bytes read, and whether the stream takes each reply. -/
structure Wake where
  now : ℤ
  poll : Poll
  after : ℤ
  ready : ℤ → Bool
  so_error : ℤ → ℕ
  read : Read
  dial : Dial
  takes_settled : ℕ → Bool
  takes_served : Bool

/-- A descriptor waited on, and whether anything happened to it. -/
structure Waited where
  fd : ℤ
  revents : Bool

/-- What a connect that is begun comes to: the errno, with `EINPROGRESS` for one that goes on, and the
descriptor, -1 for none. -/
abbrev Begun : Type := (ℕ × ℤ) × List Did

/-! ## Serving a request -/

def connector_begin (m : Memory) (address : ℕ) (size : UInt32) (k : Dial) : Begun :=
  let made := Did.socket (m.load address 2)
  match k.socket with
  | .error failure => ((failure, -1), [made])
  | .ok fd =>
    let called := Did.connect fd address (m.load address size.toNat)
    if k.connect = 0 then ((0, fd), [made, called])
    else if k.connect = EINPROGRESS ∨ k.connect = EINTR then ((EINPROGRESS, fd), [made, called])
    else ((k.connect, -1), [made, called, .close fd])

/-- The number of 16 bits that two bytes hold, in network order. -/
def ntohs (s : Bytes) : ℕ := (s.getD 0 0).toNat * 256 + (s.getD 1 0).toNat

/-- A table request. `sin_port` and `sin6_port` are at one offset, so that the port held is read alike
for both families. -/
def connector_connect (plan : Plan) (m : Memory) (request : Request) (room : Bool) (k : Dial) : Begun :=
  if request.family ≠ 0 then ((EINVAL, -1), [])
  else if request.address.any (· ≠ 0) then ((EINVAL, -1), [])
  else if request.index < 1 ∨ request.index.toNat > plan.ranges.length ∨ request.port < 1 ∨
      request.port > 65535 then ((EPERM, -1), [])
  else
    match plan.ranges[request.index.toNat - 1]? with
    | none => ((EPERM, -1), [])
    | some range =>
      let address := (range.base + (if range.slots > 1 then
        (request.port - 1).toUInt64 * connector_stride range.length else 0)).toNat
      if ntohs (m.load (address + 2) 2) ≠ request.port.toNat then ((EPERM, -1), [])
      else if ¬room then ((CONNECTOR_BUSY, -1), [])
      else connector_begin m address range.length k

/-- The scratch slot for an address of `length` bytes, with the address and the port written to it. -/
def scratch_slot (plan : Plan) (m : Memory) (address : Bytes) (port : ℕ) : Memory × ℕ × UInt32 :=
  let slot := if address.length = 16 then plan.scratch + CONNECTOR_STRIDE else plan.scratch
  let m := m.store slot (List.replicate CONNECTOR_STRIDE 0)
  if address.length = 4 then
    let m := m.store slot [2, 0]
    let m := m.store (slot + 2) (htons port)
    (m.store (slot + 4) address, slot, 16)
  else
    let m := m.store slot [10, 0]
    let m := m.store (slot + 2) (htons port)
    (m.store (slot + 8) address, slot, 28)

def connector_public_connect (plan : Plan) (m : Memory) (request : Request) (room : Bool) (k : Dial) :
    Begun × Memory :=
  match plan.pub with
  | none => (((EPERM, -1), []), m)
  | some pub =>
    let length := if request.family = 4 then 4 else if request.family = 6 then 16 else 0
    if length = 0 ∨ request.port > 65535 then (((EINVAL, -1), []), m)
    else if (request.address.drop length).any (· ≠ 0) then (((EINVAL, -1), []), m)
    else if ¬connector_public_allowed pub (request.address.take length) then
      (((CONNECTOR_DENIED, -1), []), m)
    else if request.port = 0 then (((0, -1), []), m)
    else if ¬room then (((CONNECTOR_BUSY, -1), []), m)
    else
      let (m, slot, size) := scratch_slot plan m (request.address.take length) request.port.toNat
      (connector_begin m slot size k, m)

/-- A reply as it goes out: a descriptor is passed beside a success only. -/
def connector_reply (tag : UInt32) (failure : ℕ) (fd : ℤ) : Reply :=
  ⟨tag, failure, if failure ≠ 0 ∨ fd < 0 then none else some fd⟩

/-- The number that big-endian bytes hold. -/
def ntohl (s : Bytes) : UInt32 := UInt32.ofNat (s.foldl (fun n b => n * 256 + b.toNat) 0)

def connector_decode (bytes : Bytes) : Request :=
  let word := fun i => ntohl ((bytes.drop (4 * i)).take 4)
  { tag := word 0
    index := word 1
    port := word 2
    wait := word 3
    family := word 4
    address := (bytes.drop 20).take 16 }

def connector_answer (plan : Plan) (m : Memory) (request : Request) (room : Bool) (k : Dial) : Begun × Memory :=
  if request.index = CONNECTOR_PUBLIC then connector_public_connect plan m request room k
  else (connector_connect plan m request room k, m)

/-- Ends a request that is served with `failure` and the descriptor `fd`. -/
def connector_end (st : State) (w : Wake) (tag : UInt32) (failure : ℕ) (fd : ℤ) (did : List Did) :
    Except (List Did) (State × List Did) :=
  let closed := if fd ≥ 0 then [Did.close fd] else []
  if w.takes_served then .ok (st, did ++ .reply (connector_reply tag failure fd) :: closed)
  else .error (did ++ closed)

/-- Serves the request whose bytes are `bytes`. -/
def connector_serve (plan : Plan) (st : State) (bytes : Bytes) (w : Wake) : Except (List Did) (State × List Did) :=
  let request := connector_decode bytes
  let room := st.flight.length < CONNECTOR_FLIGHT
  let (((failure, fd), did), m) := connector_answer plan st.memory request room w.dial
  let st := { st with memory := m }
  if failure = EINPROGRESS then
    if w.dial.now ≥ 0 then
      let wait := if request.wait = 0 ∨ request.wait > plan.timeout then plan.timeout else request.wait
      .ok ({ st with flight := st.flight ++ [⟨fd, request.tag, w.dial.now + wait.toNat⟩] }, did)
    else connector_end st w request.tag EIO (-1) (did ++ [.close fd])
  else connector_end st w request.tag failure fd did

/-! ## The loop -/

/-- Ends the connect in flight at `at_`: the last takes its place. -/
def connector_settle (st : State) (at_ failure : ℕ) (taken : Bool) : Except (List Did) (State × List Did) :=
  match st.flight[at_]? with
  | none => .ok (st, [])
  | some flight =>
    let moved := (st.flight.set at_ (st.flight.getLastD flight)).dropLast
    let reply := connector_reply flight.tag failure (if failure ≠ 0 then -1 else flight.fd)
    if taken then .ok ({ st with flight := moved }, [.reply reply, .close flight.fd])
    else .error [.close flight.fd]

/-- What becomes of the connect in flight at `i`, by the poll array taken before. -/
def settle_round (w : Wake) (wait : List Waited) (st : State) (i : ℕ) : Except (List Did) (State × List Did) :=
  match wait[i]?, st.flight[i]? with
  | some waited, some flight =>
    if waited.revents then connector_settle st i (w.so_error flight.fd) (w.takes_settled i)
    else if w.after < 0 ∨ w.after ≥ flight.deadline then
      connector_settle st i (if w.after < 0 then EIO else ETIMEDOUT) (w.takes_settled i)
    else .ok (st, [])
  | _, _ => .ok (st, [])

/-- The downward loop over the connects in flight below `i`. -/
def settle_loop (w : Wake) (wait : List Waited) : ℕ → State → Except (List Did) (State × List Did)
  | 0, st => .ok (st, [])
  | i + 1, st =>
    match settle_round w wait st i with
    | .error did => .error did
    | .ok (st, did) =>
      match settle_loop w wait i st with
      | .error did' => .error (did ++ did')
      | .ok (st, did') => .ok (st, did ++ did')

/-- Takes what the stream has, at most the rest of one request, and serves that once it is whole. -/
def connector_take (plan : Plan) (st : State) (w : Wake) : Except (List Did) (State × List Did) :=
  match w.read with
  | .interrupted => .ok (st, [])
  | .failed => .error []
  | .bytes s =>
    let got := s.take (CONNECTOR_REQUEST_BYTES - st.held.length)
    if got = [] then .error []
    else if (st.held ++ got).length = CONNECTOR_REQUEST_BYTES then
      match connector_serve plan { st with held := [] } (st.held ++ got) w with
      | .error did => .error (.read got :: did)
      | .ok (st, did) => .ok (st, .read got :: did)
    else .ok ({ st with held := st.held ++ got }, [.read got])

/-- The earliest deadline of the connects in flight, -1 for none. -/
def nearest (flight : List Flight) : ℤ :=
  flight.foldl (fun nearest f => if nearest < 0 ∨ f.deadline < nearest then f.deadline else nearest) (-1)

/-- The milliseconds to wait at most: for ever where nothing is in flight. -/
def wait_left (flight : List Flight) (now : ℤ) : Option ℤ :=
  if nearest flight < 0 then none
  else if 0 ≤ now ∧ now < nearest flight then some (nearest flight - now)
  else some 0

/-- One round of the loop. -/
def connector_wake (plan : Plan) (st : State) (w : Wake) : Except (List Did) (State × List Did) :=
  let wait := st.flight.map fun f => (⟨f.fd, w.ready f.fd⟩ : Waited)
  let polled := Did.poll (wait_left st.flight w.now)
  match w.poll with
  | .interrupted => .ok (st, [polled])
  | .failed => .error [polled]
  | .woke broken readable =>
    if broken then .error [polled]
    else
      match settle_loop w wait st.flight.length st with
      | .error did => .error (polled :: did)
      | .ok (st, did) =>
        if ¬readable then .ok (st, polled :: did)
        else
          match connector_take plan st w with
          | .error did' => .error (polled :: (did ++ did'))
          | .ok (st, did') => .ok (st, polled :: (did ++ did'))

end Cosmic.Connector
