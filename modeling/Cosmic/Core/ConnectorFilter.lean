/-
The connector's seccomp program: `connector_program` and what it emits through, in `core/connector.c`.

The program is built by appending instructions to a buffer of 4096 and filling in the jumps of the
dispatch afterwards, as the source does; `Code` is that buffer. `connector_program`'s body is cut into
one function a call. Descriptors are C's `int`, the
pointers of a range are 64 bits wide.
-/
import Cosmic.Base.Bpf

set_option autoImplicit false

namespace Cosmic.Connector

open Cosmic.Base.Bpf

def CONNECTOR_INSNS : ℕ := 4096
def CONNECTOR_ALLOW : UInt32 := 0x7fff0000
def CONNECTOR_KILL : UInt32 := 0x80000000
/-- `EPERM` is 1. -/
def CONNECTOR_REFUSE : UInt32 := 0x00050000 ||| 1
def CONNECTOR_STRIDE_V4 : UInt64 := 16
def CONNECTOR_STRIDE_V6 : UInt64 := 32

/-- The distance between a table's slots, by the size of the address: 28 is `sockaddr_in6`'s. -/
def connector_stride (length : UInt32) : UInt64 :=
  if length = 28 then CONNECTOR_STRIDE_V6 else CONNECTOR_STRIDE_V4

structure Range where
  base : UInt64
  slots : UInt32
  length : UInt32
  deriving DecidableEq, Repr

/-- The instructions emitted so far. `used` goes on counting where the buffer is full. -/
structure Code where
  insns : List Insn
  used : ℕ
  deriving DecidableEq, Repr

/-- The numbers of the system calls of an architecture. -/
structure Numbers where
  audit : UInt32
  read : UInt32
  write : UInt32
  close : UInt32
  poll : UInt32
  ppoll : UInt32
  clock : UInt32
  exit : UInt32
  exit_group : UInt32
  socket : UInt32
  connect : UInt32
  getsockopt : UInt32
  sendmsg : UInt32
  deriving DecidableEq, Repr

def UINT32_MAX : UInt32 := 0xffffffff

def connector_x86 : Numbers := ⟨0xc000003e, 0, 1, 3, 7, 271, 228, 60, 231, 41, 42, 55, 46⟩

def connector_arm : Numbers := ⟨0xc00000b7, 63, 64, 57, UINT32_MAX, 73, 113, 93, 94, 198, 203, 209, 211⟩

/-! ## Emitting -/

def connector_emit (op : UInt16) (jt jf : UInt8) (k : UInt32) : StateM Code Unit :=
  modify fun code =>
    ⟨if code.used < CONNECTOR_INSNS then code.insns ++ [⟨op, jt, jf, k⟩] else code.insns, code.used + 1⟩

def connector_load (argument : UInt32) (high : Bool) : StateM Code Unit :=
  connector_emit 0x20 0 0 (16 + 8 * argument + (if high then 4 else 0))

def connector_equal (argument value : UInt32) : StateM Code Unit := do
  connector_load argument true
  connector_emit 0x15 1 0 0
  connector_emit 0x06 0 0 CONNECTOR_REFUSE
  connector_load argument false
  connector_emit 0x15 1 0 value
  connector_emit 0x06 0 0 CONNECTOR_REFUSE

def connector_return (value : UInt32) : StateM Code Unit := connector_emit 0x06 0 0 value

/-- A dispatch to a place that is not emitted yet: the position of its jump. -/
def connector_dispatch (number : UInt32) : StateM Code ℕ := do
  connector_emit 0x15 0 1 number
  let jump := (← get).used
  connector_emit 0x05 0 0 0
  return jump

/-- Has the jump at `jump` go to the next instruction emitted. -/
def connector_target (jump : ℕ) : StateM Code Unit :=
  modify fun code =>
    { code with
      insns := code.insns.modify jump fun i => { i with k := UInt32.ofNat (code.used - jump - 1) } }

def connector_fd (fd : Int32) : StateM Code Unit := do
  connector_equal 0 fd.toUInt32
  connector_return CONNECTOR_ALLOW

/-- One call that is allowed whatever its arguments, unless the architecture has none. -/
def connector_simple (number : UInt32) : StateM Code Unit :=
  if number = UINT32_MAX then pure ()
  else do
    connector_emit 0x15 0 1 number
    connector_return CONNECTOR_ALLOW

/-- The test of one range. Every failed condition jumps to the next range. -/
def connector_range (r : Range) : StateM Code Unit := do
  let stride := connector_stride r.length
  let stop := r.base + r.slots.toUInt64 * stride
  connector_load 1 true
  connector_emit 0x15 0 10 (r.base >>> 32).toUInt32
  connector_load 1 false
  connector_emit 0x35 0 8 r.base.toUInt32
  connector_emit 0x35 7 0 stop.toUInt32
  connector_emit 0x54 0 0 (stride - 1).toUInt32
  connector_emit 0x15 0 5 0
  connector_load 2 true
  connector_emit 0x15 0 3 0
  connector_load 2 false
  connector_emit 0x15 0 1 r.length
  connector_return CONNECTOR_ALLOW

/-- `write`: to control or status. -/
def connector_writing (control status : Int32) : StateM Code Unit := do
  connector_load 0 true
  connector_emit 0x15 1 0 0
  connector_return CONNECTOR_REFUSE
  connector_load 0 false
  connector_emit 0x15 2 0 control.toUInt32
  connector_emit 0x15 1 0 status.toUInt32
  connector_return CONNECTOR_REFUSE
  connector_return CONNECTOR_ALLOW

/-- `close`: of any descriptor but control. -/
def connector_closing (control : Int32) : StateM Code Unit := do
  connector_load 0 false
  connector_emit 0x15 0 1 control.toUInt32
  connector_return CONNECTOR_KILL
  connector_return CONNECTOR_ALLOW

/-- `socket`: nonblocking close-on-exec TCP. -/
def connector_creating : StateM Code Unit := do
  connector_load 0 true
  connector_emit 0x15 1 0 0
  connector_return CONNECTOR_REFUSE
  connector_load 0 false
  connector_emit 0x15 2 0 2 -- AF_INET
  connector_emit 0x15 1 0 10 -- AF_INET6
  connector_return CONNECTOR_REFUSE
  connector_equal 1 (1 ||| 0x800 ||| 0x80000) -- STREAM, NONBLOCK, CLOEXEC
  connector_equal 2 6 -- IPPROTO_TCP
  connector_return CONNECTOR_ALLOW

/-- `getsockopt`: of the pending error. -/
def connector_checking : StateM Code Unit := do
  connector_equal 1 1 -- SOL_SOCKET
  connector_equal 2 4 -- SO_ERROR
  connector_return CONNECTOR_ALLOW

/-- `sendmsg`: on control. -/
def connector_sending (control : Int32) : StateM Code Unit := do
  connector_equal 2 0x4000 -- MSG_NOSIGNAL
  connector_fd control

/-- What is judged before the dispatch: the architecture, and the calls allowed as they are. -/
def connector_start (numbers : Numbers) : StateM Code Unit := do
  connector_emit 0x20 0 0 4
  connector_emit 0x15 1 0 numbers.audit
  connector_return CONNECTOR_KILL
  connector_emit 0x20 0 0 0
  [numbers.poll, numbers.ppoll, numbers.clock, numbers.exit, numbers.exit_group].forM connector_simple

/-- The dispatch, and the calls it goes to: all but `connect`, whose ranges come next. -/
def connector_calls (numbers : Numbers) (control status : Int32) : StateM Code Unit := do
  let reading ← connector_dispatch numbers.read
  let writing ← connector_dispatch numbers.write
  let closing ← connector_dispatch numbers.close
  let creating ← connector_dispatch numbers.socket
  let connecting ← connector_dispatch numbers.connect
  let checking ← connector_dispatch numbers.getsockopt
  let sending ← connector_dispatch numbers.sendmsg
  connector_return CONNECTOR_REFUSE
  connector_target reading
  connector_fd control
  connector_target writing
  connector_writing control status
  connector_target closing
  connector_closing control
  connector_target creating
  connector_creating
  connector_target checking
  connector_checking
  connector_target sending
  connector_sending control
  connector_target connecting

/-- Builds the program: its size, or 0 where it is more than the kernel takes. -/
def connector_program (numbers : Numbers) (ranges : List Range) (control status : Int32) : StateM Code ℕ := do
  set (⟨[], 0⟩ : Code)
  connector_start numbers
  connector_calls numbers control status
  ranges.forM connector_range
  connector_return CONNECTOR_REFUSE
  let used := (← get).used
  return if used ≤ CONNECTOR_INSNS then used else 0

/-- The instructions of the program that is installed. -/
def program (numbers : Numbers) (ranges : List Range) (control status : Int32) : List Insn :=
  let (size, code) := (connector_program numbers ranges control status).run ⟨[], 0⟩
  code.insns.take size

/-! ## What the program judges -/

/-- A system call, as `seccomp_data` holds it. -/
structure Call where
  nr : UInt32
  arch : UInt32
  instruction_pointer : UInt64
  args : Fin 6 → UInt64

/-- The low and the high half of a 64-bit value. -/
def low (v : UInt64) : UInt32 := v.toUInt32
def high (v : UInt64) : UInt32 := (v >>> 32).toUInt32

/-- The word of `seccomp_data` at an offset, on a little-endian machine. -/
def Call.word (c : Call) (offset : UInt32) : Option UInt32 :=
  let at_ := offset.toNat
  if at_ = 0 then some c.nr
  else if at_ = 4 then some c.arch
  else if at_ = 8 then some (low c.instruction_pointer)
  else if at_ = 12 then some (high c.instruction_pointer)
  else if h : 16 ≤ at_ ∧ at_ < 64 then
    let arg := c.args ⟨(at_ - 16) / 8, by omega⟩
    if (at_ - 16) % 8 = 0 then some (low arg)
    else if (at_ - 16) % 8 = 4 then some (high arg)
    else none
  else none

end Cosmic.Connector
