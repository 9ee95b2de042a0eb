/-
A bounded queue between the tasks of one run, and the two notifiers its senders and receivers wait on.

A task's turn on the queue is one step, up to the wait it parks in or the answer it returns with.
The run may resume any task it has woken, and may answer any wait at any time with a timeout or a
cancel; a notifier wakes its longest waiter, and a notice whose task is killed before it is resumed
goes to the next.
-/
import Cosmic.Base.Window

set_option autoImplicit false

namespace Cosmic.Channel

open Cosmic.Base Function

/-- What a full queue does with the next item. -/
inductive Overflow where
  | block
  | drop_oldest
  | drop_newest
  | close
deriving DecidableEq, Repr

/-- The notifiers of a queue. -/
inductive Gate where
  | not_empty
  | not_full
deriving DecidableEq, Repr

/-- A task to be resumed, what its wait answers, and the notifier whose notice that is, where it is one's alone. -/
structure Wake (K : Type) where
  task : K
  ok : Bool
  why : Bytes
  notice : Option Gate
deriving DecidableEq, Repr

/-- What a task is at: its own code, a wait within `send` or `receive` with the time it is to give up at, or its end. -/
inductive Phase (T : Type) where
  | running
  | sending (item : T) (deadline : Option ℤ)
  | receiving (deadline : Option ℤ)
  | killed

/-- A queue, and what the run keeps of the tasks that use it. -/
structure State (K T : Type) where
  window : Window T
  capacity : ℕ
  overflow : Overflow
  is_closed : Bool
  drops : ℕ
  /-- The waits in each notifier, longest first. -/
  waiters : Gate → List K
  ready : List (Wake K)
  phase : K → Phase T

/-- What a call of a task answered. -/
inductive Event (T : Type) where
  | sent (item : T) (ok : Bool) (why : Bytes)
  | received (item : T)
  | missed (why : Bytes)
  | raised (why : Bytes)
deriving DecidableEq, Repr

def CLOSED : Bytes := lit "closed"
def FULL : Bytes := lit "full"
def TIMEOUT : Bytes := lit "timeout"

/-- What `pop` raises where the queue holds no item. -/
def NO_HEAD : Bytes := lit "channel: no item at the head of a non-empty queue"

def WAIT_KILLED : Bytes := lit "poll: Notifier:wait while its task is killed"

def new (K T : Type) (capacity : ℕ) (overflow : Overflow) : State K T :=
  { window := .new, capacity, overflow, is_closed := false, drops := 0, waiters := fun _ => [], ready := []
    phase := fun _ => .running }

section

variable {K T : Type}

/-! ## Notices -/

/-- Wakes the longest waiter of a notifier. -/
def notify_one (g : Gate) (s : State K T) : State K T :=
  match s.waiters g with
  | [] => s
  | k :: ks =>
    { s with
      waiters := update s.waiters g ks
      ready := s.ready ++ [{ task := k, ok := true, why := [], notice := some g }] }

/-- Wakes every waiter of a notifier. -/
def notify_all (g : Gate) (s : State K T) : State K T :=
  { s with
    waiters := update s.waiters g []
    ready := s.ready ++ (s.waiters g).map fun k => { task := k, ok := true, why := [], notice := none } }

/-! ## The queue -/

def push (item : T) (s : State K T) : State K T := notify_one .not_empty { s with window := s.window.push item }

/-- The oldest item taken; `none` where the source raises. -/
def pop (s : State K T) : Option (T × State K T) := s.window.pop.map fun (item, window) => (item, { s with window })

def close (s : State K T) : State K T :=
  if s.is_closed then s else notify_all .not_full (notify_all .not_empty { s with is_closed := true })

/-- What `offer` answers; `broken` where it raises. -/
inductive Offered where
  | queued
  | closed
  | full
  | broken
deriving DecidableEq, Repr

/-- Queues `item` if the policy lets it without waiting. -/
def offer (item : T) (s : State K T) : Offered × State K T :=
  if s.is_closed then (.closed, s)
  else if s.window.count < s.capacity then (.queued, push item s)
  else
    match s.overflow with
    | .drop_oldest =>
      match pop s with
      | none => (.broken, s)
      | some (_, s) => (.queued, push item { s with drops := s.drops + 1 })
    | .drop_newest => (.queued, { s with drops := s.drops + 1 })
    | .close => (.closed, close s)
    | .block => (.full, s)

variable [DecidableEq K]

/-- Parks a task in a notifier's wait; one that is being killed may not wait. -/
def park (g : Gate) (k : K) (phase : Phase T) (s : State K T) : State K T × Option (Event T) :=
  match s.phase k with
  | .killed => (s, some (.raised WAIT_KILLED))
  | _ =>
    ({ s with waiters := update s.waiters g (s.waiters g ++ [k]), phase := update s.phase k phase }, none)

/-- Whether no time is left until `deadline`. -/
def expired (deadline : Option ℤ) (now : ℤ) : Bool :=
  match deadline with
  | some deadline => signed (deadline - now) ≤ 0
  | none => false

/-- One round of `send`. -/
def send_round (k : K) (item : T) (deadline : Option ℤ) (now : ℤ) (s : State K T) : State K T × Option (Event T) :=
  match offer item s with
  | (.queued, s) => (s, some (.sent item true []))
  | (.closed, s) => (s, some (.sent item false CLOSED))
  | (.broken, s) => (s, some (.raised NO_HEAD))
  | (.full, s) =>
    if expired deadline now then (s, some (.sent item false TIMEOUT)) else park .not_full k (.sending item deadline) s

def try_send (item : T) (s : State K T) : State K T × Option (Event T) :=
  match offer item s with
  | (.queued, s) => (s, some (.sent item true []))
  | (.closed, s) => (s, some (.sent item false CLOSED))
  | (.broken, s) => (s, some (.raised NO_HEAD))
  | (.full, s) => (s, some (.sent item false FULL))

/-- One round of `receive`. -/
def receive_round (k : K) (deadline : Option ℤ) (now : ℤ) (s : State K T) : State K T × Option (Event T) :=
  if s.window.count = 0 then
    if s.is_closed then (s, some (.missed CLOSED))
    else if expired deadline now then (s, some (.missed TIMEOUT))
    else park .not_empty k (.receiving deadline) s
  else
    match pop s with
    | none => (s, some (.raised NO_HEAD))
    | some (item, s) => (notify_one .not_full s, some (.received item))

/-- The time a call gives up at. -/
def deadline_of (timeout : Option ℤ) (now : ℤ) : Option ℤ := timeout.map fun timeout => signed (now + timeout)

/-! ## Steps of a run -/

/-- What may happen next: a call of a task, or of what runs while it is killed; or what the run does to a task. -/
inductive Act (K T : Type) where
  | send (k : K) (item : T) (timeout : Option ℤ) (now now' : ℤ)
  | try_send (item : T)
  | receive (k : K) (timeout : Option ℤ) (now now' : ℤ)
  | close
  | resume (k : K) (now : ℤ)
  | answer (k : K) (why : Bytes)
  | kill (k : K)

def parked (k : K) (s : State K T) : Bool := (s.waiters .not_empty).contains k || (s.waiters .not_full).contains k

/-- Whether a task may make a call. -/
def free (k : K) (s : State K T) : Bool :=
  match s.phase k with
  | .running => true
  | .killed => true
  | _ => false

def leave (k : K) (s : State K T) : State K T := { s with waiters := fun g => (s.waiters g).filter fun k' => k' ≠ k }

/-- Answers the wait a task is parked in with a timeout or a cancel. -/
def answer (k : K) (why : Bytes) (s : State K T) : State K T :=
  { leave k s with ready := s.ready ++ [{ task := k, ok := false, why, notice := none }] }

/-- Ends a task: its wait is left, its wakes are taken from those to be resumed, and their notices are handed on. -/
def kill (k : K) (s : State K T) : State K T :=
  let lost := (s.ready.filter fun w => w.task = k).filterMap Wake.notice
  let s := leave k s
  lost.foldl (fun s g => notify_one g s)
    { s with ready := s.ready.filter (fun w => w.task ≠ k), phase := update s.phase k .killed }

/-- Resumes a task that has been woken, within the call it waits in. -/
def resume (w : Wake K) (now : ℤ) (s : State K T) : State K T × Option (Event T) :=
  let next := { s with ready := s.ready.erase w, phase := update s.phase w.task .running }
  match s.phase w.task with
  | .sending item deadline =>
    if w.ok then send_round w.task item deadline now next else (next, some (.sent item false w.why))
  | .receiving deadline => if w.ok then receive_round w.task deadline now next else (next, some (.missed w.why))
  | _ => (s, none)

/-- The state after an act, and what a call answered; `none` where it cannot happen. -/
def step (s : State K T) : Act K T → Option (State K T × Option (Event T))
  | .send k item timeout now now' => if free k s then some (send_round k item (deadline_of timeout now) now' s) else none
  | .try_send item => some (try_send item s)
  | .receive k timeout now now' => if free k s then some (receive_round k (deadline_of timeout now) now' s) else none
  | .close => some (close s, none)
  | .resume k now => (s.ready.find? fun w => w.task = k).map fun w => resume w now s
  | .answer k why => if parked k s then some (answer k why s, none) else none
  | .kill k =>
    match s.phase k with
    | .killed => none
    | _ => some (kill k s, none)

/-- The state after some acts, and what was answered in them. -/
def run (s : State K T) : List (Act K T) → Option (State K T × List (Event T))
  | [] => some (s, [])
  | a :: acts => (step s a).bind fun (s, e) => (run s acts).map fun (s, log) => (s, e.toList ++ log)

/-- The runs from a state: what was answered in them, in order, and where they lead. -/
inductive Runs : State K T → List (Event T) → State K T → Prop
  | nil (s : State K T) : Runs s [] s
  | snoc {s s' s'' : State K T} {log : List (Event T)} {a : Act K T} {e : Option (Event T)} (h : Runs s log s')
      (hstep : step s' a = some (s'', e)) : Runs s (log ++ e.toList) s''

end

end Cosmic.Channel
