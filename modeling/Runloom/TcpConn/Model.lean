import Runloom.Transition.System

/-!
# A connection and its descriptor

Model of `RunloomTCPConn` on netpoll: `recv`, `recv_into`, `send`, `send_all` and `close`, called by fibers on any
hubs.  The two receives read `self->fd` and test `self->closed` in the critical section of the connection, on every
turn of their loops, and keep the section up to the link of their parker; the two sends read the descriptor once and
take no section.
-/

namespace Runloom.TcpConn

open Transition

inductive Op where
  | recv
  | recvInto
  | send
  | sendAll
deriving DecidableEq

def Op.guarded : Op → Bool
  | .recv | .recvInto => true
  | .send | .sendAll => false

/-- The descriptor as it was read, `none` for a negative one, and the bytes left. -/
structure Io where
  op : Op
  fd : Option Nat
  left : Nat
deriving DecidableEq

inductive Pc where
  | idle
  /-- Before the first test of `closed` and `fd`. -/
  | entry (op : Op) (len : Nat)
  /-- A send, before `fd = self->fd`. -/
  | load (op : Op) (len : Nat)
  | lock (op : Op) (len : Nat)
  | test (op : Op) (len : Nat)
  | call (io : Io)
  /-- Before `wait_fd`. -/
  | wait (io : Io)
  /-- In `wait_fd`, before the parker is linked into its pool. -/
  | link (io : Io)
  | parked (io : Io) (pool : Nat)
  | woken (io : Io) (ok : Bool)
  | unlock (op : Op) (len : Nat) (again : Bool)
  /-- In `close`, before the section. -/
  | closing
  /-- `cancel_fd` comes to the pool `k`. -/
  | cancel (fd : Nat) (k : Nat)
  | unregister (fd : Nat)
  | closesock (fd : Nat)
deriving DecidableEq

structure State (T : Type*) where
  fd : Option Nat
  closed : Bool
  holder : Option T
  pc : T → Pc
  /-- The number that `closesock` has given back. -/
  freed : Option Nat
  stale : Nat

/-- Bytes (or the end of the file), a call that would block, or an error. -/
inductive Outcome where
  | progress (n : Nat)
  | wouldBlock
  | error
deriving DecidableEq

inductive Event where
  | call (op : Op) (len : Nat)
  | close
  | check
  | load
  | lock
  | test
  | sys (outcome : Outcome)
  /-- `wait_fd` is called; it may return before it parks. -/
  | wait (returned : Option Bool)
  | link (pool : Nat)
  | wake (ok : Bool)
  | resume
  | unlock
  | claim
  | cancel
  | unregister
  | closesock

structure Action (T : Type*) where
  fiber : T
  event : Event

/-- A parker that `cancel_fd` finds in the pool. -/
def Pc.cancelled (n k : Nat) : Pc → Pc
  | .parked io pool => if io.fd = some n ∧ pool = k then .woken io false else .parked io pool
  | pc => pc

namespace State

variable {T : Type*} [DecidableEq T]

def setPc (s : State T) (t : T) (pc : Pc) : State T :=
  { s with pc := Function.update s.pc t pc }

def touch (s : State T) (fd : Option Nat) : State T :=
  if fd ≠ none ∧ fd = s.freed then { s with stale := s.stale + 1 } else s

/-- The call of a loop ends, or the loop goes on; a receive leaves the section first. -/
def finish (s : State T) (t : T) (io : Io) (again : Bool) : State T :=
  if io.op.guarded then s.setPc t (.unlock io.op io.left again)
  else s.setPc t (if again then .call io else .idle)

def check (s : State T) (t : T) (op : Op) (len : Nat) : State T :=
  if s.closed || s.fd.isNone then s.setPc t .idle
  else if op.guarded then s.setPc t (if len = 0 then .idle else .lock op len)
  else s.setPc t (.load op len)

def load (s : State T) (t : T) (op : Op) (len : Nat) : State T :=
  -- The loop of `send_all` does not start on an empty buffer.
  if op = .sendAll ∧ len = 0 then s.setPc t .idle else s.setPc t (.call ⟨op, s.fd, len⟩)

def test (s : State T) (t : T) (op : Op) (len : Nat) : State T :=
  if s.closed || s.fd.isNone then s.setPc t (.unlock op len false)
  else s.setPc t (.call ⟨op, s.fd, len⟩)

def sys (s : State T) (t : T) (io : Io) : Outcome → State T
  | .progress n =>
    if io.op = .sendAll ∧ n < io.left then s.setPc t (.call { io with left := io.left - n })
    else s.finish t io false
  | .wouldBlock => s.setPc t (.wait io)
  | .error => s.finish t io false

/-- `runloom_netpoll_cancel_fd`, for one pool of parkers. -/
def cancelPool (s : State T) (n k : Nat) : State T :=
  { s with pc := fun t => (s.pc t).cancelled n k }

/-- The span of `close` in the critical section. -/
def claim (s : State T) (t : T) : State T :=
  match s.fd with
  | none => s.setPc t .idle
  | some n =>
    if s.closed then s.setPc t .idle
    -- Only one call gets here, and it takes the descriptor with it.
    else { s with fd := none, closed := true }.setPc t (.cancel n 0)

/-- A step of a fiber; `pools` is the number of parker pools. -/
def step (s : State T) (pools : Nat) (t : T) : Event → Pc → Option (State T)
  | .call op len, .idle => some (s.setPc t (.entry op len))
  | .close, .idle => some (s.setPc t .closing)
  | .check, .entry op len => some (s.check t op len)
  | .load, .load op len => some (s.load t op len)
  | .lock, .lock op len =>
    if s.holder = none then some ({ s with holder := some t }.setPc t (.test op len)) else none
  | .test, .test op len => some (s.test t op len)
  | .sys outcome, .call io =>
    -- A call on a negative descriptor fails with `EBADF`.
    if io.fd = none ∧ outcome ≠ .error then none else some ((s.touch io.fd).sys t io outcome)
  | .wait none, .wait io => some ((s.touch io.fd).setPc t (.link io))
  | .wait (some ok), .wait io => some ((s.touch io.fd).finish t io ok)
  | .link pool, .link io =>
    -- The scheduler suspends the section once the parker is linked.
    if pool < pools then
      some ({ s with holder := if io.op.guarded then none else s.holder }.setPc t (.parked io pool))
    else none
  | .wake ok, .parked io _ => some (s.setPc t (.woken io ok))
  | .resume, .woken io ok =>
    if io.op.guarded then
      if s.holder = none then some ({ s with holder := some t }.finish t io ok) else none
    else some (s.finish t io ok)
  | .unlock, .unlock op len again =>
    some ({ s with holder := none }.setPc t (if again then .lock op len else .idle))
  | .claim, .closing => if s.holder = none then some (s.claim t) else none
  | .cancel, .cancel n k =>
    if k < pools then some ((s.cancelPool n k).setPc t (.cancel n (k + 1)))
    else some (s.setPc t (.unregister n))
  | .unregister, .unregister n => some (s.setPc t (.closesock n))
  | .closesock, .closesock n => some ({ s with freed := some n }.setPc t .idle)
  | _, _ => none

end State

structure Init {T : Type*} (fd : Nat) (s : State T) : Prop where
  fd : s.fd = some fd
  closed : s.closed = false
  holder : s.holder = none
  pc : ∀ t, s.pc t = .idle
  freed : s.freed = none
  stale : s.stale = 0

/-- A connection that wraps the descriptor `fd`. -/
def conn (T : Type*) [DecidableEq T] (fd pools : Nat) : System (State T) (Action T) where
  init := Init fd
  step s a := s.step pools a.fiber a.event (s.pc a.fiber)

end Runloom.TcpConn
