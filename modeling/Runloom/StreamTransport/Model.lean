import Runloom.Transition.System

/-!
# Closing a stream transport

Model of `_StreamTransport` on a plain socket: its calls, its io fiber, and the callbacks of its
protocol, which may make any call of the transport and then raise.  Callbacks do not park, so at any
time one activity runs; `stack` has the callbacks that are running, each with what the transport does
when it returns.  The outcomes of the socket's calls are chosen by the schedule.
-/

namespace Runloom.StreamTransport

open Transition

/-- What `wait_fd` reports as ready. -/
structure Ready where
  read : Bool
  write : Bool
deriving DecidableEq

/-- Where an io fiber is in `_io_loop`. -/
inductive Pc where
  | unborn
  | loop
  /-- Parked in `_wait_fd`. -/
  | parked
  /-- Before the test for `_drain_step`. -/
  | drain (r : Ready)
  /-- Before the test for `_recv_step`. -/
  | recv (r : Ready)
  /-- In `_recv_step_buffered`, before `recv_into`. -/
  | recvInto
  | callback
  | exited
deriving DecidableEq

/-- A callback that runs. -/
inductive Frame where
  /-- `connection_made`, in `__init__`. -/
  | connectionMade
  /-- `pause_writing`, in `write`. -/
  | pauseWriting
  /-- `resume_writing`, in `_drain_step`. -/
  | resumeWriting (f : Nat) (r : Ready)
  | dataReceived (f : Nat)
  | eofReceived (f : Nat)
  | getBuffer (f : Nat)
  | bufferUpdated (f : Nat)

structure State where
  closed : Bool
  stopping : Bool
  closeWhenDrained : Bool
  connLostCalled : Bool
  closeDeliverCl : Bool
  paused : Bool
  readEof : Bool
  eofWritten : Bool
  eofPending : Bool
  protocolPaused : Bool
  /-- The length of `_write_buf`. -/
  buf : Nat
  ioG : Option Nat
  fiber : Nat → Pc
  spawned : Nat
  stack : List Frame
  /-- How often `connection_lost` was scheduled. -/
  lost : Nat

/-- The outcome of a `send` on the socket. -/
inductive Send where
  | sent (n : Nat)
  | blocked
  | error

/-- The outcome of a `recv` or `recv_into` on the socket. -/
inductive Recv where
  | data
  | empty
  | blocked
  | error

inductive Call where
  | write (n : Nat) (send : Send)
  | close
  | abort
  | writeEof
  | pauseReading
  | resumeReading

/-- How a callback ends; `keep` is the truth of what `eof_received` returns. -/
inductive Result where
  | returned (keep : Bool)
  | raised

/-- What the io fiber does next, with the outcome of the socket's call. -/
inductive Event where
  | top
  | wake (r : Ready)
  /-- `_wait_fd` raises: `CancelledError`, or anything else. -/
  | interrupted (cancelled : Bool)
  | drain (send : Send)
  /-- `buffered` says that the protocol is a `BufferedProtocol`. -/
  | recv (buffered : Bool) (outcome : Recv)
  | recvInto (outcome : Recv)

inductive Action where
  | call (c : Call)
  | ret (r : Result)
  | io (f : Nat) (e : Event)

/-- The watermarks of the write buffer. -/
structure Limits where
  high : Nat
  low : Nat

namespace State

def setFiber (s : State) (f : Nat) (pc : Pc) : State :=
  { s with fiber := Function.update s.fiber f pc }

/-- `_fiber_io(self._io_loop)`, stored in `_io_g`. -/
def spawn (s : State) : State :=
  { s with
    fiber := Function.update s.fiber s.spawned .loop,
    ioG := some s.spawned,
    spawned := s.spawned + 1 }

/-- `g.cancel_wait_fd()` for the io fiber, which goes back to the top. -/
def cancelWaitFd (s : State) : State :=
  match s.ioG with
  | none => s
  | some f => if s.fiber f = .parked then s.setFiber f .loop else s

/-- `_kick_io`. -/
def kickIo (s : State) : State :=
  if s.stopping then s
  else
    match s.ioG with
    | some _ => s.cancelWaitFd
    | none => s.spawn

/-- `_deliver_connection_lost`. -/
def deliverConnectionLost (s : State) (deliverCl : Bool) : State :=
  { s with lost := s.lost + deliverCl.toNat }

/-- `close(exc)`; `exc` says that there is an exception. -/
def close (s : State) (exc : Bool) : State :=
  if s.closed then s
  else
    -- The call that sets `_conn_lost_called` is the one that delivers, now or when the buffer is empty.
    let deliverCl := !s.connLostCalled
    let s := { s with closed := true, connLostCalled := true }
    if !exc && s.buf != 0 then
      { s with closeDeliverCl := deliverCl, closeWhenDrained := true }.kickIo
    else ({ s with stopping := true }.cancelWaitFd).deliverConnectionLost deliverCl

def abort (s : State) : State :=
  let s := { s with buf := 0 }
  -- A close that waits for the buffer is finished here.
  if s.closed then
    if s.stopping then s
    else
      ({ s with closeWhenDrained := false, stopping := true }.cancelWaitFd).deliverConnectionLost s.closeDeliverCl
  else s.close false

def writeEof (s : State) : State :=
  if s.closed || s.eofWritten || s.eofPending then s
  else if s.buf != 0 then { s with eofPending := true }
  else { s with eofWritten := true }

def resumeReading (s : State) : State :=
  if s.paused then { s with paused := false }.kickIo else s

/-- The end of `write`: the bytes are queued, and the io fiber is told. -/
def queue (s : State) (lim : Limits) (n : Nat) : State :=
  let s := { s with buf := s.buf + n }
  if !s.protocolPaused && decide (lim.high < s.buf) then
    { s with protocolPaused := true, stack := .pauseWriting :: s.stack }
  else s.kickIo

def write (s : State) (lim : Limits) (n : Nat) (send : Send) : State :=
  -- After `write_eof` the call raises.
  if s.eofWritten || s.eofPending || s.closed || n == 0 then s
  else if s.buf == 0 then
    match send with
    | .error => s.close true
    | .blocked => s.queue lim n
    | .sent k => if n ≤ k then s else s.queue lim (n - k)
  else s.queue lim n

def call (s : State) (lim : Limits) : Call → State
  | .write n send => s.write lim n send
  | .close => s.close false
  | .abort => s.abort
  | .writeEof => s.writeEof
  | .pauseReading => { s with paused := true }
  | .resumeReading => s.resumeReading

/-- The top of `_io_loop`: the mask is computed, and the fiber parks or exits. -/
def top (s : State) (f : Nat) : State :=
  if s.stopping then { s with ioG := none }.setFiber f .exited
  else if (s.paused || s.readEof || s.closed) && s.buf == 0 then
    { s with ioG := none }.setFiber f .exited
  else s.setFiber f .parked

/-- `_wait_fd` returns. -/
def wake (s : State) (f : Nat) (r : Ready) : State :=
  s.setFiber f (if s.stopping then .exited else .drain r)

def interrupted (s : State) (f : Nat) (cancelled : Bool) : State :=
  s.setFiber f (if !cancelled && s.stopping then .exited else .loop)

def tearDown (s : State) : State :=
  { s with closeWhenDrained := false, stopping := true }.deliverConnectionLost s.closeDeliverCl

/-- The end of `_drain_step`. -/
def drained (s : State) (f : Nat) (r : Ready) : State :=
  if s.buf = 0 then
    let s :=
      if s.eofPending && !s.eofWritten && !s.closed then
        { s with eofPending := false, eofWritten := true }
      else s
    (if s.closeWhenDrained && !s.stopping then s.tearDown else s).setFiber f (.recv r)
  else s.setFiber f (.recv r)

/-- `_drain_step`, up to the callback `resume_writing` if it is made. -/
def drainStep (s : State) (lim : Limits) (f : Nat) (r : Ready) : Send → State
  | .blocked => s.setFiber f (.recv r)
  | .error => (if s.closeWhenDrained then s.tearDown else s.close true).setFiber f (.recv r)
  | .sent n =>
    let s := { s with buf := s.buf - n }
    if n != 0 && s.protocolPaused && decide (s.buf ≤ lim.low) then
      { s with protocolPaused := false, stack := .resumeWriting f r :: s.stack }.setFiber f .callback
    else s.drained f r

/-- A read that fails: the fiber leaves `_io_loop`. -/
def readFailed (s : State) (f : Nat) : State :=
  (s.close true).setFiber f .exited

/-- `recv` or `recv_into` has returned; `frame` is the callback for data. -/
def received (s : State) (f : Nat) (frame : Frame) : Recv → State
  | .blocked => s.setFiber f .loop
  | .error => s.readFailed f
  | .empty => { s with stack := .eofReceived f :: s.stack }.setFiber f .callback
  | .data => { s with stack := frame :: s.stack }.setFiber f .callback

/-- `_recv_step`, up to its first callback. -/
def recvStep (s : State) (f : Nat) (buffered : Bool) (outcome : Recv) : State :=
  if buffered then { s with stack := .getBuffer f :: s.stack }.setFiber f .callback
  else s.received f (.dataReceived f) outcome

/-- `_handle_read_eof`, after the callback. -/
def readEofHandled (s : State) (f : Nat) (keep : Bool) : State :=
  if keep then { s with readEof := true }.setFiber f .loop
  else
    let s := s.close false
    -- What is buffered is still written, by the same fiber.
    s.setFiber f (if s.closeWhenDrained then .loop else .exited)

def ret (s : State) (r : Result) : Frame → State
  | .connectionMade =>
    match s.ioG with
    | none => s.spawn
    | some _ => s
  | .pauseWriting => s.kickIo
  | .resumeWriting f ready => s.drained f ready
  | .dataReceived f =>
    match r with
    | .returned _ => s.setFiber f .loop
    | .raised => s.readFailed f
  | .bufferUpdated f =>
    match r with
    | .returned _ => s.setFiber f .loop
    | .raised => s.readFailed f
  | .getBuffer f =>
    match r with
    | .returned _ => s.setFiber f .recvInto
    | .raised => s.readFailed f
  | .eofReceived f =>
    match r with
    | .returned keep => s.readEofHandled f keep
    | .raised => s.readEofHandled f false

def io (s : State) (lim : Limits) (f : Nat) : Event → Pc → Option State
  | .top, .loop => some (s.top f)
  | .wake r, .parked => some (s.wake f r)
  | .interrupted cancelled, .parked => some (s.interrupted f cancelled)
  | .drain send, .drain r =>
    some (if r.write && s.buf != 0 && !s.stopping then s.drainStep lim f r send
      else s.setFiber f (.recv r))
  | .recv buffered outcome, .recv r =>
    some (if r.read && !s.paused && !s.readEof && !s.stopping then s.recvStep f buffered outcome
      else s.setFiber f .loop)
  | .recvInto outcome, .recvInto => some (s.received f (.bufferUpdated f) outcome)
  | _, _ => none

end State

def step (lim : Limits) (s : State) : Action → Option State
  | .call c => some (s.call lim c)
  | .ret r =>
    match s.stack with
    | [] => none
    | frame :: stack => some ({ s with stack := stack }.ret r frame)
  | .io f e =>
    match s.stack with
    | [] => s.io lim f e (s.fiber f)
    | _ :: _ => none

/-- In `__init__`, when `connection_made` is called. -/
structure Init (s : State) : Prop where
  closed : s.closed = false
  stopping : s.stopping = false
  closeWhenDrained : s.closeWhenDrained = false
  connLostCalled : s.connLostCalled = false
  buf : s.buf = 0
  ioG : s.ioG = none
  fiber : ∀ f, s.fiber f = .unborn
  spawned : s.spawned = 0
  stack : s.stack = [.connectionMade]
  lost : s.lost = 0

def transport (lim : Limits) : System State Action where
  init := Init
  step := step lim

end Runloom.StreamTransport
