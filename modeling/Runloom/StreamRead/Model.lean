import Runloom.StreamTransport.Model

/-!
# Reading through a stream transport

Model of the read side of `_StreamTransport` over a plain or a TLS socket: `_io_loop` with its read-ahead loop,
`_recv_step`, `_recv_step_buffered`, `_handle_read_eof`, `_drain_step` and `close`. Over TLS a `send`, a `recv_nb` and
the sending of a close_notify may park, so each of these is a place of its own, and the calls of the transport may
come at any place.
-/

namespace Runloom.StreamRead

open Transition StreamTransport

/-- Where a `_recv_step` was called. -/
inductive From where
  | main
  | ahead (mask : Ready)

/-- Where an io fiber is. -/
inductive Pc where
  | unborn
  /-- At the top of `_io_loop`. -/
  | loop
  | notify
  /-- In the read-ahead loop; `drained` says that a step was made. -/
  | ahead (mask : Ready) (drained : Bool)
  | aheadNext (mask : Ready)
  /-- Parked in `_wait_fd`. -/
  | parked (mask : Ready)
  /-- Before the test for `_drain_step`. -/
  | drain (r : Ready)
  /-- In `sock.send`. -/
  | sending (r : Ready)
  /-- In the callback `resume_writing`. -/
  | resume (r : Ready)
  | drainNotify (r : Ready)
  /-- Before the test for `_recv_step`. -/
  | recv (r : Ready)
  /-- In the callback `get_buffer`. -/
  | getBuffer (k : From)
  /-- In `recv`, `recv_nb` or `recv_into`. -/
  | reading (buffered : Bool) (k : From)
  /-- In the callbacks `data_received`, `buffer_updated` and `eof_received`. -/
  | data (k : From)
  | updated (k : From)
  | eof (k : From)
  /-- In the close_notify of the `close()` after `eof_received`. -/
  | eofClosing (k : From)
  | exited

structure State where
  closed : Bool
  stopping : Bool
  closeWhenDrained : Bool
  paused : Bool
  writePaused : Bool
  readEof : Bool
  eofWritten : Bool
  eofPending : Bool
  tlsShutdownSent : Bool
  protocolPaused : Bool
  /-- The length of `_write_buf`. -/
  buf : Nat
  ioG : Option Nat
  fiber : Nat → Pc
  spawned : Nat
  /-- `__init__` has not spawned the io fiber yet. -/
  making : Bool
  /-- The calls of `write` that are in the callback `pause_writing`. -/
  pausing : Nat
  /-- The calls of `close` that are in the close_notify. -/
  closing : Nat

inductive Call where
  | write (n : Nat) (send : Send)
  | close
  | abort
  | writeEof
  | pauseReading
  | resumeReading
  /-- `_ssl_protocol.pause_writing()` and `resume_writing()`. -/
  | pauseWriting
  | resumeWriting

/-- What the io fiber does next, with the outcome of the socket's call. -/
inductive Event where
  | top
  | notified
  /-- `pending()` in the read-ahead loop; `buffered`: the protocol is a `BufferedProtocol`. -/
  | pending (n : Nat) (buffered : Bool)
  /-- `pending()` after it: whether it has dropped. -/
  | dropped (b : Bool)
  /-- `fileno()` raises. -/
  | noFd
  | wake (r : Ready)
  /-- `_wait_fd` raises: `CancelledError`, or anything else. -/
  | interrupted (cancelled : Bool)
  | drain
  | sent (send : Send)
  | drainNotified
  | recv (buffered : Bool)
  | read (outcome : Recv)
  | ret (r : Result)
  | eofClosed
  /-- An exception that `_io_loop` does not catch ends the fiber. -/
  | raised

inductive Action where
  | call (c : Call)
  /-- `connection_made` has returned. -/
  | made
  /-- `pause_writing` has returned. -/
  | kick
  /-- The close_notify of `close` is sent, or an exception leaves the call. -/
  | notified (ok : Bool)
  | io (f : Nat) (e : Event)

/-- Plain or TLS, with a `send_close_notify` or without, and the watermarks. -/
structure Config where
  plain : Bool
  snc : Bool
  lim : Limits

namespace State

def setFiber (s : State) (f : Nat) (pc : Pc) : State := { s with fiber := Function.update s.fiber f pc }

/-- `_fiber_io(self._io_loop)`, stored in `_io_g`. -/
def spawn (s : State) : State :=
  { s with fiber := Function.update s.fiber s.spawned .loop, ioG := some s.spawned, spawned := s.spawned + 1 }

/-- `g.cancel_wait_fd()` for the io fiber: only the park of `_io_loop` goes back to the top, and any other is
`Event.raised`. -/
def cancelWaitFd (s : State) : State :=
  match s.ioG with
  | none => s
  | some f =>
    match s.fiber f with
    | .parked _ => s.setFiber f .loop
    | _ => s

/-- `_kick_io`. -/
def kickIo (s : State) : State :=
  if s.stopping then s
  else
    match s.ioG with
    | some _ => s.cancelWaitFd
    | none => s.spawn

/-- `_send_tls_close_notify` has something to send. -/
def sendsNotify (s : State) (cfg : Config) : Bool := !cfg.plain && !s.tlsShutdownSent && cfg.snc

/-- The end of `close`. -/
def closeEnd (s : State) : State := { s with stopping := true }.cancelWaitFd

/-- `close(exc)`, up to the sending of a close_notify. -/
def close (s : State) (cfg : Config) (exc : Bool) : State × Bool :=
  if s.closed then (s, false)
  else
    let s := { s with closed := true, writePaused := false }
    -- what is queued is written first, by the io fiber, and `_stopping` stays off
    if !exc && s.buf != 0 then ({ s with closeWhenDrained := true }.kickIo, false)
    else if !exc && s.sendsNotify cfg then ({ s with tlsShutdownSent := true }, true)
    else (s.closeEnd, false)

/-- `close(exc)` with an exception, which sends no close_notify. -/
def closeError (s : State) (cfg : Config) : State := (s.close cfg true).1

/-- A call of `close()`. -/
def closeCall (s : State) (cfg : Config) : State :=
  let (s, waits) := s.close cfg false
  if waits then { s with closing := s.closing + 1 } else s

def abort (s : State) (cfg : Config) : State :=
  let s := { s with buf := 0 }
  if !s.closed then s.closeCall cfg
  else if s.stopping then s
  else { s with closeWhenDrained := false, stopping := true }.cancelWaitFd

def writeEof (s : State) : State :=
  if s.closed || s.eofWritten || s.eofPending then s
  else if s.buf != 0 then { s with eofPending := true }
  else { s with eofWritten := true }

def resumeReading (s : State) : State := if s.paused then { s with paused := false }.kickIo else s

def resumeWriting (s : State) : State := if s.writePaused then { s with writePaused := false }.kickIo else s

/-- The end of `write`: the bytes are queued, and the io fiber is told. -/
def queue (s : State) (lim : Limits) (n : Nat) : State :=
  let s := { s with buf := s.buf + n }
  if !s.protocolPaused && decide (lim.high < s.buf) then { s with protocolPaused := true, pausing := s.pausing + 1 }
  else s.kickIo

def write (s : State) (cfg : Config) (n : Nat) (send : Send) : State :=
  -- After `write_eof` the call raises.
  if s.eofWritten || s.eofPending || s.closed || n == 0 then s
  else if s.buf == 0 && cfg.plain then
    match send with
    | .error => s.closeError cfg
    | .blocked => s.queue cfg.lim n
    | .sent k => if n ≤ k then s else s.queue cfg.lim (n - k)
  else s.queue cfg.lim n

def call (s : State) (cfg : Config) : Call → State
  | .write n send => s.write cfg n send
  | .close => s.closeCall cfg
  | .abort => s.abort cfg
  | .writeEof => s.writeEof
  | .pauseReading => { s with paused := true }
  | .resumeReading => s.resumeReading
  | .pauseWriting => { s with writePaused := true }
  | .resumeWriting => s.resumeWriting

/-- The io fiber leaves `_io_loop` and clears `_io_g`. -/
def leave (s : State) (f : Nat) : State := { s with ioG := none }.setFiber f .exited

def computeMask (s : State) (cfg : Config) (f : Nat) : State :=
  let mask : Ready := ⟨!s.paused && !s.readEof && !s.closed, s.buf != 0 && !s.writePaused⟩
  if !mask.read && !mask.write then s.leave f
  else if mask.read && !cfg.plain then s.setFiber f (.ahead mask false)
  else s.setFiber f (.parked mask)

/-- The top of `_io_loop`. -/
def top (s : State) (cfg : Config) (f : Nat) : State :=
  if s.stopping then s.leave f
  else if s.readEof && s.buf == 0 && !s.closed && s.sendsNotify cfg then
    { s with tlsShutdownSent := true }.setFiber f .notify
  else s.computeMask cfg f

/-- Where the fiber goes on when `_recv_step` returns `True`. -/
def afterRecv (s : State) (f : Nat) : From → State
  | .main => s.setFiber f .loop
  | .ahead mask => s.setFiber f (.aheadNext mask)

/-- `_recv_step`, up to its first callback or its read. -/
def recvStep (s : State) (f : Nat) (buffered : Bool) (k : From) : State :=
  s.setFiber f (if buffered then .getBuffer k else .reading false k)

/-- A step of the read-ahead loop: `n` is what `pending()` says. -/
def readAhead (s : State) (f : Nat) (mask : Ready) (drained : Bool) (n : Nat) (buffered : Bool) : State :=
  if s.stopping || n == 0 then s.setFiber f (if drained then .loop else .parked mask)
  else s.recvStep f buffered (.ahead mask)

/-- A read that fails: the fiber leaves `_io_loop`. -/
def readFailed (s : State) (cfg : Config) (f : Nat) : State := (s.closeError cfg).setFiber f .exited

def received (s : State) (cfg : Config) (f : Nat) (buffered : Bool) (k : From) : Recv → State
  | .blocked => s.afterRecv f k
  | .error => s.readFailed cfg f
  | .empty => s.setFiber f (.eof k)
  | .data => s.setFiber f (if buffered then .updated k else .data k)

/-- The end of `_handle_read_eof`, after its `close()`. -/
def eofClosed (s : State) (f : Nat) (k : From) : State :=
  if s.closeWhenDrained then s.afterRecv f k else s.setFiber f .exited

/-- `_handle_read_eof`, after the callback. -/
def readEofHandled (s : State) (cfg : Config) (f : Nat) (k : From) (keep : Bool) : State :=
  if keep then { s with readEof := true }.afterRecv f k
  else
    let (s, waits) := s.close cfg false
    if waits then s.setFiber f (.eofClosing k) else s.eofClosed f k

def tearDown (s : State) (f : Nat) (r : Ready) : State :=
  { s with closeWhenDrained := false, stopping := true }.setFiber f (.recv r)

/-- The end of `_drain_step`. -/
def drained (s : State) (cfg : Config) (f : Nat) (r : Ready) : State :=
  if s.buf = 0 then
    let s :=
      if s.eofPending && !s.eofWritten && !s.closed then { s with eofPending := false, eofWritten := true } else s
    if s.closeWhenDrained && !s.stopping then
      if s.sendsNotify cfg then { s with tlsShutdownSent := true }.setFiber f (.drainNotify r) else s.tearDown f r
    else s.setFiber f (.recv r)
  else s.setFiber f (.recv r)

/-- `sock.send` in `_drain_step` has returned. -/
def sent (s : State) (cfg : Config) (f : Nat) (r : Ready) : Send → State
  | .blocked => s.setFiber f (.recv r)
  | .error => if s.closeWhenDrained then s.tearDown f r else (s.closeError cfg).setFiber f (.recv r)
  | .sent n =>
    let s := { s with buf := s.buf - n }
    if n != 0 && s.protocolPaused && decide (s.buf ≤ cfg.lim.low) then
      { s with protocolPaused := false }.setFiber f (.resume r)
    else s.drained cfg f r

def ret (s : State) (cfg : Config) (f : Nat) (res : Result) : Pc → Option State
  | .resume r => some (s.drained cfg f r)
  | .getBuffer k =>
    match res with
    | .returned _ => some (s.setFiber f (.reading true k))
    | .raised => some (s.readFailed cfg f)
  | .data k | .updated k =>
    match res with
    | .returned _ => some (s.afterRecv f k)
    | .raised => some (s.readFailed cfg f)
  | .eof k =>
    match res with
    | .returned keep => some (s.readEofHandled cfg f k keep)
    | .raised => some (s.readEofHandled cfg f k false)
  | _ => none

def io (s : State) (cfg : Config) (f : Nat) : Event → Pc → Option State
  | .top, .loop => some (s.top cfg f)
  | .notified, .notify => some (s.computeMask cfg f)
  | .pending n buffered, .ahead mask drained => some (s.readAhead f mask drained n buffered)
  | .dropped b, .aheadNext mask => some (s.setFiber f (if b then .ahead mask true else .loop))
  | .noFd, .parked _ => some (s.leave f)
  | .wake r, .parked mask =>
    -- `wait_fd` reports no direction that it was not asked for
    if (r.read && !mask.read) || (r.write && !mask.write) then none
    else some (s.setFiber f (if s.stopping then .exited else .drain r))
  | .interrupted cancelled, .parked _ =>
    some (s.setFiber f (if !cancelled && s.stopping then .exited else .loop))
  | .drain, .drain r => some (s.setFiber f (if r.write && s.buf != 0 && !s.stopping then .sending r else .recv r))
  | .sent send, .sending r => some (s.sent cfg f r send)
  | .drainNotified, .drainNotify r => some (s.tearDown f r)
  | .recv buffered, .recv r =>
    some (if r.read && !s.paused && !s.readEof && !s.stopping then s.recvStep f buffered .main
      else s.setFiber f .loop)
  | .read outcome, .reading buffered k => some (s.received cfg f buffered k outcome)
  | .ret res, pc => s.ret cfg f res pc
  | .eofClosed, .eofClosing k => some (s.closeEnd.eofClosed f k)
  | .raised, .notify | .raised, .sending _ | .raised, .drainNotify _ | .raised, .reading _ _
  | .raised, .eofClosing _ | .raised, .resume _ | .raised, .getBuffer _ | .raised, .data _ | .raised, .updated _
  | .raised, .eof _ => some (s.setFiber f .exited)
  | _, _ => none

end State

def step (cfg : Config) (s : State) : Action → Option State
  | .call c => some (s.call cfg c)
  | .made =>
    if s.making then
      let s := { s with making := false }
      some (match s.ioG with
        | none => s.spawn
        | some _ => s)
    else none
  | .kick => if s.pausing = 0 then none else some { s with pausing := s.pausing - 1 }.kickIo
  | .notified ok =>
    if s.closing = 0 then none
    else
      let s := { s with closing := s.closing - 1 }
      some (if ok then s.closeEnd else s)
  | .io f e => s.io cfg f e (s.fiber f)

/-- In `__init__`, when `connection_made` is called. -/
structure Init (s : State) : Prop where
  closed : s.closed = false
  stopping : s.stopping = false
  closeWhenDrained : s.closeWhenDrained = false
  buf : s.buf = 0
  ioG : s.ioG = none
  fiber : ∀ f, s.fiber f = .unborn
  spawned : s.spawned = 0
  making : s.making = true
  pausing : s.pausing = 0
  closing : s.closing = 0

def transport (cfg : Config) : System State Action where
  init := Init
  step := step cfg

end Runloom.StreamRead
