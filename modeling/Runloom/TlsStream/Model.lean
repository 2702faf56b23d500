import Runloom.Transition.System

/-!
# Writing through a TLS stream transport

Model of the io fiber of a `_StreamTransport` over `_MemoryBIOTLS` on its write side: `_io_loop`, `_drain_step`,
`send` and `_pump_out`, with other fibers that call `write`, `resume_reading` and `close`. Every one of these may go
through `_kick_io`, whose `cancel_wait_fd` raises `CancelledError` out of the `_wait_fd` that the io fiber is parked
in.

`produced` and `sent` record all bytes that were put into the outgoing BIO and all that the raw socket took.
-/

namespace Runloom.TlsStream

open Transition

/-- What the io fiber does once `_pump_out` has sent everything. -/
inductive After where
  /-- `send` returns the number of bytes it took from the write buffer. -/
  | consumed (n : Nat)
  /-- `send` feeds the incoming BIO and tries again. -/
  | retry
  | notified
  | drained
deriving DecidableEq

inductive Pc (α : Type*) where
  /-- The top of `_io_loop`. -/
  | loop
  /-- Parked in the `_wait_fd` of `_io_loop`. -/
  | outer
  /-- In `send`, before `_obj.write`. -/
  | encrypt
  /-- In `_pump_out`, before it reads the outgoing BIO. -/
  | flush (k : After)
  /-- In `_pump_out`, before `_raw.send(view)`. -/
  | pump (view : List α) (k : After)
  /-- In `_pump_out`, parked on WRITE. -/
  | pumpWait (view : List α) (k : After)
  /-- In `send`, before `_feed_in_nb`. -/
  | feed
  /-- In `send`, parked on READ. -/
  | readWait
  /-- `_io_loop` has returned. -/
  | exited
  | dead
deriving DecidableEq

/-- The call of `close` that sends the close_notify itself. -/
inductive Closer (α : Type*) where
  | idle
  | flush
  | pump (view : List α)
  | pumpWait (view : List α)

structure State (α : Type*) where
  io : Pc α
  /-- `_io_g` is set. -/
  ioG : Bool
  closer : Closer α
  /-- The length of `_write_buf`. -/
  buf : Nat
  closed : Bool
  stopping : Bool
  closeWhenDrained : Bool
  tlsShutdownSent : Bool
  paused : Bool
  readEof : Bool
  out : List α
  produced : List α
  sent : List α
  lost : Bool

inductive Action (α : Type*) where
  /-- The spawn at the end of `__init__`. -/
  | start
  | write (n : Nat)
  | pauseReading
  | resumeReading
  /-- `close()`; `bytes` is what `unwrap` produces, if it is called. -/
  | close (bytes : List α)
  /-- The next step of the call of `close`. -/
  | closing (k : Nat)
  /-- The top of `_io_loop`; `bytes` is what `unwrap` produces, if it is called. -/
  | top (bytes : List α)
  | ready (writable eof : Bool)
  /-- `_obj.write` puts `bytes` into the BIO; it takes `n` bytes, or wants more input. -/
  | encrypt (bytes : List α) (n : Nat)
  | flush
  /-- `_raw.send` takes `k` bytes; none means that it would block. -/
  | rawSend (k : Nat)
  | wake
  | feed (blocked : Bool)
  /-- After the last byte of `_pump_out`; `bytes` is what `unwrap` produces. -/
  | pumped (bytes : List α)

variable {α : Type*}

namespace State

/-- `cancel_wait_fd` on the io fiber: only the park of `_io_loop` catches the exception. -/
def cancelWaitFd (s : State α) : State α :=
  match s.io with
  | .outer => { s with io := .loop }
  -- The rest of the view goes with the frame of `_pump_out`.
  | .pumpWait _ _ => { s with io := .dead, lost := true }
  | .readWait => { s with io := .dead }
  | _ => s

/-- `_kick_io`. -/
def kickIo (s : State α) : State α :=
  if s.stopping then s
  else if s.ioG then s.cancelWaitFd
  else { s with ioG := true, io := .loop }

/-- `_obj.unwrap()` in `send_close_notify`. -/
def unwrap (s : State α) (bytes : List α) : State α :=
  { s with
    tlsShutdownSent := true,
    out := s.out ++ bytes,
    produced := s.produced ++ bytes }

/-- The teardown at the end of `close`; the io fiber is woken if it is parked. -/
def tearDown (s : State α) : State α :=
  { s with stopping := true, closer := .idle }.cancelWaitFd

def write (s : State α) (n : Nat) : State α :=
  if s.closed || n == 0 then s else { s with buf := s.buf + n }.kickIo

def resumeReading (s : State α) : State α :=
  if s.paused then { s with paused := false }.kickIo else s

def close (s : State α) (bytes : List α) : State α :=
  if s.closed then s
  else
    let s := { s with closed := true }
    if s.buf = 0 then
      if s.tlsShutdownSent then s.tearDown else { s.unwrap bytes with closer := .flush }
    -- The io fiber sends the close_notify when the buffer is empty.
    else { s with closeWhenDrained := true }.kickIo

/-- A step of the call of `close` that sends the close_notify. -/
def closing (s : State α) (k : Nat) : Closer α → Option (State α)
  | .idle => none
  | .flush => some { s with closer := .pump s.out, out := [] }
  | .pump [] => some s.tearDown
  | .pump view =>
    if k = 0 then some { s with closer := .pumpWait view }
    else if k ≤ view.length then
      some { s with sent := s.sent ++ view.take k, closer := .pump (view.drop k) }
    else none
  | .pumpWait view => some { s with closer := .pump view }

/-- The top of `_io_loop`. -/
def top (s : State α) (bytes : List α) : State α :=
  if s.stopping then { s with ioG := false, io := .exited }
  else if s.readEof && s.buf == 0 && !s.closed && !s.tlsShutdownSent then
    { s.unwrap bytes with io := .flush .notified }
  else if (s.paused || s.readEof || s.closed) && s.buf == 0 then
    { s with ioG := false, io := .exited }
  else { s with io := .outer }

/-- After the park of `_io_loop`. -/
def ready (s : State α) (writable : Bool) : State α :=
  if s.stopping then { s with io := .exited }
  else if writable && s.buf != 0 then { s with io := .encrypt }
  else { s with io := .loop }

/-- The mask is computed after the close_notify, and the fiber parks or exits. -/
def afterNotify (s : State α) : State α :=
  if (s.paused || s.readEof || s.closed) && s.buf == 0 then { s with ioG := false, io := .exited }
  else { s with io := .outer }

/-- The rest of `_drain_step`, after `send` took `n` bytes. -/
def afterSend (s : State α) (n : Nat) (bytes : List α) : State α :=
  let s := { s with buf := s.buf - n }
  if s.buf = 0 && s.closeWhenDrained && !s.stopping then
    if s.tlsShutdownSent then
      { s with closeWhenDrained := false, stopping := true, io := .loop }
    else { s.unwrap bytes with io := .flush .drained }
  else { s with io := .loop }

def pumped (s : State α) (bytes : List α) : After → State α
  | .consumed n => s.afterSend n bytes
  | .retry => { s with io := .feed }
  | .notified => s.afterNotify
  | .drained => { s with closeWhenDrained := false, stopping := true, io := .loop }

end State

def step (s : State α) : Action α → Option (State α)
  | .start => if s.ioG then none else some { s with ioG := true, io := .loop }
  | .write n => some (s.write n)
  | .pauseReading => some { s with paused := true }
  | .resumeReading => some s.resumeReading
  | .close bytes => some (s.close bytes)
  | .closing k => s.closing k s.closer
  | .top bytes =>
    match s.io with
    | .loop => some (s.top bytes)
    | _ => none
  | .ready writable eof =>
    match s.io with
    | .outer => some ({ s with readEof := s.readEof || eof }.ready writable)
    | _ => none
  | .encrypt bytes n =>
    match s.io with
    | .encrypt =>
      if n ≤ s.buf then
        some { s with
          out := s.out ++ bytes,
          produced := s.produced ++ bytes,
          io := .flush (if n = 0 then .retry else .consumed n) }
      else none
    | _ => none
  | .flush =>
    match s.io with
    | .flush k => some { s with io := .pump s.out k, out := [] }
    | _ => none
  | .rawSend k =>
    match s.io with
    | .pump view after =>
      if view = [] then none
      else if k = 0 then some { s with io := .pumpWait view after }
      else if k ≤ view.length then
        some { s with sent := s.sent ++ view.take k, io := .pump (view.drop k) after }
      else none
    | _ => none
  | .wake =>
    match s.io with
    | .pumpWait view k => some { s with io := .pump view k }
    | .readWait => some { s with io := .encrypt }
    | _ => none
  | .feed blocked =>
    match s.io with
    | .feed => some { s with io := if blocked then .readWait else .encrypt }
    | _ => none
  | .pumped bytes =>
    match s.io with
    | .pump [] k => some (s.pumped bytes k)
    | _ => none

structure Init (s : State α) : Prop where
  io : s.io = .exited
  ioG : s.ioG = false
  closer : s.closer = .idle
  buf : s.buf = 0
  closed : s.closed = false
  stopping : s.stopping = false
  closeWhenDrained : s.closeWhenDrained = false
  tlsShutdownSent : s.tlsShutdownSent = false
  out : s.out = []
  produced : s.produced = []
  sent : s.sent = []
  lost : s.lost = false

def transport : System (State α) (Action α) where
  init := Init
  step := step

end Runloom.TlsStream
