import Runloom.Transition.System

/-!
# Timers, tickers and deadlines

Model of `Timer` and `Ticker`, and of the waker fiber of `WithDeadline`: a fiber that parks in
`wait_fd` up to a deadline, and calls that stop it, or replace it by the fiber of a new generation.
A step is a section under the object's lock, the link of the netpoll parker inside `wait_fd`, its
wake, or a call of `cancel_wait_fd`, which wakes the fiber only if its parker is linked.
-/

namespace Runloom.Timer

open Transition

inductive Kind where
  | timer
  | ticker

def Kind.oneShot : Kind → Bool
  | .timer => true
  | .ticker => false

/-- Where the fiber of a generation is. -/
inductive Pc where
  | unborn
  | start
  | published
  | parked
  /-- `wait_fd` has returned, or was skipped. -/
  | woken
  /-- Before `try_send`. -/
  | sending
  | finished
deriving DecidableEq

/-- Where a call of `Stop` or `Reset` is. -/
inductive Call where
  | idle
  /-- `Stop`, before `g.cancel_wait_fd()` on the fiber of a generation. -/
  | stopping (g : Nat)
  /-- `Reset` to the generation `gen`, before `g.cancel_wait_fd()`. -/
  | resetting (g gen : Nat)
  /-- `Reset`, before `_spawn(gen)`. -/
  | spawning (gen : Nat)
deriving DecidableEq

structure State (T : Type*) where
  gen : Nat
  stopped : Bool
  fired : Bool
  /-- `_fire_g`, or `_tick_g`: the generation whose fiber is the cancel target. -/
  fireG : Option Nat
  fiber : Nat → Pc
  instant : Nat → Bool
  call : T → Call
  sent : Nat

inductive Action (T : Type*) where
  | stop (t : T)
  | reset (t : T)
  | cancelWait (t : T)
  | spawn (t : T) (instant : Bool)
  | publish (n : Nat)
  | link (n : Nat)
  | wake (n : Nat)
  | recheck (n : Nat)
  | send (n : Nat)

variable {T : Type*} [DecidableEq T]

namespace State

section

omit [DecidableEq T]

def live (s : State T) (n : Nat) : Bool :=
  !s.stopped && s.gen == n

def setFiber (s : State T) (n : Nat) (pc : Pc) : State T :=
  { s with fiber := update s.fiber n pc }

end

def setCall (s : State T) (t : T) (c : Call) : State T :=
  { s with call := update s.call t c }

/-- `Stop`, up to the end of its section. -/
def stop (s : State T) (kind : Kind) (t : T) : State T :=
  if s.stopped || (kind.oneShot && s.fired) then s
  else
    -- The counter moves, so that a fiber that is not parked yet finds itself out of date.
    let s' := { s with stopped := true, gen := s.gen + 1, fireG := none }
    match s.fireG with
    | none => s'
    | some g => s'.setCall t (.stopping g)

/-- `Reset`, up to the end of its section. -/
def reset (s : State T) (t : T) : State T :=
  let s' := { s with gen := s.gen + 1, stopped := false, fired := false, fireG := none }
  match s.fireG with
  | none => s'.setCall t (.spawning (s.gen + 1))
  | some g => s'.setCall t (.resetting g (s.gen + 1))

section

omit [DecidableEq T]

/-- `g.cancel_wait_fd()`. -/
def cancelWaitFd (s : State T) (g : Nat) : State T :=
  match s.fiber g with
  | .parked => s.setFiber g .woken
  | _ => s

def publish (s : State T) (n : Nat) : State T :=
  if s.live n then
    { s with fireG := some n }.setFiber n (if s.instant n then .woken else .published)
  else s.setFiber n .finished

def recheck (s : State T) (kind : Kind) (n : Nat) : State T :=
  if s.live n && !(kind.oneShot && s.fired) then
    { s with fired := s.fired || kind.oneShot, fireG := none }.setFiber n .sending
  else s.setFiber n .finished

end

end State

def step (kind : Kind) (s : State T) : Action T → Option (State T)
  | .stop t =>
    match s.call t with
    | .idle => some (s.stop kind t)
    | _ => none
  | .reset t =>
    match s.call t with
    | .idle => some (s.reset t)
    | _ => none
  | .cancelWait t =>
    match s.call t with
    | .stopping g => some ((s.cancelWaitFd g).setCall t .idle)
    -- The new fiber is spawned only after the old one is told.
    | .resetting g gen => some ((s.cancelWaitFd g).setCall t (.spawning gen))
    | _ => none
  | .spawn t instant =>
    match s.call t with
    | .spawning gen =>
      some ({ s with
        fiber := update s.fiber gen .start,
        instant := update s.instant gen (kind.oneShot && instant) }.setCall t .idle)
    | _ => none
  | .publish n =>
    match s.fiber n with
    | .start => some (s.publish n)
    | _ => none
  | .link n =>
    match s.fiber n with
    | .published => some (s.setFiber n .parked)
    | _ => none
  | .wake n =>
    match s.fiber n with
    | .parked => some (s.setFiber n .woken)
    | _ => none
  | .recheck n =>
    match s.fiber n with
    | .woken => some (s.recheck kind n)
    | _ => none
  | .send n =>
    match s.fiber n with
    | .sending =>
      some ({ s with sent := s.sent + 1 }.setFiber n (if kind.oneShot then .finished else .start))
    | _ => none

/-- After `__init__`: the fiber of generation 0 is spawned. -/
structure Init (s : State T) : Prop where
  gen : s.gen = 0
  stopped : s.stopped = false
  fired : s.fired = false
  fireG : s.fireG = none
  first : s.fiber 0 = .start
  fiber : ∀ n, n ≠ 0 → s.fiber n = .unborn
  call : ∀ t, s.call t = .idle

def timer (kind : Kind) : System (State T) (Action T) where
  init := Init
  step := step kind

end Runloom.Timer

/-! ## The waker of `WithDeadline` -/

namespace Runloom.Deadline

open Transition

inductive Pc where
  | start
  /-- The handle is published; before the test of `_err`. -/
  | testing
  /-- `_err` was `None`; the parker is not linked yet. -/
  | arming
  | parked
  /-- The deadline has passed; before the last test of `_err`. -/
  | expired
  /-- In `_cancel(DEADLINE_EXCEEDED)`, before its section. -/
  | cancelling
  | finished
deriving DecidableEq

structure State (T : Type*) where
  /-- `_err` is set. -/
  err : Bool
  /-- `_deadline_g` is the waker. -/
  deadlineG : Bool
  waker : Pc
  /-- A call of `_cancel` is before `g.cancel_wait_fd()`. -/
  waking : T → Bool

inductive Action (T : Type*) where
  /-- The section of `_cancel`. -/
  | cancel (t : T)
  | cancelWait (t : T)
  | publish
  /-- A test of `_err`, and of the time that is left. -/
  | test (expired : Bool)
  | link
  | wake
  | expire
  | fire

variable {T : Type*} [DecidableEq T]

def step (s : State T) : Action T → Option (State T)
  | .cancel t =>
    if s.waking t then none
    else if s.err then some s
    else
      some { s with
        err := true,
        deadlineG := false,
        waking := Function.update s.waking t s.deadlineG }
  | .cancelWait t =>
    if s.waking t then
      some { s with
        waking := Function.update s.waking t false,
        waker := match s.waker with
          | .parked => .testing
          | pc => pc }
    else none
  | .publish =>
    match s.waker with
    | .start => some { s with deadlineG := true, waker := .testing }
    | _ => none
  | .test expired =>
    match s.waker with
    | .testing =>
      some { s with
        waker := if s.err then .expired else if expired then .expired else .arming }
    | _ => none
  | .link =>
    match s.waker with
    | .arming => some { s with waker := .parked }
    | _ => none
  | .wake =>
    match s.waker with
    | .parked => some { s with waker := .testing }
    | _ => none
  | .expire =>
    match s.waker with
    | .expired => some { s with waker := if s.err then .finished else .cancelling }
    | _ => none
  | .fire =>
    match s.waker with
    | .cancelling =>
      -- The waker's own handle is not parked, so its `cancel_wait_fd` does nothing.
      some { s with
        err := true,
        deadlineG := if s.err then s.deadlineG else false,
        waker := .finished }
    | _ => none

structure Init (s : State T) : Prop where
  err : s.err = false
  deadlineG : s.deadlineG = false
  waker : s.waker = .start
  waking : ∀ t, s.waking t = false

def deadline : System (State T) (Action T) where
  init := Init
  step := step

end Runloom.Deadline
