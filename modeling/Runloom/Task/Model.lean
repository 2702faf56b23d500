import Runloom.Transition.System

/-!
# The task driver

Model of `RunloomTask`: the fiber that drives a coroutine, the calls of `cancel` and `uncancel`, and the futures it
awaits with their done-callbacks.

A step is one section between two points where the fiber can lose the processor: a call of `coro.send` or
`coro.throw`, `park_self`, and `sched_yield_classic`.
-/

namespace Runloom.Task

open Transition

/-- How a future or a task is settled. -/
inductive Outcome (E : Type*) where
  | result
  | cancelled
  | exception (e : E)
deriving DecidableEq

inductive Exc (E M : Type*) where
  /-- `self._make_cancelled_error()`. -/
  | cancelled (msg : Option M)
  /-- `_fut_cancelled_error(yielded)`. -/
  | futureCancelled
  | exception (e : E)
  | runtimeError
deriving DecidableEq

inductive Delivery (E M : Type*) where
  | send
  | throw (exc : Exc E M)
deriving DecidableEq

/-- A resumption of the coroutine. -/
structure Resume (F E M : Type*) where
  awaited : Option F
  got : Delivery E M
  outcome : Option (Outcome E)
  consumed : Bool
  early : Bool
  refused : Bool
deriving DecidableEq

inductive Pc (F E M : Type*) where
  | unspawned
  | created
  /-- The top of the loop, with `throw_exc`. -/
  | top (awaited : Option F) (throwExc : Option (Exc E M)) (consumed : Bool)
  /-- Inside `coro.send` or `coro.throw`. -/
  | running
  /-- In `sched_yield_classic`. -/
  | bare
  /-- Before `park_self`. -/
  | parking (f : F)
  | parked (f : F)
  | woken (f : F)
  /-- `park_self` has returned. -/
  | returned (f : F)
  | finished
deriving DecidableEq

structure State (F E M : Type*) where
  pc : Pc F E M
  /-- `_self_g` is set. -/
  selfG : Bool
  /-- `_pgmustcancel`. -/
  mustCancel : Bool
  /-- `_cancel_requested`. -/
  cancelRequested : Bool
  /-- `_pgnumcancels`. -/
  numCancels : Nat
  /-- `_pgcancelmsg`. -/
  cancelMsg : Option M
  /-- `_pgfutwaiter`. -/
  futWaiter : Option F
  /-- `wake_pending` of the fiber. -/
  credit : Nat
  fut : F → Option (Outcome E)
  /-- How often `_wake_unpark` is among the callbacks of a future. -/
  callbacks : F → Nat
  /-- Calls of `_wake_unpark` that are still to run. -/
  calls : Nat
  settled : List (Outcome E)
  log : List (Resume F E M)
  awaits : Nat
  /-- The calls of `cancel` that found the task not done. -/
  cancels : Nat
  /-- The calls of `cancel` on awaited futures. -/
  asked : List (F × Option M)
  early : Bool
  refused : Bool

inductive Action (F E M : Type*) where
  | spawn
  | start
  | resume
  | await (f : F)
  | yieldNone
  | yieldOther
  | finish (o : Outcome E)
  /-- `sched_yield_classic` returns. -/
  | rescheduled
  | park
  | unpark
  | check
  /-- `cancel(msg)`; `taken` and `netpoll` are the answers of the future and of `cancel_wait_fd`. -/
  | cancel (msg : Option M) (taken netpoll : Bool)
  | uncancel
  | complete (f : F) (o : Outcome E)
  | callback
  | wake
  | innerPark

variable {F E M : Type*}

def Outcome.throwExc : Outcome E → Option (Exc E M)
  | .result => none
  | .cancelled => some .futureCancelled
  | .exception e => some (.exception e)

namespace State

/-- `runloom_sched_wake_safe`. -/
def wakeSafe (s : State F E M) : State F E M :=
  { s with
    credit := s.credit + 1,
    pc := match s.pc with
      | .parked f => .woken f
      | pc => pc }

def settle (s : State F E M) (o : Outcome E) : State F E M :=
  { s with
    settled := if s.settled = [] then s.settled ++ [o] else s.settled,
    selfG := false,
    pc := .finished }

/-- `_pg_spawn_driver`. -/
def spawnDriver (s : State F E M) : State F E M :=
  -- A task that is cancelled before it is spawned never runs its coroutine.
  if s.cancelRequested then s.settle .cancelled else { s with pc := .created }

/-- The coroutine is resumed with `throwExc`, or with a pending cancel. -/
def resume (s : State F E M) (awaited : Option F) (throwExc : Option (Exc E M)) (consumed : Bool) :
    State F E M :=
  let deliver := s.mustCancel && throwExc.isNone
  let got := if deliver then .throw (.cancelled s.cancelMsg) else
    match throwExc with
    | none => .send
    | some exc => .throw exc
  { s with
    mustCancel := s.mustCancel && !deliver,
    log := s.log ++ [⟨awaited, got, awaited.bind s.fut, consumed || deliver, s.early, s.refused⟩],
    pc := .running }

variable [DecidableEq F]

/-- The coroutine awaits `f`: the fast path, or the registration before the park. -/
def await (s : State F E M) (f : F) : State F E M :=
  let s := { s with awaits := s.awaits + 1, refused := false }
  match s.fut f with
  | some o => { s with pc := .top (some f) o.throwExc false }
  | none =>
    { s with
      callbacks := update s.callbacks f (s.callbacks f + 1),
      futWaiter := some f,
      pc := .parking f }

/-- After the park; `equality` says how the future's `remove_done_callback` compares. -/
def check (s : State F E M) (equality : F → Bool) (f : F) : State F E M :=
  match s.mustCancel, s.fut f with
  -- The wake was not for this await.
  | false, none => { s with pc := .parking f }
  -- A pending cancel goes before the result of the future.
  | true, _ =>
    { s with
      futWaiter := none,
      mustCancel := false,
      callbacks := if equality f then update s.callbacks f 0 else s.callbacks,
      pc := .top (some f) (some (.cancelled s.cancelMsg)) true }
  | false, some o => { s with futWaiter := none, pc := .top (some f) o.throwExc false }

omit [DecidableEq F] in
/-- `cancel` of a task that is not done. -/
def cancel (s : State F E M) (msg : Option M) (taken netpoll : Bool) : Option (State F E M) :=
  let s := { s with
    cancelRequested := true, cancelMsg := msg, numCancels := s.numCancels + 1,
    cancels := s.cancels + 1 }
  match s.futWaiter with
  | some f =>
    let s := { s with asked := s.asked ++ [(f, msg)] }
    -- What the future says to `cancel`; if it takes the request, the task hears of it through the future.
    if taken then
      if (s.fut f).isNone then some s else none
    else some { s with mustCancel := true, early := s.early && s.mustCancel, refused := true }
  | none =>
    let s := { s with mustCancel := true, early := true }
    if s.selfG then
      match netpoll, s.pc with
      | false, _ => some s.wakeSafe
      | true, .running => some s
      | true, _ => none
    else some s

def uncancel (s : State F E M) : State F E M :=
  let s := { s with numCancels := s.numCancels - 1 }
  if s.numCancels = 0 then { s with cancelRequested := false, mustCancel := false } else s

def complete (s : State F E M) (f : F) (o : Outcome E) : State F E M :=
  { s with
    fut := update s.fut f (some o),
    calls := s.calls + s.callbacks f,
    callbacks := update s.callbacks f 0 }

end State

variable [DecidableEq F]

def drive (equality : F → Bool) (s : State F E M) : Action F E M → Pc F E M → Option (State F E M)
  | .spawn, .unspawned => some s.spawnDriver
  | .start, .created => some { s with selfG := true, pc := .top none none false }
  | .resume, .top awaited throwExc consumed => some (s.resume awaited throwExc consumed)
  | .await f, .running => some (s.await f)
  | .yieldNone, .running => some { s with pc := .bare }
  | .yieldOther, .running => some { s with pc := .top none (some .runtimeError) false }
  | .finish o, .running => some (s.settle o)
  | .innerPark, .running => some { s with credit := s.credit - 1 }
  | .rescheduled, .bare => some { s with pc := .top none none false }
  | .park, .parking f =>
    -- `runloom_sched_park_safe`: a credit makes the park a no-op.
    if s.credit = 0 then some { s with pc := .parked f }
    else some { s with credit := s.credit - 1, pc := .returned f }
  | .unpark, .woken f => some { s with credit := s.credit - 1, pc := .returned f }
  | .check, .returned f => some (s.check equality f)
  | _, _ => none

def step (equality : F → Bool) (s : State F E M) : Action F E M → Option (State F E M)
  | .cancel msg taken netpoll =>
    if s.settled = [] then s.cancel msg taken netpoll else some s
  | .uncancel => some s.uncancel
  | .complete f o =>
    match s.fut f with
    | none => some (s.complete f o)
    | some _ => none
  | .callback =>
    if s.calls = 0 then none
    else
      let s := { s with calls := s.calls - 1 }
      some (if s.selfG then s.wakeSafe else s)
  | .wake =>
    match s.pc with
    | .unspawned => none
    | .finished => none
    | _ => some s.wakeSafe
  | a => drive equality s a s.pc

structure Init (s : State F E M) : Prop where
  pc : s.pc = .unspawned
  selfG : s.selfG = false
  mustCancel : s.mustCancel = false
  cancelRequested : s.cancelRequested = false
  numCancels : s.numCancels = 0
  futWaiter : s.futWaiter = none
  credit : s.credit = 0
  callbacks : ∀ f, s.callbacks f = 0
  calls : s.calls = 0
  settled : s.settled = []
  log : s.log = []
  awaits : s.awaits = 0
  cancels : s.cancels = 0
  asked : s.asked = []

/-- A task with its driver, over the futures `F`. -/
def driver (equality : F → Bool) : System (State F E M) (Action F E M) where
  init := Init
  step := step equality

end Runloom.Task
