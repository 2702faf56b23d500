import Runloom.Transition.System

/-!
# The thread pool of fibers

Model of `CoThreadPoolExecutor` with an initializer: `submit`, the task it spawns, `_run_initializer` and `shutdown`.
A step is a section under `_guard`, a read or a store outside of it, an operation of `_sem` or of `_init_done`, or a
change of the state of a future.

Futures may be cancelled at any time, so the set that `shutdown` goes through is left out.
-/

namespace Runloom.Executor

open Transition

inductive Refusal where
  /-- `RuntimeError`, "cannot schedule new futures after shutdown". -/
  | shutdown
  /-- `BrokenThreadPool`. -/
  | broken
deriving DecidableEq

/-- What the future of a task ends with. -/
inductive Outcome where
  | cancelled
  /-- `BrokenThreadPool`. -/
  | broken
  | result
  | error
deriving DecidableEq

inductive Pc where
  | idle
  /-- `submit`: the two reads before the guard, and the section. -/
  | subShutdown
  | subBroken
  | subGuard
  | refused (r : Refusal)
  /-- The task, before `sem.acquire()`. -/
  | acquire
  /-- Before `set_running_or_notify_cancel`. -/
  | start
  /-- `_run_initializer`: `_init_done.is_set()`, and the read of `_broken`. -/
  | isDone
  | isBroken
  | elect
  | await
  | initCall
  | initRunning
  /-- Before the store of `_broken`. -/
  | publish
  /-- Before `_init_done.set()`. -/
  | setDone (ok : Bool)
  | fnCall
  | fnRunning
  | settle (o : Outcome)
  /-- Before `sem.release()`. -/
  | release (o : Outcome)
  /-- Before `_task_done`. -/
  | taskDone (o : Outcome)
  | ended (o : Outcome)
deriving DecidableEq

structure State (C : Type*) where
  shutdown : Bool
  broken : Bool
  initStarted : Bool
  initDone : Bool
  /-- The permits of `_sem` that are free. -/
  sem : ℕ
  pc : C → Pc
  cancelled : C → Bool
  calls : ℕ
  returned : Bool
  raised : Bool
  late : C → Bool

inductive Action (C : Type*) where
  | submit (c : C)
  | run (c : C)
  | initEnds (c : C) (ok : Bool)
  | fnEnds (c : C) (ok : Bool)
  | cancel (c : C)
  | shutdown

variable {C : Type*} [DecidableEq C]

namespace State

def goto (s : State C) (c : C) (pc : Pc) : State C := { s with pc := update s.pc c pc }

/-- What a section of `submit` finds. -/
def refusal (s : State C) : Option Refusal :=
  -- A pool that is both says that it is shut down.
  if s.shutdown then some .shutdown else if s.broken then some .broken else none

def run (s : State C) (c : C) : Option (State C) :=
  match s.pc c with
  | .subShutdown => some (s.goto c (if s.shutdown then .refused .shutdown else .subBroken))
  | .subBroken => some (s.goto c (if s.broken then .refused .broken else .subGuard))
  | .subGuard =>
    match s.refusal with
    | some r => some (s.goto c (.refused r))
    | none => some (s.goto c .acquire)
  | .acquire => if 0 < s.sem then some ({ s with sem := s.sem - 1 }.goto c .start) else none
  | .start => some (s.goto c (if s.cancelled c then .release .cancelled else .isDone))
  | .isDone => some (s.goto c (if s.initDone then .isBroken else .elect))
  | .isBroken => some (s.goto c (if s.broken then .settle .broken else .fnCall))
  -- Both flags are read again under the guard; without an election the task waits for the one that won it.
  | .elect =>
    if s.broken then some (s.goto c (.settle .broken))
    else if s.initDone then some (s.goto c .fnCall)
    else if s.initStarted then some (s.goto c .await)
    else some ({ s with initStarted := true }.goto c .initCall)
  | .await => if s.initDone then some (s.goto c .isBroken) else none
  | .initCall => some ({ s with calls := s.calls + 1 }.goto c .initRunning)
  -- `_broken` is stored before the event is set, so who sees the event sees it too.
  | .publish => some ({ s with broken := true }.goto c (.setDone false))
  | .setDone ok => some ({ s with initDone := true }.goto c (if ok then .fnCall else .settle .broken))
  | .fnCall => some (s.goto c .fnRunning)
  | .settle o => some (s.goto c (.release o))
  | .release o => some ({ s with sem := s.sem + 1 }.goto c (.taskDone o))
  | .taskDone o => some (s.goto c (.ended o))
  | _ => none

end State

def step (s : State C) : Action C → Option (State C)
  | .submit c =>
    match s.pc c with
    | .idle => some ({ s with late := update s.late c s.raised }.goto c .subShutdown)
    | _ => none
  | .run c => s.run c
  | .initEnds c ok =>
    match s.pc c with
    | .initRunning =>
      if ok then some ({ s with returned := true }.goto c (.setDone true))
      else some ({ s with raised := true }.goto c .publish)
    | _ => none
  | .fnEnds c ok =>
    match s.pc c with
    | .fnRunning => some (s.goto c (.settle (if ok then .result else .error)))
    | _ => none
  | .cancel c =>
    match s.pc c with
    | .acquire | .start => some { s with cancelled := update s.cancelled c true }
    | _ => none
  | .shutdown => some { s with shutdown := true }

structure Init (maxWorkers : ℕ) (s : State C) : Prop where
  shutdown : s.shutdown = false
  broken : s.broken = false
  initStarted : s.initStarted = false
  initDone : s.initDone = false
  sem : s.sem = maxWorkers
  pc : ∀ c, s.pc c = .idle
  cancelled : ∀ c, s.cancelled c = false
  calls : s.calls = 0
  returned : s.returned = false
  raised : s.raised = false
  late : ∀ c, s.late c = false

/-- An executor; `__init__` refuses a pool without workers. -/
def executor (C : Type*) [DecidableEq C] (maxWorkers : ℕ) : System (State C) (Action C) where
  init s := 0 < maxWorkers ∧ Init maxWorkers s
  step := step

end Runloom.Executor
