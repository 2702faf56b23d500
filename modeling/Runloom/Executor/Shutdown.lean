import Mathlib.Data.Finset.Basic
import Runloom.Executor.Model

/-!
# The futures in flight and the shutdown of the pool

Model of `_pending` and `_idle` of `CoThreadPoolExecutor`, over the model of its tasks: `submit` enters the future
into the set before it starts the task, `_task_done` takes it out, and `shutdown` cancels the futures of the set and
waits for the event.  Starting the fiber of a task may raise, as it does when the limit of fibers is reached; `submit`
then raises.
-/

namespace Runloom.Executor

open Transition

/-- Where the end of a call of `submit` is. -/
inductive Start where
  | unstarted
  | spawning
  /-- `_spawn(task)` has raised. -/
  | failed
  | fiber
  /-- The task runs inside of `submit`. -/
  | inline
deriving DecidableEq

/-- Where a call of `shutdown` is. -/
inductive Shut (C : Type*) where
  | idle
  | cancelling (left : Finset C) (wait : Bool)
  /-- Before `_idle.wait()`. -/
  | waiting
  | returned
deriving DecidableEq

structure Pool (C T : Type*) where
  core : State C
  pending : Finset C
  /-- `_idle` is set. -/
  idle : Bool
  start : C → Start
  shut : T → Shut C

inductive PoolAction (C T : Type*) where
  | submit (c : C)
  | run (c : C)
  | initEnds (c : C) (ok : Bool)
  | fnEnds (c : C) (ok : Bool)
  | cancel (c : C)
  /-- `_spawn(task)` returns, or raises. -/
  | spawn (c : C) (ok : Bool)
  /-- There is no live runtime, and `task()` is called. -/
  | inline (c : C)
  /-- `shutdown`, up to the end of its section. -/
  | shutdown (t : T) (wait cancelFutures : Bool)
  /-- `fut.cancel()` in the loop of `shutdown`. -/
  | cancelNext (t : T) (c : C)
  | cancelled (t : T)
  /-- `_idle.wait()` returns. -/
  | waited (t : T)

namespace Pool

variable {C T : Type*} [DecidableEq C] [DecidableEq T]

/-- The next step of a submission or of its task. -/
def next (initializer : Bool) (p : Pool C T) (c : C) : Option (State C) :=
  if initializer = false ∧ p.core.pc c = .isDone then some (p.core.goto c .fnCall) else p.core.run c

def run (initializer : Bool) (p : Pool C T) (c : C) : Option (Pool C T) :=
  match p.start c with
  | .spawning | .failed => none
  | _ =>
    match p.next initializer c with
    | none => none
    | some core =>
      match p.core.pc c with
      | .subGuard =>
        if p.core.refusal = none then
          some { p with
            core := core, pending := insert c p.pending, idle := false,
            start := update p.start c .spawning }
        else some { p with core := core }
      | .taskDone _ =>
        -- `_task_done`: the event is set when this was the last future of the set
        let pending := p.pending.erase c
        some { p with core := core, pending := pending, idle := p.idle || decide (pending = ∅) }
      | _ => some { p with core := core }

/-- `fut.cancel()`: a future that is running, or is done, refuses. -/
def cancelFuture (p : Pool C T) (c : C) : Pool C T :=
  match Executor.step p.core (.cancel c) with
  | none => p
  | some core => { p with core := core }

def lift (p : Pool C T) (a : Action C) : Option (Pool C T) :=
  (Executor.step p.core a).map fun core => { p with core := core }

def step (initializer : Bool) (p : Pool C T) : PoolAction C T → Option (Pool C T)
  | .submit c => p.lift (.submit c)
  | .run c => p.run initializer c
  | .initEnds c ok => p.lift (.initEnds c ok)
  | .fnEnds c ok => p.lift (.fnEnds c ok)
  | .cancel c => p.lift (.cancel c)
  | .spawn c ok =>
    match p.start c with
    | .spawning => some { p with start := update p.start c (if ok then .fiber else .failed) }
    | _ => none
  | .inline c =>
    match p.start c with
    | .spawning => some { p with start := update p.start c .inline }
    | _ => none
  | .shutdown t wait cancelFutures =>
    match p.shut t with
    | .idle | .returned =>
      some { p with
        core := { p.core with shutdown := true },
        shut := update p.shut t (.cancelling (if cancelFutures then p.pending else ∅) wait) }
    | _ => none
  | .cancelNext t c =>
    match p.shut t with
    | .cancelling left wait =>
      if c ∈ left then
        some { p.cancelFuture c with shut := update p.shut t (.cancelling (left.erase c) wait) }
      else none
    | _ => none
  | .cancelled t =>
    match p.shut t with
    | .cancelling left wait =>
      if left = ∅ then some { p with shut := update p.shut t (if wait then .waiting else .returned) }
      else none
    | _ => none
  | .waited t =>
    match p.shut t with
    | .waiting => if p.idle then some { p with shut := update p.shut t .returned } else none
    | _ => none

end Pool

structure Pool.Init {C T : Type*} (maxWorkers : ℕ) (p : Pool C T) : Prop where
  core : Executor.Init maxWorkers p.core
  pending : p.pending = ∅
  idle : p.idle = true
  start : ∀ c, p.start c = .unstarted
  shut : ∀ t, p.shut t = .idle

/-- An executor with the calls of its `shutdown`. -/
def pool (C T : Type*) [DecidableEq C] [DecidableEq T] (maxWorkers : ℕ) (initializer : Bool) :
    System (Pool C T) (PoolAction C T) where
  init p := 0 < maxWorkers ∧ p.Init maxWorkers
  step := Pool.step initializer

end Runloom.Executor
