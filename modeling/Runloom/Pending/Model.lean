import Mathlib.Algebra.BigOperators.Fin
import Runloom.Transition.System

/-!
# The termination test of an M:N run

Model of the sharded `pending` counters of `mn_sched_runq.c.inc` and of the poll loop of `runloom_mn_run`.  Each hub
keeps its own counter; `runloom_mn_run` adds them up, one atomic load after the other in index order, and leaves its
loop when the sum is zero.

One step is one atomic add or sub of one counter, one load of the scan, or a move of a fiber between queues.
-/

namespace Runloom.Pending

open Transition

/-- `counted` is the window of `runloom_mn_fiber_core` between the increment and the submit; `queued` covers a hub's
own queues; `runq` is the global run queue. -/
inductive Phase (n : ℕ) where
  | fresh
  | counted (spawner : Option (Fin n))
  | queued (h : Fin n)
  | runq
  | held (h : Fin n)
  | parked (h : Fin n)
  | done
deriving DecidableEq

/-- A steal takes the fiber off the victim's deque, then bumps the thief's counter, then drops the victim's. -/
inductive HubPc (n : ℕ) where
  | idle
  | running (f : ℕ)
  | spawning (f : ℕ) (first count : ℕ) (target : Fin n)
  | stole (f : ℕ) (victim : Fin n)
  | bumped (f : ℕ) (victim : Fin n)

/-- The thread that calls `runloom_mn_run` may spawn before the call. -/
inductive MainPc (n : ℕ) where
  | setup
  | spawning (first count : ℕ) (target : Fin n)
  | scan (i : ℕ) (total : ℤ)
  | left
deriving DecidableEq

structure State (n : ℕ) where
  pending : Fin n → ℤ
  hub : Fin n → HubPc n
  fiber : ℕ → Phase n
  spawned : ℕ
  main : MainPc n

inductive Action (n : ℕ) where
  | mainSpawn (target : Fin n) (count : ℕ)
  | mainPublish
  | poll
  | spawn (h target : Fin n) (count : ℕ)
  | publish (h : Fin n)
  | pull (h : Fin n) (f : ℕ)
  | yield (h : Fin n)
  | park (h : Fin n)
  | wake (f : ℕ) (global : Bool)
  | complete (h : Fin n)
  | steal (h : Fin n) (f : ℕ)
  | stealInc (h : Fin n)
  | stealDec (h : Fin n)
deriving DecidableEq

variable {n : ℕ}

/-- `runloom_mn_pending_inc`, and the bulk add of `runloom_mn_fiber_n_bulk`. -/
def pendingAdd (p : Fin n → ℤ) (h : Fin n) (c : ℤ) : Fin n → ℤ := update p h (p h + c)

/-- The fibers `first, …, first + count - 1` all move to one phase. -/
def setBlock (fiber : ℕ → Phase n) (first count : ℕ) (ph : Phase n) : ℕ → Phase n :=
  fun f => if first ≤ f ∧ f < first + count then ph else fiber f

/-- The increment of a spawn: the new fibers are counted and not yet published. -/
def countBlock (s : State n) (spawner : Option (Fin n)) (target : Fin n) (count : ℕ) : State n :=
  { s with
    pending := pendingAdd s.pending target count
    fiber := setBlock s.fiber s.spawned count (.counted spawner)
    spawned := s.spawned + count }

/-- The scan of `runloom_mn_run`: the next load, or the test once every hub was read. -/
def pollStep (s : State n) : Option (State n) :=
  match s.main with
  | .setup => some { s with main := .scan 0 0 }
  | .scan i total =>
    if hi : i < n then some { s with main := .scan (i + 1) (total + s.pending ⟨i, hi⟩) }
    -- The sum is over loads at different times.
    else if total = 0 then some { s with main := .left }
    else some { s with main := .scan 0 0 }
  | _ => none

def step (s : State n) : Action n → Option (State n)
  | .mainSpawn target count =>
    match s.main with
    | .setup =>
      some { countBlock s none target count with main := .spawning s.spawned count target }
    | _ => none
  | .mainPublish =>
    match s.main with
    | .spawning first count target =>
      some { s with
        fiber := setBlock s.fiber first count (.queued target)
        main := .setup }
    | _ => none
  | .poll => pollStep s
  | .spawn h target count =>
    match s.hub h with
    | .running f =>
      some { countBlock s (some h) target count with
        hub := update s.hub h (.spawning f s.spawned count target) }
    | _ => none
  | .publish h =>
    match s.hub h with
    | .spawning f first count target =>
      some { s with
        fiber := setBlock s.fiber first count (.queued target)
        hub := update s.hub h (.running f) }
    | _ => none
  | .pull h f =>
    -- the hub's own queues, or the global run queue
    match s.hub h with
    | .idle =>
      if s.fiber f = .queued h ∨ s.fiber f = .runq then
        some { s with
          fiber := update s.fiber f (.held h)
          hub := update s.hub h (.running f) }
      else none
    | _ => none
  | .yield h =>
    match s.hub h with
    | .running f =>
      some { s with
        fiber := update s.fiber f (.queued h)
        hub := update s.hub h .idle }
    | _ => none
  | .park h =>
    match s.hub h with
    | .running f =>
      some { s with
        fiber := update s.fiber f (.parked h)
        hub := update s.hub h .idle }
    | _ => none
  | .wake f global =>
    match s.fiber f with
    | .parked h =>
      some { s with fiber := update s.fiber f (if global then .runq else .queued h) }
    | _ => none
  | .complete h =>
    -- `runloom_mn_pending_complete` on the hub that ran the fiber
    match s.hub h with
    | .running f =>
      some { s with
        pending := pendingAdd s.pending h (-1)
        fiber := update s.fiber f .done
        hub := update s.hub h .idle }
    | _ => none
  -- From the steal to the second addition the fiber counts for the victim, or for both.
  | .steal h f =>
    match s.hub h, s.fiber f with
    | .idle, .queued victim =>
      some { s with
        fiber := update s.fiber f (.held h)
        hub := update s.hub h (.stole f victim) }
    | _, _ => none
  | .stealInc h =>
    match s.hub h with
    | .stole f victim =>
      some { s with
        pending := pendingAdd s.pending h 1
        hub := update s.hub h (.bumped f victim) }
    | _ => none
  | .stealDec h =>
    match s.hub h with
    | .bumped f victim =>
      some { s with
        pending := pendingAdd s.pending victim (-1)
        hub := update s.hub h (.running f) }
    | _ => none

structure Init (s : State n) : Prop where
  pending : ∀ h, s.pending h = 0
  hub : ∀ h, s.hub h = .idle
  fiber : ∀ f, s.fiber f = .fresh
  spawned : s.spawned = 0
  main : s.main = .setup

variable (n) in
/-- A run over `n` hubs. -/
def mnRun : System (State n) (Action n) where
  init := Init
  step := step

def Action.increments : Action n → Option (Fin n)
  | .mainSpawn target _ => some target
  | .spawn _ target _ => some target
  | .stealInc h => some h
  | _ => none

/-- The increment does not land on a counter already read. -/
def AheadOfScan (s : State n) (a : Action n) : Prop :=
  match s.main, a.increments with
  | .scan i _, some h => i ≤ h
  | _, _ => True

instance (s : State n) (a : Action n) : Decidable (AheadOfScan s a) := by
  unfold AheadOfScan
  split <;> infer_instance

end Runloom.Pending
