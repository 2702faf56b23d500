import Mathlib.Algebra.BigOperators.Fin
import Runloom.Transition.System

/-!
# The per-fiber wake state machine

Model of the global run-queue mode: `runloom_mn_wake_g`, the run queue of `mn_sched_runq.c.inc`, the claim and the
release of `runloom_hub_main`, the idle-stack sweep and the timer claim. Every access to `wake_state`, to a reference
count and to the queue under its lock is one step.

An actor is a hub, or a helper: any thread inside `runloom_mn_wake_g` or inside the sweep's claim and release. A hub's
ready ring and deque are one local queue; fibers are neither spawned nor completed here.
-/

namespace Runloom.WakeState

open Transition

/-- `g->wake_state`. -/
inductive Ws where
  | parked
  | queued
  | running
  | runningWoken
  | sweeping
  | sweepingWoken
deriving DecidableEq

/-- The events of `runloom_ws_table`. -/
inductive Ev where
  | wake
  | pull
  | release
  | sweepClaim
  | sweepRelease
  | timerClaim

/-- `runloom_ws_table`; `none` is `RUNLOOM_FSM_INVALID`. -/
def wsTable : Ws → Ev → Option Ws
  | .parked, .wake => some .queued
  | .parked, .sweepClaim => some .sweeping
  | .parked, .timerClaim => some .running
  | .parked, _ => none
  | .queued, .wake => some .queued
  | .queued, .pull => some .running
  | .queued, .sweepClaim => some .queued
  | .queued, .timerClaim => some .queued
  | .queued, _ => none
  | .running, .wake => some .runningWoken
  | .running, .release => some .parked
  | .running, .sweepClaim => some .running
  | .running, _ => none
  | .runningWoken, .wake => some .runningWoken
  | .runningWoken, .release => some .queued
  | .runningWoken, .sweepClaim => some .runningWoken
  | .runningWoken, _ => none
  | .sweeping, .wake => some .sweepingWoken
  | .sweeping, .sweepClaim => some .sweeping
  | .sweeping, .sweepRelease => some .parked
  | .sweeping, _ => none
  | .sweepingWoken, .wake => some .sweepingWoken
  | .sweepingWoken, .sweepClaim => some .sweepingWoken
  | .sweepingWoken, .sweepRelease => some .queued
  | .sweepingWoken, _ => none

/-- The relation `RUNLOOM_WS_NOTE` checks. -/
def Edge (u v : Ws) : Prop := ∃ e, wsTable u e = some v

instance (u v : Ws) : Decidable (Edge u v) :=
  decidable_of_iff (∃ e ∈ [Ev.wake, .pull, .release, .sweepClaim, .sweepRelease, .timerClaim],
    wsTable u e = some v) ⟨fun ⟨e, _, h⟩ => ⟨e, h⟩, fun ⟨e, h⟩ => ⟨e, by cases e <;> simp, h⟩⟩

inductive Actor (n : ℕ) where
  | hub (h : Fin n)
  | helper (i : ℕ)
deriving DecidableEq

/-- The accesses of an enqueue: the queue reference, then `runloom_mn_global_runq_push`. -/
inductive Stage where
  | incref
  | acquire
  | link
  | len
  | unlock
deriving DecidableEq

/-- `fromRunq`: the hub still owns the queue reference of the entry it pulled; `selfQueued`: the yielding fiber is
already on the local queue. -/
inductive Pc where
  | idle
  | wake (g : ℕ) (st : Ws)
  | push (g : ℕ) (fromRunq : Bool) (stage : Stage)
  | sweep (g : ℕ)
  | sweepStore (g : ℕ)
  | pullAcquire
  | pullTake
  | pullLen (g : ℕ)
  | pullUnlock (g : Option ℕ)
  | claim (g : ℕ)
  | running (g : ℕ) (fromRunq : Bool)
  | parkCas (g : ℕ) (fromRunq : Bool)
  | parkStore (g : ℕ) (fromRunq : Bool)
  | decref (g : ℕ)
  | yieldStore (g : ℕ) (fromRunq selfQueued : Bool)
  | yieldDecref (g : ℕ) (selfQueued : Bool)
  | readyPush (g : ℕ)
deriving DecidableEq

structure State (n : ℕ) where
  ws : ℕ → Ws
  refs : ℕ → ℤ
  runq : List ℕ
  len : ℤ
  lock : Option (Actor n)
  fifo : Fin n → List ℕ
  pc : Actor n → Pc

/-- `next` is the actor's next access; the others begin an operation. -/
inductive Action (n : ℕ) where
  | next (a : Actor n)
  | wake (i : ℕ) (g : ℕ)
  | sweepClaim (i : ℕ) (g : ℕ)
  | startPull (h : Fin n)
  | timerClaim (h : Fin n) (g : ℕ)
  | readyPop (h : Fin n)
  | park (h : Fin n)
  | yieldCurrent (h : Fin n)
  | rawYield (h : Fin n)

variable {n : ℕ}

def State.goto (s : State n) (a : Actor n) (pc : Pc) : State n :=
  { s with pc := update s.pc a pc }

def State.setWs (s : State n) (g : ℕ) (w : Ws) : State n :=
  { s with ws := update s.ws g w }

def State.addRef (s : State n) (g : ℕ) (d : ℤ) : State n :=
  { s with refs := update s.refs g (s.refs g + d) }

/-- The loop of `runloom_mn_wake_g` with `st` the value last seen. -/
def wakeStep (s : State n) (a : Actor n) (g : ℕ) (st : Ws) : State n :=
  match st with
  | .parked =>
    if s.ws g = .parked then (s.setWs g .queued).goto a (.push g false .incref)
    -- The value has changed since it was seen, and the loop goes on with the new one.
    else s.goto a (.wake g (s.ws g))
  | .running =>
    if s.ws g = .running then (s.setWs g .runningWoken).goto a .idle
    else s.goto a (.wake g (s.ws g))
  | .sweeping =>
    if s.ws g = .sweeping then (s.setWs g .sweepingWoken).goto a .idle
    else s.goto a (.wake g (s.ws g))
  -- A wake is recorded already, and this one adds nothing.
  | .queued | .runningWoken | .sweepingWoken => s.goto a .idle

def pushStep (s : State n) (a : Actor n) (g : ℕ) (fromRunq : Bool) : Stage → Option (State n)
  | .incref => some ((s.addRef g 1).goto a (.push g fromRunq .acquire))
  | .acquire =>
    if s.lock = none then some ({ s with lock := some a }.goto a (.push g fromRunq .link))
    else none
  | .link => some ({ s with runq := s.runq ++ [g] }.goto a (.push g fromRunq .len))
  | .len => some ({ s with len := s.len + 1 }.goto a (.push g fromRunq .unlock))
  | .unlock =>
    some ({ s with lock := none }.goto a (if fromRunq then .decref g else .idle))

def next (s : State n) (a : Actor n) : Option (State n) :=
  match s.pc a with
  | .idle | .running _ _ => none
  | .wake g st => some (wakeStep s a g st)
  | .push g fromRunq stage => pushStep s a g fromRunq stage
  | .sweep g =>
    if s.ws g = .sweeping then some ((s.setWs g .parked).goto a .idle)
    else some (s.goto a (.sweepStore g))
  -- A wake came during the sweep, and the sweeper queues the fiber for it.
  | .sweepStore g => some ((s.setWs g .queued).goto a (.push g false .incref))
  | .pullAcquire =>
    if s.lock = none then some ({ s with lock := some a }.goto a .pullTake) else none
  | .pullTake =>
    match s.runq with
    | [] => some (s.goto a (.pullUnlock none))
    | g :: rest => some ({ s with runq := rest }.goto a (.pullLen g))
  | .pullLen g => some ({ s with len := s.len - 1 }.goto a (.pullUnlock (some g)))
  | .pullUnlock none => some ({ s with lock := none }.goto a .idle)
  | .pullUnlock (some g) => some ({ s with lock := none }.goto a (.claim g))
  -- An entry that lost its fiber to another claim gives only its reference back.
  | .claim g =>
    if s.ws g = .queued then some ((s.setWs g .running).goto a (.running g true))
    else some (s.goto a (.decref g))
  | .parkCas g fromRunq =>
    if s.ws g = .running then
      some ((s.setWs g .parked).goto a (if fromRunq then .decref g else .idle))
    else some (s.goto a (.parkStore g fromRunq))
  | .parkStore g fromRunq => some ((s.setWs g .queued).goto a (.push g fromRunq .incref))
  | .decref g => some ((s.addRef g (-1)).goto a .idle)
  | .yieldStore g fromRunq selfQueued =>
    some ((s.setWs g .running).goto a (if fromRunq then .yieldDecref g selfQueued
      else if selfQueued then .idle else .readyPush g))
  | .yieldDecref g selfQueued =>
    some ((s.addRef g (-1)).goto a (if selfQueued then .idle else .readyPush g))
  | .readyPush g =>
    match a with
    | .hub h => some ({ s with fifo := update s.fifo h (s.fifo h ++ [g]) }.goto a .idle)
    | .helper _ => none

def step (s : State n) : Action n → Option (State n)
  | .next a => next s a
  | .wake i g =>
    if s.pc (.helper i) = .idle then some (s.goto (.helper i) (.wake g (s.ws g))) else none
  | .sweepClaim i g =>
    if s.pc (.helper i) = .idle ∧ s.ws g = .parked then
      some ((s.setWs g .sweeping).goto (.helper i) (.sweep g))
    else none
  | .startPull h =>
    -- the lock-free look at the length
    if s.pc (.hub h) = .idle ∧ s.len ≠ 0 then some (s.goto (.hub h) .pullAcquire) else none
  | .timerClaim h g =>
    if s.pc (.hub h) = .idle ∧ s.ws g = .parked then
      some ((s.setWs g .running).goto (.hub h) (.readyPush g))
    else none
  | .readyPop h =>
    match s.pc (.hub h), s.fifo h with
    | .idle, g :: rest =>
      some ({ s with fifo := update s.fifo h rest }.goto (.hub h) (.running g false))
    | _, _ => none
  | .park h =>
    match s.pc (.hub h) with
    | .running g fromRunq => some (s.goto (.hub h) (.parkCas g fromRunq))
    | _ => none
  | .yieldCurrent h =>
    match s.pc (.hub h) with
    | .running g fromRunq =>
      some ({ s with fifo := update s.fifo h (s.fifo h ++ [g]) }.goto (.hub h) (.yieldStore g fromRunq true))
    | _ => none
  | .rawYield h =>
    match s.pc (.hub h) with
    | .running g fromRunq => some (s.goto (.hub h) (.yieldStore g fromRunq false))
    | _ => none

/-- Every fiber is on at most one local queue, or parked, with its scheduler reference alone. -/
structure Init (s : State n) : Prop where
  pc : ∀ a, s.pc a = .idle
  runq : s.runq = []
  len : s.len = 0
  lock : s.lock = none
  refs : ∀ g, s.refs g = 1
  fifo : ∀ g, (∃ h, (s.fifo h).count g = 1 ∧ s.ws g = .running ∧
    ∀ h', h' ≠ h → (s.fifo h').count g = 0) ∨ s.ws g = .parked ∧ ∀ h, (s.fifo h).count g = 0

variable (n) in
def wakeState : System (State n) (Action n) where
  init := Init
  step := step

end Runloom.WakeState
