import Runloom.WaitGroup

/-!
# The join set

Model of `sync.JoinSet`: `spawn`, `join_all` and `__exit__`, called by one owner, and the runners that `spawn` makes.
A step is one of the wait group, or one statement of `JoinSet` that another fiber can see.

The creation of a runner, by `mn_fiber` or by `fiber`, may raise, and the caller of `spawn` may spawn on.
-/

namespace Runloom.JoinSet

open Transition Handoff

/-- The owner of the set, and the runner of the task with the index `i`. -/
inductive Fiber where
  | owner
  | runner (i : ℕ)
deriving DecidableEq

inductive Call where
  | joinAll
  /-- `__exit__`; whether the body raised. -/
  | exit (raised : Bool)
deriving DecidableEq

/-- How a call ends. -/
inductive Joined (V E : Type*) where
  /-- `join_all` returns the list; `None` stands in the place of a task that wrote no result. -/
  | results (rs : List (Option V))
  | raised (e : E)
  /-- `__exit__` returns `False`. -/
  | exited
deriving DecidableEq

inductive OwnerPc (V E : Type*) where
  | idle
  /-- In `spawn`, with the places of the task appended; before `add`. -/
  | adding (i : ℕ)
  /-- In `spawn`, from the section of `add` to the creation of the runner. -/
  | creating (i : ℕ)
  | joining (call : Call)
  | returned (out : Joined V E)
deriving DecidableEq

inductive RunnerPc (V E : Type*) where
  | absent
  | running
  /-- The outcome of the task is written; before `done`. -/
  | finishing (out : Except E V)
  /-- From the section of `done` on. -/
  | leaving (out : Except E V)
  | ended (out : Except E V)
deriving DecidableEq

structure State (V E : Type*) where
  wg : WaitGroup.State Fiber
  results : List (Option V)
  errs : List (Option E)
  n : ℕ
  owner : OwnerPc V E
  runner : ℕ → RunnerPc V E
  /-- The calls of `spawn` that raised. -/
  failed : ℕ

inductive Action (V E : Type*) where
  | spawn
  | create (ok : Bool)
  | join (call : Call)
  /-- The next step of the owner in `add` or in `wait`. -/
  | owner
  | finish (i : ℕ) (out : Except E V)
  | runner (i : ℕ)
  | elsewhere (f : Fiber)
  | poke (f : Fiber)

variable {V E : Type*}

namespace State

def setRunner (s : State V E) (i : ℕ) (r : RunnerPc V E) : State V E :=
  { s with runner := Function.update s.runner i r }

def wgNext (s : State V E) (f : Fiber) : Option (State V E) :=
  (s.wg.lobby.next (fun _ => false) f).map fun lobby => { s with wg := { s.wg with lobby := lobby } }

/-- The end of `join_all` and of `__exit__`, after the wait. -/
def collect (s : State V E) : Call → Joined V E
  | .joinAll =>
    match s.errs.findSome? id with
    | some e => .raised e
    | none => .results s.results
  | .exit raised =>
    if raised then .exited
    else
      match s.errs.findSome? id with
      | some e => .raised e
      | none => .exited

/-- `wait`: of a fiber, or as a foreign thread polls it. -/
def wait (foreign : Bool) (s : State V E) (call : Call) : Option (State V E) :=
  if foreign then some (if s.wg.n = 0 then { s with owner := .returned (s.collect call) } else s)
  else
    match s.wg.lobby.pc .owner with
    | .idle | .woken () => some { s with wg := s.wg.wait .owner }
    | .returned _ => some { s with owner := .returned (s.collect call) }
    | _ => s.wgNext .owner

def write (s : State V E) (i : ℕ) : Except E V → State V E
  | .ok v => { s with results := s.results.set i (some v) }
  | .error e => { s with errs := s.errs.set i (some e) }

end State

def step (foreign : Bool) (s : State V E) : Action V E → Option (State V E)
  | .spawn =>
    match s.owner with
    | .idle =>
      some { s with
        n := s.n + 1, results := s.results ++ [none], errs := s.errs ++ [none], owner := .adding s.n }
    | _ => none
  | .create ok =>
    match s.owner, s.wg.lobby.pc .owner with
    | .creating i, .idle =>
      some (if ok then { s with owner := .idle }.setRunner i .running
        else { s with owner := .idle, failed := s.failed + 1 })
    | _, _ => none
  | .join call =>
    match s.owner with
    | .idle => some { s with owner := .joining call }
    | _ => none
  | .owner =>
    match s.owner with
    | .adding i => some { s with wg := s.wg.add .owner 1, owner := .creating i }
    | .creating _ => s.wgNext .owner
    | .joining call => s.wait foreign call
    | _ => none
  | .finish i out =>
    match s.runner i with
    | .running => some ((s.write i out).setRunner i (.finishing out))
    | _ => none
  | .runner i =>
    match s.runner i with
    | .finishing out => some ({ s with wg := s.wg.done (.runner i) }.setRunner i (.leaving out))
    | .leaving out =>
      if s.wg.lobby.pc (.runner i) = .idle then some (s.setRunner i (.ended out)) else s.wgNext (.runner i)
    | _ => none
  | .elsewhere f =>
    (s.wg.lobby.elsewhere f).map fun lobby => { s with wg := { s.wg with lobby := lobby } }
  | .poke f => some { s with wg := { s.wg with lobby := s.wg.lobby.poke f } }

structure Init (s : State V E) : Prop where
  wg : WaitGroup.Init s.wg
  results : s.results = []
  errs : s.errs = []
  n : s.n = 0
  owner : s.owner = .idle
  runner : ∀ i, s.runner i = .absent
  failed : s.failed = 0

/-- A join set and its fibers; `foreign` says whether the owner is a foreign thread. -/
def joinSet (V E : Type*) (foreign : Bool) : System (State V E) (Action V E) where
  init := Init
  step := step foreign

end Runloom.JoinSet
