import Mathlib.Data.Int.Notation
import Runloom.Transition.System

/-!
# The jobs of the blocking pool

Model of `runloom_blocking_call` and of `runloom_blockpool_worker`, with `runloom_sched_wake_safe` and
`runloom_sched_park_safe`, for all the fibers, workers and shards of a running pool. A job is a record on the stack of
its caller: the caller counts it in `bp_inflight`, enqueues it on a shard and parks until `done` is set; a worker
takes it, runs it, stores `done`, wakes the caller and takes it off the count.

Every locked section and every access to `wake_pending` or to `parked_safe` is a step.
-/

namespace Runloom.OffloadJob

open Transition

/-- Where a fiber is; a park is in the call of a job, or elsewhere. -/
inductive Pc (S : Type*) where
  | running
  /-- Before the increment of `bp_inflight`. -/
  | counting (n : ℕ) (shard : S)
  | enqueuing (n : ℕ) (shard : S)
  /-- Before the first load of `wake_pending`. -/
  | check (job : Option ℕ)
  /-- Before the store of `parked_safe`. -/
  | store (job : Option ℕ)
  /-- Before the second load of `wake_pending`. -/
  | recheck (job : Option ℕ)
  /-- There is a credit; before the claim of `parked_safe`. -/
  | abort (job : Option ℕ)
  | parked (job : Option ℕ)
  | eat (job : Option ℕ)
  /-- Out of the park; before the test of `job.done`. -/
  | test (job : Option ℕ)
deriving DecidableEq

/-- Where a call of `wake_safe` is. -/
inductive Wake where
  /-- Before the increment of `wake_pending`. -/
  | bump
  /-- Before the compare-and-swap on `parked_safe`. -/
  | claim
  | enqueue

/-- `runloom_blockpool_worker`. After the store of `done` it has only its locals `hub` and `g`. -/
inductive WorkerPc (F : Type*) where
  | idle
  | took (n : ℕ)
  /-- With `hub` and `g` in hand; before the call of the function. -/
  | run (n : ℕ) (hub : Bool) (g : F)
  /-- Before the store of `done`. -/
  | ran (n : ℕ) (hub : Bool) (g : F)
  | wake (n : ℕ) (hub : Bool) (g : F) (x : Wake)
  | poke (n : ℕ)
  /-- Before the decrement of `bp_inflight`. -/
  | decrement (n : ℕ)

structure Fiber (S : Type*) where
  pc : Pc S
  wakePending : ℕ
  parkedSafe : Bool
  entries : ℕ
  /-- Other wakers in `wake_safe`, before their compare-and-swap. -/
  claiming : ℕ
  enqueuing : ℕ

/-- `runloom_block_job_t`. -/
structure Job (F R : Type*) where
  g : F
  hub : Bool
  result : Option R
  done : Bool

/-- How far a job has come: counted in `bp_inflight`, put in a queue, taken off the count. -/
inductive Stage where
  | made
  | counted
  | enqueued
  | completed
deriving DecidableEq

/-- What has become of a job. -/
structure Book (R : Type*) where
  stage : Stage
  runs : ℕ
  /-- Its worker has incremented `wake_pending`. -/
  bumped : Bool
  /-- The `wake_safe` of its worker has returned. -/
  woken : Bool
  returned : Option (Option R)
  /-- The caller's `wake_pending` before the call. -/
  before : ℕ

def Book.empty {R : Type*} : Book R := ⟨.made, 0, false, false, none, 0⟩

structure State (F S W R : Type*) where
  fiber : F → Fiber S
  queue : S → List ℕ
  worker : W → WorkerPc F
  jobs : ℕ
  job : ℕ → Job F R
  book : ℕ → Book R
  inflight : ℤ

inductive Action (F S W : Type*) where
  /-- `runloom_blocking_call`, on a hub or not; `shard` is what `bp_shard_for` picks. -/
  | call (f : F) (hub : Bool) (shard : S)
  | park (f : F)
  | fiber (f : F)
  | resume (f : F)
  | worker (w : W)
  | wake (f : F) (credit : Bool)
  | claim (f : F)
  | enqueue (f : F)

variable {F S W R : Type*} [DecidableEq F] [DecidableEq S] [DecidableEq W]

namespace State

def setFiber (s : State F S W R) (f : F) (x : Fiber S) : State F S W R :=
  { s with fiber := update s.fiber f x }

def goto (s : State F S W R) (w : W) (c : WorkerPc F) : State F S W R :=
  { s with worker := update s.worker w c }

def setJob (s : State F S W R) (n : ℕ) (x : Job F R) : State F S W R :=
  { s with job := update s.job n x }

def setBook (s : State F S W R) (n : ℕ) (x : Book R) : State F S W R :=
  { s with book := update s.book n x }

section

omit [DecidableEq S] [DecidableEq W]

@[simp] theorem setFiber_self (s : State F S W R) (f : F) (x : Fiber S) : (s.setFiber f x).fiber f = x :=
  update_self ..

theorem setFiber_of_ne (s : State F S W R) (x : Fiber S) {d f : F} (h : d ≠ f) :
    (s.setFiber f x).fiber d = s.fiber d := update_of_ne h ..

end

section

omit [DecidableEq F] [DecidableEq S]

@[simp] theorem goto_self (s : State F S W R) (w : W) (c : WorkerPc F) : (s.goto w c).worker w = c :=
  update_self ..

theorem goto_of_ne (s : State F S W R) (c : WorkerPc F) {v w : W} (h : v ≠ w) :
    (s.goto w c).worker v = s.worker v := update_of_ne h ..

end

section

omit [DecidableEq F] [DecidableEq S] [DecidableEq W]

@[simp] theorem setJob_self (s : State F S W R) (n : ℕ) (x : Job F R) : (s.setJob n x).job n = x :=
  update_self ..

theorem setJob_of_ne (s : State F S W R) (x : Job F R) {n m : ℕ} (h : m ≠ n) :
    (s.setJob n x).job m = s.job m := update_of_ne h ..

@[simp] theorem setBook_self (s : State F S W R) (n : ℕ) (x : Book R) : (s.setBook n x).book n = x :=
  update_self ..

end

def call (s : State F S W R) (f : F) (hub : Bool) (shard : S) : State F S W R :=
  ({ s with jobs := s.jobs + 1 }.setJob s.jobs ⟨f, hub, none, false⟩).setBook s.jobs
    { Book.empty with before := (s.fiber f).wakePending } |>.setFiber f { s.fiber f with pc := .counting s.jobs shard }

def fiberStep (s : State F S W R) (f : F) : Option (State F S W R) :=
  let x := s.fiber f
  match x.pc with
  | .running | .parked _ => none
  | .counting n shard =>
    some (({ s with inflight := s.inflight + 1 }.setBook n { s.book n with stage := .counted }).setFiber f
      { x with pc := .enqueuing n shard })
  | .enqueuing n shard =>
    some (({ s with queue := update s.queue shard (s.queue shard ++ [n]) }.setBook n
      { s.book n with stage := .enqueued }).setFiber f { x with pc := .check (some n) })
  | .check j =>
    some (s.setFiber f (if 0 < x.wakePending then { x with wakePending := x.wakePending - 1, pc := .test j }
      else { x with pc := .store j }))
  | .store j => some (s.setFiber f { x with parkedSafe := true, pc := .recheck j })
  | .recheck j => some (s.setFiber f { x with pc := if 0 < x.wakePending then .abort j else .parked j })
  | .abort j =>
    some (s.setFiber f (if x.parkedSafe then
        { x with parkedSafe := false, wakePending := x.wakePending - 1, pc := .test j }
      -- A waker has claimed the park, and its entry is on the way.
      else { x with pc := .parked j }))
  -- The credit of the claim may be gone.
  | .eat j => some (s.setFiber f { x with wakePending := x.wakePending - 1, pc := .test j })
  | .test none => some (s.setFiber f { x with pc := .running })
  | .test (some n) =>
    some (if (s.job n).done then
        (s.setBook n { s.book n with returned := some (s.job n).result }).setFiber f { x with pc := .running }
      else s.setFiber f { x with pc := .check (some n) })

/-- Where the worker goes when `wake_safe` has returned. -/
def afterWake (n : ℕ) (hub : Bool) : WorkerPc F := if hub then .decrement n else .poke n

/-- One access of the worker's `wake_safe`. -/
def wakeStep (s : State F S W R) (w : W) (n : ℕ) (hub : Bool) (g : F) : Wake → State F S W R
  | .bump =>
    ((s.setFiber g { s.fiber g with wakePending := (s.fiber g).wakePending + 1 }).setBook n
      { s.book n with bumped := true }).goto w (.wake n hub g .claim)
  | .claim =>
    if (s.fiber g).parkedSafe then
      (s.setFiber g { s.fiber g with parkedSafe := false }).goto w (.wake n hub g .enqueue)
    else (s.setBook n { s.book n with woken := true }).goto w (afterWake n hub)
  | .enqueue =>
    ((s.setFiber g { s.fiber g with entries := (s.fiber g).entries + 1 }).setBook n
      { s.book n with woken := true }).goto w (afterWake n hub)

def workerStep (shardOf : W → S) (fn : ℕ → R) (s : State F S W R) (w : W) : Option (State F S W R) :=
  match s.worker w with
  | .idle =>
    match s.queue (shardOf w) with
    | [] => none
    | n :: rest => some ({ s with queue := update s.queue (shardOf w) rest }.goto w (.took n))
  | .took n => some (s.goto w (.run n (s.job n).hub (s.job n).g))
  | .run n hub g =>
    some (((s.setJob n { s.job n with result := some (fn n) }).setBook n
      { s.book n with runs := (s.book n).runs + 1 }).goto w (.ran n hub g))
  -- From this store on the caller can return, and its stack is not touched again.
  | .ran n hub g => some ((s.setJob n { s.job n with done := true }).goto w (.wake n hub g .bump))
  | .wake n hub g x => some (s.wakeStep w n hub g x)
  | .poke n => some (s.goto w (.decrement n))
  | .decrement n =>
    some (({ s with inflight := s.inflight - 1 }.setBook n { s.book n with stage := .completed }).goto w .idle)

end State

def step (shardOf : W → S) (fn : ℕ → R) (s : State F S W R) : Action F S W → Option (State F S W R)
  | .call f hub shard => if (s.fiber f).pc = .running then some (s.call f hub shard) else none
  | .park f =>
    if (s.fiber f).pc = .running then some (s.setFiber f { s.fiber f with pc := .check none }) else none
  | .fiber f => s.fiberStep f
  | .resume f =>
    match (s.fiber f).pc with
    | .parked j =>
      if 0 < (s.fiber f).entries then
        some (s.setFiber f { s.fiber f with entries := (s.fiber f).entries - 1, pc := .eat j })
      else none
    | _ => none
  | .worker w => s.workerStep shardOf fn w
  | .wake f credit =>
    some (s.setFiber f { s.fiber f with
      wakePending := (s.fiber f).wakePending + (if credit then 1 else 0)
      claiming := (s.fiber f).claiming + 1 })
  | .claim f =>
    if 0 < (s.fiber f).claiming then
      some (s.setFiber f (if (s.fiber f).parkedSafe then
          { s.fiber f with
            parkedSafe := false, claiming := (s.fiber f).claiming - 1, enqueuing := (s.fiber f).enqueuing + 1 }
        else { s.fiber f with claiming := (s.fiber f).claiming - 1 }))
    else none
  | .enqueue f =>
    if 0 < (s.fiber f).enqueuing then
      some (s.setFiber f { s.fiber f with
        enqueuing := (s.fiber f).enqueuing - 1, entries := (s.fiber f).entries + 1 })
    else none

structure Init (s : State F S W R) : Prop where
  fiber : ∀ f, s.fiber f = ⟨.running, 0, false, 0, 0, 0⟩
  queue : ∀ i, s.queue i = []
  worker : ∀ w, s.worker w = .idle
  jobs : s.jobs = 0
  job : ∀ n, (s.job n).done = false
  book : ∀ n, s.book n = .empty
  inflight : s.inflight = 0

/-- A running pool; `fn` says what the function of each job returns. -/
def offload (shardOf : W → S) (fn : ℕ → R) : System (State F S W R) (Action F S W) where
  init := Init
  step := step shardOf fn

def OnlyWorkers (_ : State F S W R) : Action F S W → Prop
  | .wake _ _ | .claim _ | .enqueue _ => False
  | _ => True

instance (s : State F S W R) : (a : Action F S W) → Decidable (OnlyWorkers s a)
  | .wake .. | .claim _ | .enqueue _ => .isFalse id
  | .call .. | .park _ | .fiber _ | .resume _ | .worker _ => .isTrue trivial

end Runloom.OffloadJob
