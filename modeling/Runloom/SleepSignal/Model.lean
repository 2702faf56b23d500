import Runloom.WakeState.Model

/-!
# A signal for a sleeping fiber

Model of `runloom_sched_sleep_until_ex` on a hub, of the timer pop of `runloom_hub_main`, and of
`runloom_sched_sleep_signal_wake`, by which the main thread hands the exception of a signal handler to a fiber that
sleeps.

A step is one access to shared memory or one section under the list lock, and the walk under that lock is taken node
by node. With `migrate` (`runloom_use_global_runq`) the main thread puts the fiber on the global run queue; without,
on the queue of its hub. The timer may take any fiber of the sleep heap that is due.
-/

namespace Runloom.SleepSignal

open Transition
open WakeState (Ws)

/-- `target` is the hub it ran on when it went to sleep; `io` is `g->sleep_io`. -/
inductive Pc (H E : Type*) where
  | off
  | on
  | reset (target : H) (io : Bool)
  | push (target : H) (io : Bool)
  | link (target : H)
  | yield (target : H) (io : Bool)
  | parked (target : H) (io : Bool)
  /-- Behind `runloom_coro_yield`, before the unlink. -/
  | resumed (target : H) (io : Bool)
  | test (target : H)
  | remove (target : H)
  | load (target : H)
  | store (target : H) (exc : Option E)
deriving DecidableEq

/-- Where the thread of a hub is. -/
inductive Seat (F : Type*) where
  | loop
  /-- Behind `runloom_sched_sleep_pop`. -/
  | popped (g : F)
  | won (g : F)
  | running (g : F)
deriving DecidableEq

/-- Where the main thread is in `runloom_sched_sleep_signal_wake`. -/
inductive Main (F H E : Type*) where
  | idle
  | walk (exc : E) (rest : List F)
  | mark (exc : E) (g : F) (hub : H)
  | claim (exc : E) (g : F) (hub : H)
  | wake (exc : E) (g : F) (hub : H) (claimed : Bool)
deriving DecidableEq

def Main.locked {F H E : Type*} : Main F H E → Bool
  | .walk .. | .mark .. | .claim .. => true
  | .idle | .wake .. => false

/-- `ready h` is the submission list with the ready ring, `node g` the hub in the waiter node of `g`. The last three
fields are only observed. -/
structure State (F H E : Type*) where
  pc : F → Pc H E
  wakeAt : F → ℕ
  claimed : F → Bool
  ws : F → Ws
  node : F → Option H
  signaled : F → Bool
  heap : H → List F
  ready : H → List F
  exc : H → Option E
  seat : H → Seat F
  waiters : List F
  runq : List F
  main : Main F H E
  now : ℕ
  enqueued : F → ℕ
  raised : E → List F
  returned : E → Option (Option F)

inductive Act (F H E : Type*) where
  | tick (n : ℕ)
  | take (h : H) (g : F)
  | leave (h : H)
  | sleep (h : H) (wakeAt : ℕ) (io : Bool)
  /-- The next step of the fiber on the hub.  `room` is whether `runloom_sleep_push` had memory. -/
  | run (h : H) (room : Bool)
  | pop (h : H) (g : F)
  | claim (h : H)
  | push (h : H)
  | resume (h : H)
  | pull (h : H)
  | signal (exc : E)
  | main

variable {F H E : Type*} [DecidableEq F] [DecidableEq H] [DecidableEq E]

namespace State

def setPc (s : State F H E) (g : F) (pc : Pc H E) : State F H E := { s with pc := update s.pc g pc }

def setSeat (s : State F H E) (h : H) (x : Seat F) : State F H E := { s with seat := update s.seat h x }

def count (s : State F H E) (g : F) : State F H E :=
  { s with enqueued := update s.enqueued g (s.enqueued g + 1) }

/-- `runloom_sched_ready_push`, or the append of `runloom_mn_hub_submit`. -/
def readyPush (s : State F H E) (h : H) (g : F) : State F H E :=
  { s with ready := update s.ready h (s.ready h ++ [g]) }.count g

/-- `runloom_mn_global_runq_push`, of a fiber that is now queued. -/
def runqPush (s : State F H E) (g : F) : State F H E :=
  { s with ws := update s.ws g .queued, runq := s.runq ++ [g] }.count g

/-- The hub releases a parked fiber: with `migrate` an earlier wake is made good. -/
def release (s : State F H E) (migrate : Bool) (g : F) : State F H E :=
  if migrate then
    if s.ws g = .running then { s with ws := update s.ws g .parked } else s.runqPush g
  else s

/-- `runloom_mn_wake_g`. -/
def wakeG (s : State F H E) (migrate : Bool) (h : H) (g : F) : State F H E :=
  if migrate then
    match s.ws g with
    | .parked => s.runqPush g
    | .running => { s with ws := update s.ws g .runningWoken }
    | .sweeping => { s with ws := update s.ws g .sweepingWoken }
    | .queued | .runningWoken | .sweepingWoken => s
  else s.readyPush h g

/-- The next step of the fiber `g`, which runs on the hub `h`. -/
def run (s : State F H E) (migrate : Bool) (h : H) (g : F) (room : Bool) : Option (State F H E) :=
  match s.pc g with
  | .reset t io => some ({ s with claimed := update s.claimed g false }.setPc g (.push t io))
  | .push t io =>
    if room then
      some ({ s with heap := update s.heap t (g :: s.heap t) }.setPc g (if io then .link t else .yield t false))
    else some (s.setPc g .on)
  | .link t =>
    if s.main.locked then none
    else
      some ({ s with
        node := update s.node g (some t)
        signaled := update s.signaled g false
        waiters := g :: s.waiters }.setPc g (.yield t true))
  | .yield t io => some (((s.release migrate g).setPc g (.parked t io)).setSeat h .loop)
  | .resumed t io =>
    if io then
      if s.main.locked then none else some ({ s with waiters := s.waiters.erase g }.setPc g (.test t))
    else some (s.setPc g .on)
  | .test t => some (s.setPc g (if s.signaled g then .remove t else .on))
  | .remove t => some ({ s with heap := update s.heap t ((s.heap t).erase g) }.setPc g (.load t))
  | .load t => some (s.setPc g (.store t (s.exc t)))
  | .store t x =>
    some ({ s with
      exc := update s.exc t none
      raised := match x with
        | some e => update s.raised e (s.raised e ++ [g])
        | none => s.raised }.setPc g .on)
  | .off | .on | .parked .. => none

def mainStep (s : State F H E) (migrate : Bool) : Option (State F H E) :=
  match s.main with
  | .idle => none
  | .walk e [] => some { s with main := .idle, returned := update s.returned e (some none) }
  | .walk e (g :: rest) =>
    match s.node g with
    | none => some { s with main := .walk e rest }
    | some t =>
      -- The slot is reserved before the node is marked.
      if s.signaled g ∨ (s.exc t).isSome then some { s with main := .walk e rest }
      else some { s with main := .mark e g t, exc := update s.exc t (some e) }
  | .mark e g t => some { s with main := .claim e g t, signaled := update s.signaled g true }
  | .claim e g t =>
    some { s with main := .wake e g t (!s.claimed g), claimed := update s.claimed g true }
  | .wake e g t c =>
    some { if c then s.wakeG migrate t g else s with
      main := .idle
      returned := update s.returned e (some (some g)) }

/-- The timer of `h` schedules the fiber it has claimed. -/
def timerPush (s : State F H E) (migrate : Bool) (h : H) (g : F) : State F H E :=
  let s := s.setSeat h .loop
  if migrate then
    if s.ws g = .parked then { s with ws := update s.ws g .running }.readyPush h g else s
  else s.readyPush h g

def resumeOn (s : State F H E) (h : H) (g : F) : Option (State F H E) :=
  match s.pc g with
  | .parked t io => some ((s.setPc g (.resumed t io)).setSeat h (.running g))
  | _ => none

end State

def step (migrate : Bool) (s : State F H E) : Act F H E → Option (State F H E)
  | .tick n => some { s with now := s.now + n }
  | .take h g =>
    if s.seat h = .loop ∧ s.pc g = .off then
      some (({ s with ws := update s.ws g .running }.setPc g .on).setSeat h (.running g))
    else none
  | .leave h =>
    match s.seat h with
    | .running g => if s.pc g = .on then some ((s.setPc g .off).setSeat h .loop) else none
    | _ => none
  | .sleep h w io =>
    match s.seat h with
    | .running g =>
      if s.pc g = .on then
        some ({ s with
          wakeAt := update s.wakeAt g w
          enqueued := update s.enqueued g 0 }.setPc g (.reset h io))
      else none
    | _ => none
  | .run h room =>
    match s.seat h with
    | .running g => s.run migrate h g room
    | _ => none
  | .pop h g =>
    if s.seat h = .loop ∧ g ∈ s.heap h ∧ s.wakeAt g ≤ s.now then
      some ({ s with heap := update s.heap h ((s.heap h).erase g) }.setSeat h (.popped g))
    else none
  | .claim h =>
    match s.seat h with
    | .popped g =>
      if s.claimed g then some (s.setSeat h .loop)
      else some ({ s with claimed := update s.claimed g true }.setSeat h (.won g))
    | _ => none
  | .push h =>
    match s.seat h with
    | .won g => some (s.timerPush migrate h g)
    | _ => none
  | .resume h =>
    match s.seat h, s.ready h with
    | .loop, g :: rest => { s with ready := update s.ready h rest }.resumeOn h g
    | _, _ => none
  | .pull h =>
    match s.seat h, s.runq with
    | .loop, g :: rest =>
      if s.ws g = .queued then { s with ws := update s.ws g .running, runq := rest }.resumeOn h g
      else some { s with runq := rest }
    | _, _ => none
  | .signal e =>
    if s.main = .idle ∧ s.returned e = none then some { s with main := .walk e s.waiters } else none
  | .main => s.mainStep migrate

/-- No fiber has slept yet, and nothing was signalled. -/
structure Init (s : State F H E) : Prop where
  pc (g : F) : s.pc g = .off
  heap (h : H) : s.heap h = []
  ready (h : H) : s.ready h = []
  exc (h : H) : s.exc h = none
  seat (h : H) : s.seat h = .loop
  waiters : s.waiters = []
  runq : s.runq = []
  main : s.main = .idle
  raised (e : E) : s.raised e = []
  returned (e : E) : s.returned e = none

def system (F H E : Type*) [DecidableEq F] [DecidableEq H] [DecidableEq E] (migrate : Bool) :
    System (State F H E) (Act F H E) where
  init := Init
  step := step migrate

end Runloom.SleepSignal
