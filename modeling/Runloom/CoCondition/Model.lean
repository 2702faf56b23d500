import Mathlib.Data.Int.Notation
import Runloom.Transition.System

/-!
# The cooperative condition variable

Model of `CoCondition` over a `CoLock` or a `CoRLock`: `wait`, with a timeout or without, `notify` and `notify_all`,
called by fibers and by foreign threads that hold the lock. Every line of `wait` that touches the lock, the queue, the
clock or the parker is a step, and so are every pop of `notify` and every wake.

`notices` and `returns` are history: what each `notify` took out of the queue, and how each `wait` ended.
-/

namespace Runloom.CoCondition

open Transition

inductive Kind where
  | lock
  | rlock

/-- The lock of the condition; a `CoLock` has no count. -/
structure Lock (F : Type*) where
  holder : Option F
  count : ℤ

structure Parker (F : Type*) where
  fiber : F
  round : ℕ
deriving DecidableEq

/-- What a `wait` keeps through its rounds; `saved` is read only from a `CoRLock`. -/
structure Wait where
  deadline : Option ℤ
  saved : ℤ
deriving DecidableEq

inductive Call where
  | wait (timeout : Option ℤ)
  | notify (n : ℤ)
  | notifyAll

inductive Result where
  /-- The return of `notify` and of `notify_all`. -/
  | notified
  /-- The return of `wait`, with the round it ended in. -/
  | waited (k : ℕ) (r : Bool)
deriving DecidableEq

/-- Where a `wait` is in a round, from the append of its parker to the `remove`. -/
inductive Stage where
  | counting
  | releasing
  | testing
  | waiting
  | parked
  | leaving
  | acquiring
  | removing
deriving DecidableEq

inductive Pc (F : Type*) where
  | idle
  | entered (timeout : Option ℤ) (saved : ℤ)
  | making (w : Wait)
  | round (w : Wait) (k : ℕ) (x : Stage)
  | checking (w : Wait) (k : ℕ)
  | restoring (w : Wait) (k : ℕ) (r : Bool)
  /-- `notify(asked)` with `n` turns left, called when `queued` was the queue. -/
  | popping (asked : ℤ) (queued : List (Parker F)) (n : ℕ) (woke : List (Parker F))
  /-- `_unpark_all`, sorting the parkers that are left. -/
  | collecting (parkers inmem rest : List (Parker F))
  | waking (parkers : List (Parker F))
  | returned (r : Result)
deriving DecidableEq

/-- What a `notify` did; a `notify_all` asks for no number. -/
structure Notice (F : Type*) where
  asked : Option ℤ
  queued : List (Parker F)
  woke : List (Parker F)

/-- How a `wait` was called: the clock, and the count of the lock. -/
structure Entry where
  timeout : Option ℤ
  began : ℤ
  depth : ℤ

structure State (F : Type*) where
  lock : Lock F
  waiters : List (Parker F)
  gone : Parker F → Bool
  credit : F → ℕ
  pc : F → Pc F
  made : F → ℕ
  now : ℤ
  entry : F → Entry
  removed : List (Parker F)
  notices : List (Notice F)
  returns : List (Parker F × Bool)

inductive Action (F : Type*) where
  | acquire (f : F)
  | release (f : F)
  | call (f : F) (c : Call)
  | next (f : F)
  | elsewhere (f : F)
  | poke (f : F)
  | tick (d : ℕ)

def Stage.asleep : Stage → Bool
  | .testing | .waiting | .parked => true
  | _ => false

def Pc.asleep {F : Type*} : Pc F → Bool
  | .round _ _ x => x.asleep
  | _ => false

variable {F : Type*} [DecidableEq F]

namespace Lock

def acquire (kind : Kind) (l : Lock F) (f : F) : Option (Lock F) :=
  match kind with
  | .lock => if l.holder = none then some { l with holder := some f } else none
  | .rlock =>
    if l.holder = some f then some { l with count := l.count + 1 }
    else if l.holder = none then some ⟨some f, 1⟩
    else none

def release (kind : Kind) (l : Lock F) : Lock F :=
  match kind with
  | .lock => { l with holder := none }
  | .rlock => if l.count - 1 = 0 then ⟨none, 0⟩ else { l with count := l.count - 1 }

/-- `self._lock._count = n`, which is left out for a `CoLock`. -/
def setCount (kind : Kind) (l : Lock F) (n : ℤ) : Lock F :=
  match kind with
  | .lock => l
  | .rlock => { l with count := n }

end Lock

namespace State

def goto (s : State F) (f : F) (p : Pc F) : State F := { s with pc := update s.pc f p }

def wakeUp (s : State F) (f : F) : State F := { s with credit := update s.credit f (s.credit f + 1) }

def eat (foreign : F → Bool) (s : State F) (f : F) : State F :=
  { s with credit := update s.credit f (if foreign f then 0 else s.credit f - 1) }

/-- `_unpark_all`. -/
def unparkAll (s : State F) (f : F) (parkers : List (Parker F)) : State F := s.goto f (.collecting parkers [] [])

/-- The end of the loop of `notify`. -/
def popped (s : State F) (f : F) (asked : ℤ) (queued woke : List (Parker F)) : State F :=
  let t := { s with notices := s.notices ++ [Notice.mk (some asked) queued woke] }
  if woke = [] then t.goto f (.returned .notified) else t.unparkAll f woke

def notifyAll (s : State F) (f : F) : State F :=
  { s with
    waiters := []
    removed := s.removed ++ s.waiters
    notices := s.notices ++ [Notice.mk none s.waiters s.waiters] }.unparkAll f s.waiters

def call (s : State F) (f : F) : Call → State F
  | .wait timeout =>
    { s with entry := update s.entry f (Entry.mk timeout s.now s.lock.count) }.goto f
      (.entered timeout s.lock.count)
  | .notify n => s.goto f (.popping n s.waiters n.toNat [])
  | .notifyAll => s.notifyAll f

def enqueue (s : State F) (f : F) (w : Wait) : State F :=
  { s with
    made := update s.made f (s.made f + 1)
    waiters := s.waiters ++ [Parker.mk f (s.made f)] }.goto f (.round w (s.made f) .counting)

/-- `self._waiters.remove(p)`. -/
def remove (s : State F) (f : F) (w : Wait) (k : ℕ) : State F :=
  if Parker.mk f k ∈ s.waiters then { s with waiters := s.waiters.erase (Parker.mk f k) }.goto f (.checking w k)
  -- A `notify` has popped it.
  else s.goto f (.restoring w k true)

def round (kind : Kind) (foreign : F → Bool) (s : State F) (f : F) (w : Wait) (k : ℕ) : Stage → Option (State F)
  | .counting => some ({ s with lock := s.lock.setCount kind 1 }.goto f (.round w k .releasing))
  | .releasing => some ({ s with lock := s.lock.release kind }.goto f (.round w k .testing))
  | .testing =>
    match w.deadline with
    | none => some (s.goto f (.round w k .waiting))
    | some d => some (s.goto f (.round w k (if s.now < d then .waiting else .leaving)))
  -- A park that finds a credit takes it, and returns at once.
  | .waiting =>
    if 0 < s.credit f then some ((s.eat foreign f).goto f (.round w k .leaving))
    else some (s.goto f (.round w k .parked))
  -- The party was woken, its deadline came, or the park returned for no reason.
  | .parked => some ((s.eat foreign f).goto f (.round w k .leaving))
  -- The release of a thread's parker drains the pipe.
  | .leaving =>
    some ({ s with
      gone := update s.gone (Parker.mk f k) true
      credit := update s.credit f (if foreign f then 0 else s.credit f) }.goto f (.round w k .acquiring))
  | .acquiring => (s.lock.acquire kind f).map fun l => { s with lock := l }.goto f (.round w k .removing)
  | .removing => some (s.remove f w k)

def next (kind : Kind) (foreign : F → Bool) (s : State F) (f : F) : Option (State F) :=
  match s.pc f with
  | .idle => none
  | .entered timeout saved => some (s.goto f (.making ⟨timeout.map (s.now + ·), saved⟩))
  | .making w => some (s.enqueue f w)
  | .round w k x => s.round kind foreign f w k x
  | .checking w k =>
    match w.deadline with
    | none => some (s.goto f (.making w))
    | some d => some (s.goto f (if d ≤ s.now then .restoring w k false else .making w))
  | .restoring w k r =>
    some ({ s with
      lock := s.lock.setCount kind w.saved
      returns := s.returns ++ [(Parker.mk f k, r)] }.goto f (.returned (.waited k r)))
  | .popping asked queued n woke =>
    match n, s.waiters with
    | n + 1, p :: rest =>
      some ({ s with waiters := rest, removed := s.removed ++ [p] }.goto f (.popping asked queued n (woke ++ [p])))
    | _, _ => some (s.popped f asked queued woke)
  -- The parker of a fiber has no handle any more once it is released.
  | .collecting (p :: ps) inmem rest =>
    some (s.goto f (if foreign p.fiber then .collecting ps inmem (rest ++ [p])
      else if s.gone p then .collecting ps inmem rest
      else .collecting ps (inmem ++ [p]) rest))
  | .collecting [] inmem rest => some (s.goto f (.waking (inmem ++ rest)))
  -- A byte for a parker that is released is in nobody's pipe, or in that of a stranger.
  | .waking (p :: ps) =>
    some ((if foreign p.fiber && s.gone p then s else s.wakeUp p.fiber).goto f (.waking ps))
  | .waking [] => some (s.goto f (.returned .notified))
  | .returned _ => some (s.goto f .idle)

end State

def step (kind : Kind) (foreign : F → Bool) (s : State F) : Action F → Option (State F)
  | .acquire f => if s.pc f = .idle then (s.lock.acquire kind f).map fun l => { s with lock := l } else none
  | .release f =>
    if s.pc f = .idle ∧ s.lock.holder = some f then some { s with lock := s.lock.release kind } else none
  | .call f c => if s.pc f = .idle ∧ s.lock.holder = some f then some (s.call f c) else none
  | .next f => s.next kind foreign f
  | .elsewhere f => if (s.pc f).asleep then none else some (s.eat foreign f)
  | .poke f => some (s.wakeUp f)
  | .tick d => some { s with now := s.now + d }

structure Init (s : State F) : Prop where
  lock : s.lock = ⟨none, 0⟩
  waiters : s.waiters = []
  gone : ∀ p, s.gone p = false
  pc : ∀ f, s.pc f = .idle
  removed : s.removed = []
  notices : s.notices = []
  returns : s.returns = []

/-- A condition and its parties; `foreign` says which of them are threads. -/
def condition (kind : Kind) (foreign : F → Bool) : System (State F) (Action F) where
  init := Init
  step := step kind foreign

end Runloom.CoCondition
