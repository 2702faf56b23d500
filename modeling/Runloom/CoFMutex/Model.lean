import Mathlib.Data.Int.Notation
import Runloom.Handoff.Tickets
import Runloom.Transition.System

/-!
# The foreign-safe cooperative mutex

Model of `CoFMutex`: `acquire` (blocking or not, with a timeout or without) and `release`, called by fibers and by
foreign threads. A step is a section under the guard, the making or the release of a parker, a read of the clock, a
park or its return, or one half of a wake.

The record `[parker, active, granted]` of an `acquire` is known by its name, and its flags are those of a ticket.
-/

namespace Runloom.CoFMutex

open Transition Handoff

inductive Call where
  | acquire (blocking : Bool) (timeout : Option ℤ)
  | release

inductive Result where
  | true
  | false
  /-- The return of `release`. -/
  | none
  /-- `RuntimeError`, "release unlocked lock". -/
  | unlocked
deriving DecidableEq

/-- Where a call is. -/
inductive Pc (C : Type*) where
  | idle
  | building (timeout : Option ℤ)
  /-- In `_waiters`; before the deadline is computed. -/
  | entered (timeout : Option ℤ)
  /-- Before the section of `_granted`. -/
  | look (deadline : Option ℤ)
  | clock (deadline : ℤ)
  | waiting (deadline : Option ℤ)
  | parked (deadline : Option ℤ)
  | expired
  | leaving (r : Result)
  /-- `release` has left the guard, and has a parker to wake. -/
  | handOff (c : C)
  | wake (c : C)
  | returned (r : Result)
deriving DecidableEq

/-- What happened, in order. -/
inductive Event (C : Type*) where
  | acquired (c : C)
  | released

structure State (C : Type*) where
  locked : Bool
  tickets : Tickets C
  gone : C → Bool
  credit : C → ℕ
  pc : C → Pc C
  now : ℤ
  /-- The calls that were appended to `_waiters`, in order. -/
  arrivals : List C
  log : List (Event C)

inductive Action (C : Type*) where
  | call (c : C) (k : Call)
  | next (c : C)
  | elsewhere (c : C)
  | poke (c : C)
  | tick (d : ℕ)

namespace Pc

variable {C : Type*}

def asleep : Pc C → Bool
  | .clock _ | .waiting _ | .parked _ => true
  | _ => false

def toWake : Pc C → List C
  | .handOff c | .wake c => [c]
  | _ => []

end Pc

variable {C : Type*} [DecidableEq C]

namespace State

def goto (s : State C) (c : C) (pc : Pc C) : State C := { s with pc := update s.pc c pc }

@[simp] theorem goto_self (s : State C) (c : C) (pc : Pc C) : (s.goto c pc).pc c = pc := update_self ..

theorem goto_of_ne (s : State C) (pc : Pc C) {c d : C} (h : d ≠ c) : (s.goto c pc).pc d = s.pc d :=
  update_of_ne h ..

def wakeUp (s : State C) (c : C) : State C := { s with credit := update s.credit c (s.credit c + 1) }

def eat (foreign : C → Bool) (s : State C) (c : C) : State C :=
  { s with credit := update s.credit c (if foreign c then 0 else s.credit c - 1) }

def take (s : State C) (c : C) (pc : Pc C) : State C :=
  { s with locked := true, log := s.log ++ [Event.acquired c] }.goto c pc

/-- The section of `release`. -/
def release (forked : Bool) (s : State C) (c : C) : State C :=
  if !s.locked then
    -- In a forked child the release of an unlocked mutex is let pass.
    s.goto c (.returned (if forked then .none else .unlocked))
  else
    match s.tickets.hand with
    | (some d, tickets) =>
      { s with tickets := tickets, log := s.log ++ [Event.released, Event.acquired d] }.goto c (.handOff d)
    | (none, tickets) =>
      { s with locked := false, tickets := tickets, log := s.log ++ [Event.released] }.goto c (.returned .none)

def call (forked : Bool) (s : State C) (c : C) : Call → State C
  | .acquire blocking timeout =>
    if !s.locked then s.take c (.returned .true)
    else if !blocking then s.goto c (.returned .false)
    else s.goto c (.building timeout)
  | .release => s.release forked c

def enqueue (s : State C) (c : C) (timeout : Option ℤ) : State C :=
  -- The mutex was released while the parker was made.
  if !s.locked then s.take c (.leaving .true)
  else { s with tickets := s.tickets.append c, arrivals := s.arrivals ++ [c] }.goto c (.entered timeout)

/-- The section of `_granted`, and what the loop does with it. -/
def look (s : State C) (c : C) (deadline : Option ℤ) : State C :=
  if s.tickets.granted c then s.goto c (.leaving .true)
  else
    match deadline with
    | none => s.goto c (.waiting none)
    | some d => s.goto c (.clock d)

def expire (s : State C) (c : C) : State C :=
  -- Granted at the last moment.
  if s.tickets.granted c then s.goto c (.leaving .true)
  else { s with tickets := s.tickets.deactivate c }.goto c (.leaving .false)

def next (foreign : C → Bool) (s : State C) (c : C) : Option (State C) :=
  match s.pc c with
  | .idle => none
  | .building timeout => some (s.enqueue c timeout)
  | .entered timeout => some (s.goto c (.look (timeout.map (s.now + ·))))
  | .look deadline => some (s.look c deadline)
  | .clock d => some (if d ≤ s.now then s.goto c .expired else s.goto c (.waiting (some d)))
  -- A park that finds a credit takes it, and returns at once.
  | .waiting deadline =>
    some (if 0 < s.credit c then (s.eat foreign c).goto c (.look deadline) else s.goto c (.parked deadline))
  -- The call was woken, its deadline came, or the park returned for no reason.
  | .parked deadline => some ((s.eat foreign c).goto c (.look deadline))
  | .expired => some (s.expire c)
  | .leaving r => some ({ s with gone := update s.gone c true }.goto c (.returned r))
  -- A fiber whose parker is released has no handle any more; a thread has none at all, and its pipe is written.
  | .handOff d => some (if s.gone d && !foreign d then s.goto c (.returned .none) else s.goto c (.wake d))
  | .wake d => some ((s.wakeUp d).goto c (.returned .none))
  | .returned _ => none

end State

def step (foreign : C → Bool) (forked : Bool) (s : State C) : Action C → Option (State C)
  | .call c k =>
    match s.pc c with
    | .idle => some (s.call forked c k)
    | _ => none
  | .next c => s.next foreign c
  | .elsewhere c => if (s.pc c).asleep then none else some (s.eat foreign c)
  | .poke c => some (s.wakeUp c)
  | .tick d => some { s with now := s.now + d }

structure Init (s : State C) : Prop where
  locked : s.locked = false
  waiters : s.tickets.waiters = []
  granted : ∀ c, s.tickets.granted c = false
  gone : ∀ c, s.gone c = false
  pc : ∀ c, s.pc c = .idle
  arrivals : s.arrivals = []
  log : s.log = []

/-- `foreign` says which calls come from foreign threads, `forked` that the process is a forked child. -/
def mutex (foreign : C → Bool) (forked : Bool) : System (State C) (Action C) where
  init := Init
  step := step foreign forked

/-- Who has the mutex, or is granted it: every release ends the hold of one. -/
def owners (log : List (Event C)) : List C :=
  log.foldl (fun held e => match e with
    | .acquired c => held ++ [c]
    | .released => held.tail) []

end Runloom.CoFMutex
