import Mathlib.Data.Int.Notation
import Runloom.Handoff.Tickets
import Runloom.Transition.System

/-!
# The cooperative semaphores

Model of `CoSemaphore` and `CoBoundedSemaphore`: `acquire` (blocking or not, with a timeout or without, from a fiber
or from a foreign thread), `release` and `cancel_all`. A step is a section under the guard, an unguarded access to
`w[1]`, `w[2]` or `_cancelled`, a read of the clock, a park or its return, or one half of a wake.

The record `w = [parker, active, got_permit]` of a call is known by its name, and its flags are those of a ticket.
-/

namespace Runloom.CoSemaphore

open Transition Handoff

inductive Call where
  | acquire (blocking : Bool) (timeout : Option ℤ)
  | release (n : ℤ)
  | cancelAll

inductive Result where
  | true
  | false
  /-- The return of `release` and of `cancel_all`. -/
  | none
  /-- `ValueError`, "Semaphore released too many times". -/
  | tooMany
deriving DecidableEq

/-- Where a call is. -/
inductive Pc (C : Type*) where
  | idle
  | foreign (timeout : Option ℤ)
  | poll (deadline : Option ℤ)
  | nap (deadline : Option ℤ)
  | building (timeout : Option ℤ)
  /-- In `_waiters`; before the deadline is computed. -/
  | entered (timeout : Option ℤ)
  /-- Before the read of `w[2]` in the loop. -/
  | test (deadline : Option ℤ)
  /-- Before the read of `_cancelled`. -/
  | check (deadline : Option ℤ)
  | clock (deadline : ℤ)
  | waiting (deadline : Option ℤ)
  | parked (deadline : Option ℤ)
  | expired
  | leaving
  /-- Before the read of `w[2]` that is returned. -/
  | reading
  | settled (r : Result)
  /-- `CoSemaphore.release`, with `n` permits to give and the parkers to wake so far. -/
  | releasing (n : ℕ) (woke : List C)
  /-- `cancel_all`: the records to look at, and the parkers to wake so far. -/
  | sweep (ws woke : List C)
  /-- `cancel_all` has read `w[1]` set, and clears it. -/
  | mark (w : C) (ws woke : List C)
  /-- In `_unpark_all`: the parkers to look at, and those whose handle has been read. -/
  | collect (parkers got : List C)
  | waking (handles : List C)
  | returned (r : Result)
deriving DecidableEq

structure State (C : Type*) where
  value : ℤ
  tickets : Tickets C
  cancelled : Bool
  gone : C → Bool
  credit : C → ℕ
  pc : C → Pc C
  now : ℤ
  released : ℤ

inductive Action (C : Type*) where
  | call (c : C) (k : Call)
  | next (c : C)
  | elsewhere (c : C)
  | poke (c : C)
  | tick (d : ℕ)

/-- `foreign` says which calls come from foreign threads. -/
structure Config (C : Type*) where
  bounded : Bool
  initial : ℤ
  foreign : C → Bool

variable {C : Type*} [DecidableEq C]

namespace State

def goto (s : State C) (c : C) (pc : Pc C) : State C := { s with pc := update s.pc c pc }

@[simp] theorem goto_self (s : State C) (c : C) (pc : Pc C) : (s.goto c pc).pc c = pc := update_self ..

theorem goto_of_ne (s : State C) (pc : Pc C) {c d : C} (h : d ≠ c) : (s.goto c pc).pc d = s.pc d :=
  update_of_ne h ..

def wake (s : State C) (c : C) : State C := { s with credit := update s.credit c (s.credit c + 1) }

def eat (s : State C) (c : C) : State C := { s with credit := update s.credit c (s.credit c - 1) }

/-- One permit is given: to the first active waiter, or back to the count. -/
def giveOne (s : State C) : Option C × State C :=
  match s.tickets.hand with
  | (some d, tickets) => (some d, { s with tickets := tickets, released := s.released + 1 })
  | (none, tickets) => (none, { s with tickets := tickets, released := s.released + 1, value := s.value + 1 })

/-- `n` permits are given under one hold of the guard. -/
def give : ℕ → State C → List C → State C × List C
  | 0, s, woke => (s, woke)
  | n + 1, s, woke =>
    match s.giveOne with
    | (some d, s) => give n s (woke ++ [d])
    | (none, s) => give n s woke

/-- `if woke: _unpark_all(woke)`. -/
def unparkAll (s : State C) (c : C) (woke : List C) : State C :=
  s.goto c (if woke.isEmpty then .returned .none else .collect woke [])

/-- `release`: in the base class a section for every permit, in the bounded one a single one. -/
def release (cfg : Config C) (s : State C) (c : C) (n : ℤ) : State C :=
  if cfg.bounded then
    if cfg.initial < s.value + n then s.goto c (.returned .tooMany)
    else
      let (s, woke) := give n.toNat s []
      s.unparkAll c woke
  else s.goto c (.releasing n.toNat [])

def call (cfg : Config C) (s : State C) (c : C) : Call → State C
  | .acquire blocking timeout =>
    if 0 < s.value then { s with value := s.value - 1 }.goto c (.returned .true)
    else if !blocking then s.goto c (.returned .false)
    else if s.cancelled then s.goto c (.returned .false)
    else if cfg.foreign c then s.goto c (.foreign timeout)
    else s.goto c (.building timeout)
  | .release n => s.release cfg c n
  -- The queue is taken away whole.
  | .cancelAll =>
    { s with cancelled := true, tickets := { s.tickets with waiters := [] } }.goto c (.sweep s.tickets.waiters [])

def enqueue (s : State C) (c : C) (timeout : Option ℤ) : State C :=
  if 0 < s.value then { s with value := s.value - 1 }.goto c (.settled .true)
  else if s.cancelled then s.goto c (.settled .false)
  else { s with tickets := s.tickets.append c }.goto c (.entered timeout)

def poll (s : State C) (c : C) (deadline : Option ℤ) : State C :=
  if 0 < s.value then { s with value := s.value - 1 }.goto c (.returned .true)
  else s.goto c (.nap deadline)

def expire (s : State C) (c : C) : State C :=
  if s.tickets.granted c then s.goto c .leaving
  else { s with tickets := s.tickets.deactivate c }.goto c .leaving

/-- A section of `CoSemaphore.release`. -/
def releaseOne (s : State C) (c : C) (n : ℕ) (woke : List C) : State C :=
  match s.giveOne with
  | (some d, s) => s.goto c (.releasing n (woke ++ [d]))
  | (none, s) => s.goto c (.releasing n woke)

def next (s : State C) (c : C) : Option (State C) :=
  match s.pc c with
  | .idle => none
  | .foreign timeout => some (s.goto c (.poll (timeout.map (s.now + ·))))
  | .poll deadline => some (s.poll c deadline)
  | .nap deadline =>
    some (if deadline.any fun d => decide (d ≤ s.now) then s.goto c (.returned .false) else s.goto c (.poll deadline))
  | .building timeout => some (s.enqueue c timeout)
  | .entered timeout => some (s.goto c (.test (timeout.map (s.now + ·))))
  | .test deadline => some (if s.tickets.granted c then s.goto c .leaving else s.goto c (.check deadline))
  | .check deadline =>
    some (if s.cancelled then s.goto c .leaving
      else match deadline with
        | none => s.goto c (.waiting none)
        | some d => s.goto c (.clock d))
  | .clock d => some (if d ≤ s.now then s.goto c .expired else s.goto c (.waiting (some d)))
  -- A park that finds a credit takes it, and returns at once.
  | .waiting deadline =>
    some (if 0 < s.credit c then (s.eat c).goto c (.test deadline) else s.goto c (.parked deadline))
  -- The fiber was woken, its deadline came, or the park returned for no reason.
  | .parked deadline => some ((s.eat c).goto c (.test deadline))
  | .expired => some (s.expire c)
  | .leaving => some ({ s with gone := update s.gone c true }.goto c .reading)
  | .reading => some (s.goto c (.returned (if s.tickets.granted c then .true else .false)))
  | .settled r => some ({ s with gone := update s.gone c true }.goto c (.returned r))
  | .releasing (n + 1) woke => some (s.releaseOne c n woke)
  | .releasing 0 woke => some (s.unparkAll c woke)
  | .sweep (w :: ws) woke =>
    some (if s.tickets.active w then s.goto c (.mark w ws woke) else s.goto c (.sweep ws woke))
  | .sweep [] woke => some (s.unparkAll c woke)
  | .mark w ws woke => some ({ s with tickets := s.tickets.deactivate w }.goto c (.sweep ws (woke ++ [w])))
  | .collect (p :: parkers) got => some (s.goto c (.collect parkers (if s.gone p then got else got ++ [p])))
  | .collect [] got => some (s.goto c (.waking got))
  | .waking (p :: handles) => some ((s.wake p).goto c (.waking handles))
  | .waking [] => some (s.goto c (.returned .none))
  | .returned _ => none

end State

def step (cfg : Config C) (s : State C) : Action C → Option (State C)
  | .call c k =>
    match s.pc c with
    | .idle => some (s.call cfg c k)
    | _ => none
  | .next c => s.next c
  | .elsewhere c => some (s.eat c)
  | .poke c => some (s.wake c)
  | .tick d => some { s with now := s.now + d }

structure Init (cfg : Config C) (s : State C) : Prop where
  /-- `__init__` refuses a negative value. -/
  initial : 0 ≤ cfg.initial
  value : s.value = cfg.initial
  waiters : s.tickets.waiters = []
  granted : ∀ c, s.tickets.granted c = false
  cancelled : s.cancelled = false
  pc : ∀ c, s.pc c = .idle
  released : s.released = 0

def semaphore (cfg : Config C) : System (State C) (Action C) where
  init := Init cfg
  step := step cfg

end Runloom.CoSemaphore
