import Mathlib.Data.Int.Notation
import Runloom.Handoff.WaitList
import Runloom.Transition.System

/-!
# The cooperative event

Model of `CoEvent`: `set`, `clear`, and `wait` as a fiber calls it, with `_unpark_all`.  A step is a section under the
guard, an unguarded read of `_flag` or of the clock, a park or its return, the read of a parker's handle, or one wake.

Every call has a name of its own, and so has the parker that a `wait` makes: no two calls have the same one.
-/

namespace Runloom.CoEvent

open Transition

inductive Call where
  | wait (timeout : Option ℤ)
  | set
  | clear

inductive Result where
  | true
  | false
  /-- The return of `set` and of `clear`. -/
  | none
deriving DecidableEq

/-- Where a call is. -/
inductive Pc (C : Type*) where
  | idle
  /-- `wait` has read the flag clear, and makes its parker; before its first section. -/
  | building (timeout : Option ℤ)
  /-- In `_waiters`; before the deadline is computed. -/
  | entered (timeout : Option ℤ)
  /-- Before the test of the loop, after a section that left the parker in `_waiters`. -/
  | test (deadline : Option ℤ)
  | retest (deadline : Option ℤ)
  | clock (deadline : ℤ)
  | waiting (deadline : Option ℤ)
  | parked (deadline : Option ℤ)
  | woken (deadline : Option ℤ)
  | relist (deadline : Option ℤ)
  | leaving
  | releasing
  | reading
  /-- In `_unpark_all`: the parkers to look at, and those whose handle has been read. -/
  | collect (parkers got : List C)
  | waking (handles : List C)
  | returned (r : Result)
deriving DecidableEq

namespace Pc

variable {C : Type*}

/-- The call is between the section that left its parker in `_waiters` and its resume. -/
def committed : Pc C → Bool
  | .entered _ | .test _ | .clock _ | .waiting _ | .parked _ => true
  | _ => false

def toWake : Pc C → List C
  | .collect parkers got => got ++ parkers
  | .waking handles => handles
  | _ => []

end Pc

structure State (C : Type*) where
  flag : Bool
  waiters : List C
  released : C → Bool
  credit : C → ℕ
  pc : C → Pc C
  now : ℤ

inductive Action (C : Type*) where
  | call (c : C) (k : Call)
  | next (c : C)
  | elsewhere (c : C)
  | poke (c : C)
  | tick (d : ℕ)

variable {C : Type*} [DecidableEq C]

namespace State

def goto (s : State C) (c : C) (pc : Pc C) : State C := { s with pc := update s.pc c pc }

@[simp] theorem goto_self (s : State C) (c : C) (pc : Pc C) : (s.goto c pc).pc c = pc := update_self ..

theorem goto_of_ne (s : State C) (pc : Pc C) {c d : C} (h : d ≠ c) : (s.goto c pc).pc d = s.pc d :=
  update_of_ne h ..

def wake (s : State C) (c : C) : State C := { s with credit := update s.credit c (s.credit c + 1) }

def eat (s : State C) (c : C) : State C := { s with credit := update s.credit c (s.credit c - 1) }

def call (s : State C) (c : C) : Call → State C
  | .wait timeout => if s.flag then s.goto c (.returned .true) else s.goto c (.building timeout)
  | .set =>
    if s.flag then s.goto c (.returned .none)
    else { s with flag := true, waiters := [] }.goto c (.collect s.waiters [])
  | .clear => { s with flag := false }.goto c (.returned .none)

/-- The first section of `wait`. -/
def register (s : State C) (c : C) (timeout : Option ℤ) : State C :=
  -- `set` came while the parker was made.
  if s.flag then { s with released := update s.released c true }.goto c (.returned .true)
  else { s with waiters := s.waiters ++ [c] }.goto c (.entered timeout)

/-- The test of the loop, `while not self._flag`. -/
def test (s : State C) (c : C) (deadline : Option ℤ) : State C :=
  if s.flag then s.goto c .leaving
  else
    match deadline with
    | none => s.goto c (.waiting none)
    | some d => s.goto c (.clock d)

def relist (s : State C) (c : C) (deadline : Option ℤ) : State C :=
  if s.flag then s.goto c (.retest deadline)
  else if c ∈ s.waiters then s.goto c (.test deadline)
  else { s with waiters := s.waiters ++ [c] }.goto c (.test deadline)

def collect (s : State C) (c p : C) (parkers got : List C) : State C :=
  s.goto c (.collect parkers (if s.released p then got else got ++ [p]))

def next (s : State C) (c : C) : Option (State C) :=
  match s.pc c with
  | .idle => none
  | .building timeout => some (s.register c timeout)
  | .entered timeout => some (s.goto c (.test (timeout.map (s.now + ·))))
  | .test deadline => some (s.test c deadline)
  | .retest deadline => some (s.test c deadline)
  | .clock d => some (if d ≤ s.now then s.goto c .leaving else s.goto c (.waiting (some d)))
  -- A park that finds a credit takes it, and returns at once.
  | .waiting deadline =>
    some (if 0 < s.credit c then (s.eat c).goto c (.woken deadline) else s.goto c (.parked deadline))
  -- The fiber was woken, its deadline came, or the park returned for no reason.
  | .parked deadline => some ((s.eat c).goto c (.woken deadline))
  | .woken deadline => some (if s.flag then s.goto c (.retest deadline) else s.goto c (.relist deadline))
  | .relist deadline => some (s.relist c deadline)
  | .leaving => some ({ s with waiters := s.waiters.erase c }.goto c .releasing)
  | .releasing => some ({ s with released := update s.released c true }.goto c .reading)
  | .reading => some (s.goto c (.returned (if s.flag then .true else .false)))
  | .collect (p :: parkers) got => some (s.collect c p parkers got)
  | .collect [] got => some (s.goto c (.waking got))
  | .waking (p :: handles) => some ((s.wake p).goto c (.waking handles))
  | .waking [] => some (s.goto c (.returned .none))
  | .returned _ => none

end State

def step (s : State C) : Action C → Option (State C)
  | .call c k =>
    match s.pc c with
    | .idle => some (s.call c k)
    | _ => none
  | .next c => s.next c
  -- The code from the registration to the park has no park in it.
  | .elsewhere c => if (s.pc c).committed then none else some (s.eat c)
  | .poke c => some (s.wake c)
  | .tick d => some { s with now := s.now + d }

structure Init (s : State C) : Prop where
  flag : s.flag = false
  waiters : s.waiters = []
  released : ∀ c, s.released c = false
  pc : ∀ c, s.pc c = .idle

def event (C : Type*) [DecidableEq C] : System (State C) (Action C) where
  init := Init
  step := step

end Runloom.CoEvent
