import Mathlib.Logic.Relation
import Runloom.Transition.System

/-!
# Cancellation contexts

Model of `_CancelCtx`, `WithCancel` and `WithDeadline`: a tree of contexts, in which a cancelled context cancels its
children.  A step is one section under a context's lock, or one step of the loop over the children that were taken out
of the list.

A deadline that fires is a call of `_cancel` like any other, with its own reason; the waker fiber and its park are not
part of this model.
-/

namespace Runloom.Context

open Transition

inductive Reason where
  | cancelled
  | deadlineExceeded
deriving DecidableEq

inductive Frame (X : Type*) where
  /-- `__init__`, after the registration with the parent. -/
  | construct (x : X)
  /-- `_cancel`, before it takes the lock. -/
  | cancel (x : X) (reason : Reason) (removeFromParent : Bool)
  | fan (x : X) (reason : Reason) (removeFromParent : Bool) (children : List X)
  /-- `parent._remove_child(x)`. -/
  | removeChild (parent x : X)

structure State (T X : Type*) where
  born : X → Bool
  made : X → Bool
  err : X → Option Reason
  /-- `done` is closed. -/
  closed : X → Bool
  children : X → List X
  stack : T → List (Frame X)
  /-- The calls of `cancel` and the deadlines that fired, each with its context. -/
  given : List (X × Reason)

inductive Action (T X : Type*) where
  | create (t : T) (x : X)
  | cancel (t : T) (x : X) (reason : Reason)
  | run (t : T)

variable {T X : Type*} [DecidableEq T] [DecidableEq X]

namespace State

def setStack (s : State T X) (t : T) (fs : List (Frame X)) : State T X :=
  { s with stack := update s.stack t fs }

/-- The part of `__init__` under the parent's lock; `none` is the background. -/
def register (s : State T X) (t : T) (x : X) : Option X → Option (State T X)
  | none => some ({ s with born := update s.born x true }.setStack t [.construct x])
  | some p =>
    if s.made p then
      let s := { s with born := update s.born x true }
      match s.err p with
      | none =>
        some ({ s with children := update s.children p (s.children p ++ [x]) }.setStack t [.construct x])
      -- A child of a cancelled parent is not registered, and is cancelled before its constructor returns.
      | some reason => some (s.setStack t [.cancel x reason false, .construct x])
    else none

/-- The section of `_cancel` under the context's own lock. -/
def enter (s : State T X) (t : T) (x : X) (reason : Reason) (remove : Bool) (rest : List (Frame X)) : State T X :=
  match s.err x with
  -- The first reason stays.
  | some _ => s.setStack t rest
  | none =>
    { s with
      err := update s.err x (some reason),
      closed := update s.closed x true,
      children := update s.children x [] }.setStack t (.fan x reason remove (s.children x) :: rest)

def run (parent : X → Option X) (s : State T X) (t : T) : Option (State T X) :=
  match s.stack t with
  | [] => none
  | .construct x :: rest =>
    some ({ s with made := update s.made x true }.setStack t rest)
  | .cancel x reason remove :: rest => some (s.enter t x reason remove rest)
  | .fan x reason remove (k :: ks) :: rest =>
    -- A child need not leave the list of its parent, which was emptied in the section.
    some (s.setStack t (.cancel k reason false :: .fan x reason remove ks :: rest))
  | .fan x _ remove [] :: rest =>
    match remove, parent x with
    | true, some p => some (s.setStack t (.removeChild p x :: rest))
    | _, _ => some (s.setStack t rest)
  | .removeChild p x :: rest =>
    some ({ s with children := update s.children p ((s.children p).erase x) }.setStack t rest)

end State

def step (parent : X → Option X) (s : State T X) : Action T X → Option (State T X)
  | .create t x =>
    if s.stack t = [] ∧ s.born x = false then s.register t x (parent x) else none
  | .cancel t x reason =>
    if s.stack t = [] ∧ s.made x = true then
      some ({ s with given := s.given ++ [(x, reason)] }.setStack t [.cancel x reason true])
    else none
  | .run t => s.run parent t

structure Init (s : State T X) : Prop where
  born : ∀ x, s.born x = false
  made : ∀ x, s.made x = false
  err : ∀ x, s.err x = none
  closed : ∀ x, s.closed x = false
  children : ∀ x, s.children x = []
  stack : ∀ t, s.stack t = []
  given : s.given = []

def contexts (parent : X → Option X) : System (State T X) (Action T X) where
  init := Init
  step := step parent

end Runloom.Context
