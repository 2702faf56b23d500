import Runloom.Transition.System

/-!
# The cooperative `SimpleQueue`

Model of `CoSimpleQueue.put`, `wake_one` and `get`.  Each deque operation, each read or write of a record's active
flag, each unpark and each return from a park is one step.

A call of `get` has an id of its own, and its waiter record `[parker, active]` is named by that id: `waiters` holds
ids, `active i` is the record's flag and `byte i` says that the pipe of its parker has a wake byte.
-/

namespace Runloom.SimpleQueue

open Transition

variable {α : Type*}

/-- The arguments of a `get` call: `block`, whether the caller is a fiber, and whether there is a
timeout. -/
structure Call where
  block : Bool
  fiber : Bool
  timed : Bool

/-- Where a `get` call is; the result `none` is the `Empty` exception. -/
inductive GetPc (α : Type*) where
  | idle
  | fastPop
  | spin
  | spinWait
  | register
  | firstPop
  | loopPop
  | deadline
  | check
  | reRegister
  | rePop
  | park
  | deactivate (r : Option α)
  | remove (r : Option α)
  | release (r : Option α)
  | done (r : Option α)
deriving DecidableEq

/-- The flag `stale` of a popped record: its getter had stopped waiting, which the code does not know. -/
inductive PutPc (α : Type*) where
  | idle
  | append (x : α)
  | test
  | popWaiter
  | readActive (i : ℕ) (stale : Bool)
  | unpark (i : ℕ)
deriving DecidableEq

structure State (α : Type*) where
  items : List α
  waiters : List ℕ
  active : ℕ → Bool
  byte : ℕ → Bool
  call : ℕ → Call
  getter : ℕ → GetPc α
  putter : ℕ → PutPc α

inductive Action (α : Type*) where
  | get (i : ℕ) (c : Call)
  | getNext (i : ℕ)
  | expire (i : ℕ)
  | put (p : ℕ) (x : α)
  | putNext (p : ℕ)

def GetPc.left : GetPc α → Bool
  | .deactivate _ | .remove _ | .release _ | .done _ => true
  | _ => false

def State.goGet (s : State α) (i : ℕ) (pc : GetPc α) : State α :=
  { s with getter := update s.getter i pc }

def State.goPut (s : State α) (p : ℕ) (pc : PutPc α) : State α :=
  { s with putter := update s.putter p pc }

/-- `self._items.popleft()`: on to `found`, or to `empty` after the `IndexError`. -/
def popItem (s : State α) (i : ℕ) (found : α → GetPc α) (empty : GetPc α) : State α :=
  match s.items with
  | x :: rest => { s with items := rest }.goGet i (found x)
  | [] => s.goGet i empty

def afterFastPop (c : Call) : GetPc α :=
  if !c.block then .done none else if !c.fiber then .spin else .register

def getNext (s : State α) (i : ℕ) : Option (State α) :=
  match s.getter i with
  | .idle | .done _ => none
  | .fastPop => some (popItem s i (fun x => .done (some x)) (afterFastPop (s.call i)))
  | .spin => some (popItem s i (fun x => .done (some x)) .spinWait)
  | .spinWait => some (s.goGet i .spin)
  | .register =>
    some ({ s with
      waiters := s.waiters ++ [i]
      active := update s.active i true
      byte := update s.byte i false }.goGet i .firstPop)
  | .firstPop => some (popItem s i (fun x => .deactivate (some x)) .loopPop)
  | .loopPop => some (popItem s i (fun x => .deactivate (some x)) .deadline)
  | .deadline => some (s.goGet i .check)
  -- A `put` may have popped the record for an item that somebody else took.
  | .check => some (s.goGet i (if i ∈ s.waiters then .park else .reRegister))
  | .reRegister => some ({ s with waiters := s.waiters ++ [i] }.goGet i .rePop)
  -- An item that came while the record was out of the deque has woken nobody.
  | .rePop => some (popItem s i (fun x => .deactivate (some x)) .park)
  | .park => some ({ s with byte := update s.byte i false }.goGet i .loopPop)
  | .deactivate r =>
    some ({ s with active := update s.active i false }.goGet i (.remove r))
  | .remove r => some ({ s with waiters := s.waiters.erase i }.goGet i (.release r))
  | .release r => some (s.goGet i (.done r))

/-- The deadline of a timed call has passed when the call looks at the clock. -/
def expire (s : State α) (i : ℕ) : Option (State α) :=
  if (s.call i).timed then
    match s.getter i with
    | .spinWait => some (s.goGet i (.done none))
    | .deadline => some (s.goGet i (.deactivate none))
    | _ => none
  else none

def putNext (s : State α) (p : ℕ) : Option (State α) :=
  match s.putter p with
  | .idle => none
  | .append x => some ({ s with items := s.items ++ [x] }.goPut p .test)
  -- The deque is tested without a lock.
  | .test => some (s.goPut p (if s.waiters = [] then .idle else .popWaiter))
  | .popWaiter =>
    match s.waiters with
    -- Another `put`, or the getter itself, was faster.
    | [] => some (s.goPut p .idle)
    | i :: rest =>
      some ({ s with waiters := rest }.goPut p (.readActive i (s.getter i).left))
  | .readActive i _ => some (s.goPut p (if s.active i then .unpark i else .popWaiter))
  | .unpark i => some ({ s with byte := update s.byte i true }.goPut p .idle)

def step (s : State α) : Action α → Option (State α)
  | .get i c =>
    match s.getter i with
    | .idle => some ({ s with call := update s.call i c }.goGet i .fastPop)
    | _ => none
  | .getNext i => getNext s i
  | .expire i => expire s i
  | .put p x =>
    match s.putter p with
    | .idle => some (s.goPut p (.append x))
    | _ => none
  | .putNext p => putNext s p

/-- `__init__`: both deques are empty. -/
structure Init (s : State α) : Prop where
  items : s.items = []
  waiters : s.waiters = []
  getter : ∀ i, s.getter i = .idle
  putter : ∀ p, s.putter p = .idle

variable (α) in
def simpleQueue : System (State α) (Action α) where
  init := Init
  step := step

end Runloom.SimpleQueue
