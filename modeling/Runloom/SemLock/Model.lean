import Mathlib.Data.Int.Notation
import Runloom.Transition.System

/-!
# The recursive `SemLock` of `multiprocessing`

Model of `acquire` and `release` of `_co_recursive_semlock_methods`, over the C `SemLock` of kind `RECURSIVE_MUTEX`,
which knows its holder by the OS thread, while many fibers run on the thread of one hub. Every access to `state[0]`
and `state[1]` is a step, and so is every call of the C `SemLock`.
-/

namespace Runloom.SemLock

open Transition

/-! ## The C lock -/

/-- The kernel semaphore, whose value is 0 or 1. -/
inductive Sem where
  | free
  | here
  | elsewhere
deriving DecidableEq

structure Raw (H : Type*) where
  sem : Sem
  count : ℕ
  lastTid : Option H

namespace Raw

variable {H : Type*} [DecidableEq H]

/-- `ISMINE`. -/
def isMine (x : Raw H) (tid : H) : Bool := decide (0 < x.count) && x.lastTid == some tid

/-- `acquire(False)`, and whether it succeeds. -/
def acquire (x : Raw H) (tid : H) : Raw H × Bool :=
  if x.isMine tid then ({ x with count := x.count + 1 }, true)
  else if x.sem = .free then (⟨.here, x.count + 1, some tid⟩, true)
  else (x, false)

/-- `release()`; a thread that does not have the lock gets an `AssertionError`, and changes nothing. -/
def release (x : Raw H) (tid : H) : Raw H :=
  if x.isMine tid then
    if 1 < x.count then { x with count := x.count - 1 }
    else { x with sem := .free, count := x.count - 1 }
  else x

end Raw

/-! ## The cooperative methods -/

inductive Mode where
  | blocking
  | timed
  /-- `block=False`. -/
  | nonblocking
deriving DecidableEq

inductive Pc where
  | idle
  /-- The two reads of `state[0]` that ask whether this fiber is the owner. -/
  | isNone (m : Mode)
  | isCur (m : Mode)
  /-- `state[1] += 1`. -/
  | bumpRead
  | bumpWrite (n : ℤ)
  /-- The read of `state[0]` before the C call. -/
  | isFree (m : Mode)
  | cAcquire (m : Mode)
  | setOwner
  | setCount
  | missed (m : Mode)
  /-- `release`: again the two reads of `state[0]`. -/
  | relIsNone
  | relIsCur
  | relRaw
  /-- `state[1] -= 1`. -/
  | decRead
  | decWrite (n : ℤ)
  | isZero
  | clear
  | post
deriving DecidableEq

structure Shared (F H : Type*) where
  /-- `state[0]`. -/
  owner : Option F
  /-- `state[1]`. -/
  count : ℤ
  raw : Raw H

structure State (F H : Type*) where
  shared : Shared F H
  pc : F → Pc
  /-- The acquires that returned `True` and have no release yet. -/
  depth : F → ℕ

inductive Action (F : Type*) where
  | acquire (f : F) (m : Mode)
  | release (f : F)
  /-- The next step of the call; `late` says that the deadline has passed. -/
  | run (f : F) (late : Bool)
  | otherTake
  | otherPost

variable {F H : Type*} [DecidableEq F] [DecidableEq H]

/-- The step of `f` at `pc`, with the number of its acquires. -/
def exec (tid : H) (f : F) (late : Bool) (x : Shared F H) (depth : ℕ) : Pc → Option (Shared F H × Pc × ℕ)
  | .idle => none
  | .isNone m => some (x, if x.owner.isNone then .isFree m else .isCur m, depth)
  | .isCur m => some (x, if x.owner = some f then .bumpRead else .isFree m, depth)
  | .bumpRead => some (x, .bumpWrite x.count, depth)
  | .bumpWrite n => some ({ x with count := n + 1 }, .idle, depth + 1)
  -- The read that keeps a sibling from the C call.  The call is a step of its own, and comes later.
  | .isFree m =>
    some (x, if x.owner.isNone then .cAcquire m else if m = .nonblocking then .idle else .missed m, depth)
  | .cAcquire m =>
    match x.raw.acquire tid with
    | (raw, true) => some ({ x with raw := raw }, .setOwner, depth)
    | (raw, false) => some ({ x with raw := raw }, if m = .nonblocking then .idle else .missed m, depth)
  -- From the C acquire to this store the lock is taken and `state[0]` is still `None`.
  | .setOwner => some ({ x with owner := some f }, .setCount, depth)
  | .setCount => some ({ x with count := 1 }, .idle, depth + 1)
  -- `_co_sleep`, and the next turn of the loop.
  | .missed m => some (x, if m = .timed ∧ late then .idle else .isFree m, depth)
  | .relIsNone => some (x, if x.owner.isNone then .relRaw else .relIsCur, depth)
  | .relIsCur => some (x, if x.owner = some f then .decRead else .relRaw, depth)
  -- An error of the C lock ends the call as a return does.
  | .relRaw => some ({ x with raw := x.raw.release tid }, .idle, depth)
  | .decRead => some (x, .decWrite x.count, depth)
  | .decWrite n => some ({ x with count := n - 1 }, .isZero, depth)
  | .isZero => some (x, if x.count = 0 then .clear else .idle, depth)
  -- The owner goes before the semaphore is posted, so the next holder finds `None`.
  | .clear => some ({ x with owner := none }, .post, depth)
  | .post => some ({ x with raw := x.raw.release tid }, .idle, depth)

def State.set (s : State F H) (f : F) (p : Shared F H × Pc × ℕ) : State F H :=
  ⟨p.1, Function.update s.pc f p.2.1, Function.update s.depth f p.2.2⟩

/-- `hub f` is the thread of the hub that runs `f`. -/
def step (hub : F → H) (s : State F H) : Action F → Option (State F H)
  | .acquire f m => if s.pc f = .idle then some (s.set f (s.shared, .isNone m, s.depth f)) else none
  | .release f =>
    if s.pc f = .idle ∧ 0 < s.depth f then some (s.set f (s.shared, .relIsNone, s.depth f - 1)) else none
  | .run f late => (exec (hub f) f late s.shared (s.depth f) (s.pc f)).map (s.set f)
  | .otherTake =>
    if s.shared.raw.sem = .free then
      some { s with shared := { s.shared with raw := { s.shared.raw with sem := .elsewhere } } }
    else none
  | .otherPost =>
    if s.shared.raw.sem = .elsewhere then
      some { s with shared := { s.shared with raw := { s.shared.raw with sem := .free } } }
    else none

structure Init (s : State F H) : Prop where
  owner : s.shared.owner = none
  count : s.shared.count = 0
  cCount : s.shared.raw.count = 0
  sem : s.shared.raw.sem ≠ .here
  pc : ∀ f, s.pc f = .idle
  depth : ∀ f, s.depth f = 0

def semLock (hub : F → H) : System (State F H) (Action F) where
  init := Init
  step := step hub

end Runloom.SemLock
