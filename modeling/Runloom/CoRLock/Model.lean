import Mathlib.Data.Int.Notation
import Runloom.Transition.System

/-!
# The cooperative re-entrant lock

Model of `CoRLock`: `acquire`, `release`, `_release_save` and `_acquire_restore`.  Its parties are fibers and threads,
each with one identity.  Every read and every write of `_owner` and of `_count` is a step, and so is every operation
of the inner lock.

`_release_save` looks at the count only, as the one of CPython does, and `_acquire_restore` stores what it is given.
-/

namespace Runloom.CoRLock

open Transition

inductive Mode where
  | blocking
  | timed
  /-- `blocking=False`. -/
  | nonblocking
deriving DecidableEq

/-- How a call ends. -/
inductive Result (P : Type*) where
  | true
  | false
  /-- The return of `release`. -/
  | none
  /-- `RuntimeError`, "cannot release un-acquired lock". -/
  | notAcquired
  /-- `RuntimeError`, "release unlocked lock", of the inner lock. -/
  | notLocked
  /-- What `_release_save` returns. -/
  | saved (count : ℤ) (owner : Option P)
  /-- The return of `_acquire_restore`, and what it was given. -/
  | restored (count : ℤ) (owner : Option P)
deriving DecidableEq

inductive Pc (P : Type*) where
  | idle
  | done (r : Result P)
  /-- `acquire`: the two reads of `_owner`. -/
  | isNone (m : Mode)
  | isCur (m : Mode)
  /-- `_count += 1`. -/
  | bumpRead
  | bumpWrite (n : ℤ)
  | inner (m : Mode)
  | setOwner
  | setCount
  /-- `release`: the read of `_owner`. -/
  | relOwner
  /-- `_count -= 1`. -/
  | decRead
  | decWrite (n : ℤ)
  | isZero
  | clearOwner
  | unlock
  /-- `_release_save`: three reads, two stores, and the inner lock. -/
  | saveCheck
  | saveCount
  | saveOwner (c : ℤ)
  | saveZero (c : ℤ) (o : Option P)
  | saveClear (c : ℤ) (o : Option P)
  | saveUnlock (c : ℤ) (o : Option P)
  /-- `_acquire_restore`. -/
  | restInner (c : ℤ) (o : Option P)
  | restCount (c : ℤ) (o : Option P)
  | restOwner (c : ℤ) (o : Option P)
deriving DecidableEq

def Pc.between {P : Type*} : Pc P → Bool
  | .idle | .done _ => true
  | _ => false

structure Shared (P : Type*) where
  owner : Option P
  count : ℤ
  locked : Bool

/-- What `_release_save` gave out, with the depth of its caller then. -/
structure Ticket (P : Type*) where
  depth : ℕ
  count : ℤ
  owner : Option P

/-- `depth` counts the acquires that the party has not released. -/
structure Party (P : Type*) where
  pc : Pc P
  depth : ℕ
  tickets : List (Ticket P)

structure State (P : Type*) where
  shared : Shared P
  party : P → Party P

inductive Action (P : Type*) where
  | acquire (p : P) (m : Mode)
  | release (p : P)
  | releaseSave (p : P)
  | acquireRestore (p : P) (c : ℤ) (o : Option P)
  /-- The next step of the call; `late` says that the deadline has passed. -/
  | run (p : P) (late : Bool)

variable {P : Type*} [DecidableEq P]

/-- The step of `p` within its call. -/
def exec (p : P) (late : Bool) (x : Shared P) (y : Party P) : Option (Shared P × Party P) :=
  match y.pc with
  | .idle | .done _ => none
  | .isNone m => some (x, { y with pc := if x.owner.isNone then .inner m else .isCur m })
  | .isCur m => some (x, { y with pc := if x.owner = some p then .bumpRead else .inner m })
  | .bumpRead => some (x, { y with pc := .bumpWrite x.count })
  | .bumpWrite n => some ({ x with count := n + 1 }, { y with pc := .done .true, depth := y.depth + 1 })
  | .inner m =>
    -- A blocking call waits, and a timed one until its deadline.
    if m = .timed ∧ late then some (x, { y with pc := .done .false })
    else if x.locked then if m = .nonblocking then some (x, { y with pc := .done .false }) else none
    else some ({ x with locked := true }, { y with pc := .setOwner })
  | .setOwner => some ({ x with owner := some p }, { y with pc := .setCount })
  | .setCount => some ({ x with count := 1 }, { y with pc := .done .true, depth := y.depth + 1 })
  | .relOwner => some (x, { y with pc := if x.owner = some p then .decRead else .done .notAcquired })
  | .decRead => some (x, { y with pc := .decWrite x.count })
  | .decWrite n => some ({ x with count := n - 1 }, { y with pc := .isZero })
  -- The count is read again after the store.
  | .isZero =>
    if x.count = 0 then some (x, { y with pc := .clearOwner })
    else some (x, { y with pc := .done .none, depth := y.depth - 1 })
  | .clearOwner => some ({ x with owner := none }, { y with pc := .unlock })
  | .unlock =>
    if x.locked then some ({ x with locked := false }, { y with pc := .done .none, depth := y.depth - 1 })
    else some (x, { y with pc := .done .notLocked })
  -- Who asks is not looked at, here or in the steps that follow.
  | .saveCheck => some (x, { y with pc := if x.count = 0 then .done .notAcquired else .saveCount })
  | .saveCount => some (x, { y with pc := .saveOwner x.count })
  | .saveOwner c => some (x, { y with pc := .saveZero c x.owner })
  | .saveZero c o => some ({ x with count := 0 }, { y with pc := .saveClear c o })
  | .saveClear c o => some ({ x with owner := none }, { y with pc := .saveUnlock c o })
  | .saveUnlock c o =>
    if x.locked then
      some ({ x with locked := false },
        { pc := .done (.saved c o), depth := 0, tickets := y.tickets ++ [⟨y.depth, c, o⟩] })
    else some (x, { y with pc := .done .notLocked })
  | .restInner c o =>
    if x.locked then none else some ({ x with locked := true }, { y with pc := .restCount c o })
  | .restCount c o => some ({ x with count := c }, { y with pc := .restOwner c o })
  -- The caller is as deep as the count says that it was given, whoever the owner is.
  | .restOwner c o =>
    some ({ x with owner := o }, { y with pc := .done (.restored c o), depth := c.toNat })

def State.set (s : State P) (p : P) (x : Shared P × Party P) : State P :=
  ⟨x.1, Function.update s.party p x.2⟩

def State.call (s : State P) (p : P) (pc : Pc P) : Option (State P) :=
  if (s.party p).pc.between then some (s.set p (s.shared, { s.party p with pc := pc })) else none

def step (s : State P) : Action P → Option (State P)
  | .acquire p m => s.call p (.isNone m)
  | .release p => s.call p .relOwner
  | .releaseSave p => s.call p .saveCheck
  | .acquireRestore p c o => s.call p (.restInner c o)
  | .run p late => (exec p late s.shared (s.party p)).map (s.set p)

structure Init (s : State P) : Prop where
  shared : s.shared = ⟨none, 0, false⟩
  party : ∀ p, s.party p = ⟨.idle, 0, []⟩

def coRLock (P : Type*) [DecidableEq P] : System (State P) (Action P) where
  init := Init
  step := step

end Runloom.CoRLock
