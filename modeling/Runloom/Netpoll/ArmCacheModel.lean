import Mathlib.Data.Finset.Union
import Runloom.Netpoll.ArmModel

/-!
# The arm cache against the kernel

Model of `runloom_netpoll_register`, `runloom_netpoll_disarm_out` and `_in`, `runloom_netpoll_validate_arm` and
`runloom_netpoll_release_if_idle` on the epoll backend, with every outcome of every `epoll_ctl`. A call is one step:
its body is one section under `runloom_pool.lock`.

The registration bitmap, which this backend only clears, is left out, and so are the wakes after a failed migration.
-/

namespace Runloom.Netpoll.ArmCache

open Transition
open Arm (Dir Pool)

inductive Event where
  | epollIn
  | epollRdhup
  | epollOut
deriving DecidableEq

inductive Op where
  | add
  | mod
  | del

inductive Errno where
  | eexist
  | enoent
  | ebadf
  | eperm
  | enomem
  | enospc
deriving DecidableEq

/-- An error of `epoll_ctl` that does not say whether the descriptor is in the set. -/
def Fault := { e : Errno // e ≠ .eexist ∧ e ≠ .enoent }

abbrev Faults := Op → Option Fault

/-- `dbg` is `runloom_netpoll_dbg_stale_check`; `cap` is `runloom_fd_pending_wake_cap`. -/
structure Config where
  perhub : Bool
  hasEpoll : Pool → Bool
  dbg : Bool
  cap : ℕ

/-- `armed` is `runloom_fd_armed` and `owner` is `runloom_fd_epoll_pool`; `interest ep fd` is the kernel's, with
`none` for the shared epoll. -/
structure State where
  armed : ℤ → Finset Dir
  owner : ℤ → Option Pool
  interest : Option Pool → ℤ → Option (Finset Event)
  /-- `runloom_stale_arm_heals`. -/
  heals : ℕ

def Dir.events : Dir → Finset Event
  | .read => {.epollIn, .epollRdhup}
  | .write => {.epollOut}

def eventsOf (mask : Finset Dir) : Finset Event := mask.biUnion Dir.events

variable (cfg : Config)

namespace State

def InRange (fd : ℤ) : Prop := 0 ≤ fd ∧ fd < cfg.cap

instance (fd : ℤ) : Decidable (InRange cfg fd) := inferInstanceAs (Decidable (_ ∧ _))

/-- `runloom_fd_armed_get`. -/
def armedGet (s : State) (fd : ℤ) : Finset Dir := if InRange cfg fd then s.armed fd else ∅

/-- `runloom_fd_armed_set`, which fails outside of the array. -/
def armedSet (s : State) (fd : ℤ) (mask : Finset Dir) : Option State :=
  if InRange cfg fd then some { s with armed := update s.armed fd mask } else none

/-- A call of `runloom_fd_armed_set` whose result is dropped. -/
def armedPut (s : State) (fd : ℤ) (mask : Finset Dir) : State := (s.armedSet cfg fd mask).getD s

/-- `runloom_fd_epoll_pool_get`. -/
def poolGet (s : State) (fd : ℤ) : Option Pool := if InRange cfg fd then s.owner fd else none

/-- `runloom_fd_epoll_pool_set`. -/
def poolSet (s : State) (fd : ℤ) (idx : Option Pool) : State :=
  if InRange cfg fd then { s with owner := update s.owner fd idx } else s

def ownerEpoll (s : State) (fd : ℤ) : Option Pool := if cfg.perhub then s.poolGet cfg fd else none

def setInterest (s : State) (ep : Option Pool) (fd : ℤ) (ev : Option (Finset Event)) : State :=
  { s with interest := update s.interest ep (update (s.interest ep) fd ev) }

/-- `epoll_ctl`, with its error. -/
def ctl (s : State) (faults : Faults) (ep : Option Pool) (op : Op) (fd : ℤ) (ev : Finset Event) :
    State × Option Errno :=
  match faults op with
  | some f => (s, some f.1)
  | none =>
    match op, s.interest ep fd with
    | .add, none => (s.setInterest ep fd (some ev), none)
    | .add, some _ => (s, some .eexist)
    | .mod, some _ => (s.setInterest ep fd (some ev), none)
    | .mod, none => (s, some .enoent)
    | .del, some _ => (s.setInterest ep fd none, none)
    | .del, none => (s, some .enoent)

/-- An `epoll_ctl`, and a second one when the first fails with `e`. -/
def ctlOr (s : State) (faults : Faults) (ep : Option Pool) (op : Op) (e : Errno) (op' : Op) (fd : ℤ)
    (ev : Finset Event) : State × Option Errno :=
  match s.ctl faults ep op fd ev with
  | (s, none) => (s, none)
  | (s, some e') => if e' = e then s.ctl faults ep op' fd ev else (s, some e')

def forget (s : State) (fd : ℤ) : State :=
  let s := s.armedPut cfg fd ∅
  if cfg.perhub then s.poolSet cfg fd none else s

/-- `runloom_netpoll_validate_arm`; `hasWaiter`: a parker waits on the descriptor. -/
def validateArm (s : State) (fd : ℤ) (hasWaiter : Bool) (faults : Faults) : State × Option Errno :=
  let cur := s.armedGet cfg fd
  let ep := s.ownerEpoll cfg fd
  if fd < 0 ∨ cur = ∅ then (s, none)
  else
    match s.ctl faults ep .mod fd (eventsOf cur) with
    | (s, none) => (s, none)
    | (s, some .enoent) =>
      -- A re-ADD without a waiter would leave a descriptor armed that nobody consumes.
      if hasWaiter then
        match s.ctl faults ep .add fd (eventsOf cur) with
        | (s, none) => ({ s with heals := s.heals + 1 }, none)
        | (s, some e) => ({ s.forget cfg fd with heals := s.heals + 1 }, some e)
      else ({ s.forget cfg fd with heals := s.heals + 1 }, none)
    | (s, some e) => ({ s.forget cfg fd with heals := s.heals + 1 }, some e)

/-- The epoll of the pool that registers, the shared one when it has none of its own. -/
def ownEpoll (pool : Pool) : Option Pool := if cfg.perhub ∧ cfg.hasEpoll pool then some pool else none

def Migrates (s : State) (pool : Pool) (fd : ℤ) : Prop :=
  cfg.perhub ∧ s.armedGet cfg fd ≠ ∅ ∧ s.poolGet cfg fd ≠ none ∧ s.poolGet cfg fd ≠ ownEpoll cfg pool

instance (s : State) (pool : Pool) (fd : ℤ) : Decidable (s.Migrates cfg pool fd) :=
  inferInstanceAs (Decidable (_ ∧ _))

/-- The wanted directions are armed already: no `epoll_ctl` is made. -/
def Skips (s : State) (fd : ℤ) (need : Finset Dir) : Prop :=
  s.armedGet cfg fd ≠ ∅ ∧ s.armedGet cfg fd ∪ need = s.armedGet cfg fd

instance (s : State) (fd : ℤ) (need : Finset Dir) : Decidable (s.Skips cfg fd need) :=
  inferInstanceAs (Decidable (_ ∧ _))

/-- The mask is written, and with a fresh registration its owner. -/
def record (s : State) (fd : ℤ) (idx : Option Pool) (cur mask : Finset Dir) : State :=
  let s := s.armedPut cfg fd mask
  if cfg.perhub ∧ cur = ∅ then s.poolSet cfg fd idx else s

/-- An ADD for a fresh registration, a MOD to widen one, with the other as its fallback. -/
def enter (s : State) (faults : Faults) (ep : Option Pool) (fd : ℤ) (cur target : Finset Dir) : State × Option Errno :=
  if cur = ∅ then s.ctlOr faults ep .add .eexist .mod fd (eventsOf target)
  else s.ctlOr faults ep .mod .enoent .add fd (eventsOf target)

/-- Publish the mask, and make the kernel agree with it or take it back; `cur` is the mask in the epoll `ep`. -/
def publish (s : State) (fd : ℤ) (ep idx : Option Pool) (cur target : Finset Dir) (faults : Faults) :
    State × Option Errno :=
  match s.armedSet cfg fd target with
  | none => (s, some .enomem)
  | some _ =>
    let s := s.record cfg fd idx cur target
    match s.enter faults ep fd cur target with
    | (s, none) => (s, none)
    | (s, some e) => (s.record cfg fd none cur cur, some e)

/-- `runloom_netpoll_register`: `none` for a return of 0. -/
def register (s : State) (pool : Pool) (fd : ℤ) (need : Finset Dir) (hasWaiter : Bool) (faults : Faults) :
    State × Option Errno :=
  let cur := s.armedGet cfg fd
  if s.Migrates cfg pool fd then
    -- A descriptor that two pools want moves to the shared epoll for good, with every direction it had.
    let s := (s.ctl faults (s.ownerEpoll cfg fd) .del fd ∅).1
    s.publish cfg fd none none ∅ (cur ∪ need) faults
  else if s.Skips cfg fd need then
    if cfg.dbg then s.validateArm cfg fd hasWaiter faults else (s, none)
  else
    let ep := if cfg.perhub ∧ cur ≠ ∅ then s.ownerEpoll cfg fd else ownEpoll cfg pool
    s.publish cfg fd ep (ownEpoll cfg pool) cur (cur ∪ need) faults

/-- `runloom_netpoll_disarm_out` and its mirror image `runloom_netpoll_disarm_in`. -/
def disarm (s : State) (d : Dir) (fd : ℤ) (faults : Faults) : State :=
  let cur := s.armedGet cfg fd
  let ep := s.ownerEpoll cfg fd
  if fd < 0 ∨ d ∉ cur then s
  else if cur.erase d = ∅ then ((s.forget cfg fd).ctl faults ep .del fd ∅).1
  else
    ((s.armedPut cfg fd (cur.erase d)).ctlOr faults ep .mod .enoent .add fd (eventsOf (cur.erase d))).1

/-- `runloom_netpoll_release_if_idle`. -/
def releaseIfIdle (s : State) (fd : ℤ) (hasWaiter : Bool) (faults : Faults) : State :=
  if fd < 0 ∨ hasWaiter ∨ s.armedGet cfg fd = ∅ then s
  else ((s.forget cfg fd).ctl faults (s.ownerEpoll cfg fd) .del fd ∅).1

end State

/-- One call, by a thread of `pool`; `hasWaiter` is over all pools. -/
inductive Call where
  | register (pool : Pool) (fd : ℤ) (need : Finset Dir) (hasWaiter : Bool) (faults : Faults)
  | disarm (d : Dir) (fd : ℤ) (faults : Faults)
  | validateArm (fd : ℤ) (hasWaiter : Bool) (faults : Faults)
  | releaseIfIdle (fd : ℤ) (hasWaiter : Bool) (faults : Faults)

def step (s : State) : Call → Option State
  | .register pool fd need hasWaiter faults => some (s.register cfg pool fd need hasWaiter faults).1
  | .disarm d fd faults => some (s.disarm cfg d fd faults)
  | .validateArm fd hasWaiter faults => some (s.validateArm cfg fd hasWaiter faults).1
  | .releaseIfIdle fd hasWaiter faults => some (s.releaseIfIdle cfg fd hasWaiter faults)

/-- Nothing is armed; the epolls have what was put into them by other means. -/
structure Init (s : State) : Prop where
  armed : ∀ fd, s.armed fd = ∅
  owner : ∀ fd, s.owner fd = none

def armCache : System State Call where
  init := Init
  step := step cfg

end Runloom.Netpoll.ArmCache
