import Runloom.Netpoll.CommitModel

/-!
# Delivering a signal to a parked fiber

Model of `runloom_netpoll_signal_wake` against any number of `runloom_netpoll_wait_fd` calls. The exception travels
through the `signal_exc` slot of the scheduler that owns the fiber: `signal_wake` reserves the slot, claims a parker
through the commit word, and marks it with the `SIGNALED` sentinel; the call that owns the parker finds the sentinel
and takes the exception out of the slot.
-/

namespace Runloom.Netpoll.Signal

open Transition Commit

/-- The pool of a call's parker, the scheduler that owns its fiber, and the scheduler of each thread that delivers
signals. -/
structure Setup where
  pool : ℕ → ℕ
  owner : ℕ → ℕ
  hub : ℕ → Bool
  sched : ℕ → ℕ

inductive WaitPc where
  | idle
  | consume (afterRegister : Bool)
  | register
  | commit
  | leaveEarly (r : ℤ)
  | commitFailed
  | park
  | yielded
  | resumed
  /-- The parker is unlinked and released; the call looks at `ready_mask`. -/
  | check
  /-- In `runloom_netpoll_take_signal`: the load of the slot, and the store that empties it. -/
  | take
  | clear (exc : Option ℕ)
  | returned (r : ℤ) (raised : Option ℕ)
deriving DecidableEq

/-- A `signal_wake` with the exception `e`. -/
inductive SigPc where
  | idle
  | pools (e : ℕ)
  | walk (e p : ℕ)
  /-- The slot of the owner of `c` is reserved. -/
  | load (e c : ℕ)
  | cas (e c : ℕ) (cur : ParkCommit)
  | giveBack (e c : ℕ)
  /-- The parker of `c` is claimed, from the state `cur`. -/
  | store (e c : ℕ) (cur : ParkCommit)
  | unlink (e c : ℕ) (cur : ParkCommit)
  | requeue (e c : ℕ) (cur : ParkCommit)
  | unlock (e c : ℕ)
deriving DecidableEq

/-- `slot` is `signal_exc`. History: `used` are the exceptions handed to a `signal_wake`, `claimed c` the one that
has the parker of `c`, and `delivered` those whose `signal_wake` returned 1. -/
structure State where
  slot : ℕ → Option ℕ
  lock : ℕ → Option ℕ
  commit : ℕ → ParkCommit
  linked : ℕ → Bool
  readyMask : ℕ → ℤ
  queued : ℕ → ℕ
  wait : ℕ → WaitPc
  sig : ℕ → SigPc
  used : List ℕ
  claimed : ℕ → Option ℕ
  delivered : List (ℕ × ℕ)

inductive Action where
  /-- `wait_fd` links its parker. -/
  | link (c : ℕ)
  | consume (c : ℕ) (pending : ℤ)
  | register (c : ℕ) (ok : Bool)
  | commit (c : ℕ)
  | leave (c : ℕ)
  | yield (c : ℕ)
  | resume (c : ℕ)
  | spurious (c : ℕ)
  | finish (c : ℕ)
  /-- Another claimer, which stores `v`. -/
  | claim (c : ℕ) (v : ℤ)
  | signal (w e : ℕ)
  | lockPool (w p : ℕ)
  | unlockPool (w : ℕ)
  | reserve (w c : ℕ)
  | sigNext (w : ℕ)
  | giveUp (w : ℕ)

namespace State

def waitTo (s : State) (c : ℕ) (pc : WaitPc) : State :=
  { s with wait := update s.wait c pc }

def sigTo (s : State) (w : ℕ) (pc : SigPc) : State :=
  { s with sig := update s.sig w pc }

def setSlot (s : State) (o : ℕ) (v : Option ℕ) : State :=
  { s with slot := update s.slot o v }

def unlinkParker (s : State) (c : ℕ) : State :=
  { s with linked := update s.linked c false }

/-- The fiber of `c` goes back to a run queue if it was parked. -/
def wakeIf (s : State) (c : ℕ) (cur : ParkCommit) : State :=
  if cur = .parked then { s with queued := update s.queued c (s.queued c + 1) } else s

end State

open State

/-- A parker of the delivering thread's own scheduler, or any hub parker. -/
def Setup.eligible (cfg : Setup) (w c : ℕ) : Bool :=
  cfg.owner c = cfg.sched w || cfg.hub c

/-- The end of `wait_fd`: only the exits after the commit look for the sentinel. -/
def finishStep (cfg : Setup) (s : State) (c : ℕ) : Option State :=
  match s.wait c with
  | .check =>
    some (s.waitTo c (if s.readyMask c = NETPOLL_SIGNALED then .take else .returned (s.readyMask c) none))
  -- The read of the slot and the store that empties it are two steps.
  | .take => some (s.waitTo c (.clear (s.slot (cfg.owner c))))
  | .clear exc => some ((s.setSlot (cfg.owner c) none).waitTo c (.returned (-1) exc))
  | _ => none

/-- A step of `signal_wake` on the parker in its hands. -/
def sigStep (cfg : Setup) (s : State) (w : ℕ) : Option State :=
  match s.sig w with
  | .load e c =>
    -- Somebody else has claimed the parker, and the slot is given back.
    some (s.sigTo w (if s.commit c = .woken then .giveBack e c else .cas e c (s.commit c)))
  | .cas e c cur =>
    if s.commit c = cur then
      some ({ s with
        commit := update s.commit c .woken
        claimed := update s.claimed c (some e) }.sigTo w (.store e c cur))
    else some (s.sigTo w (.load e c))
  | .giveBack e c => some ((s.setSlot (cfg.owner c) none).sigTo w (.walk e (cfg.pool c)))
  | .store e c cur =>
    some ({ s with
      readyMask := update s.readyMask c NETPOLL_SIGNALED }.sigTo w (.unlink e c cur))
  | .unlink e c cur => some ((s.unlinkParker c).sigTo w (.requeue e c cur))
  | .requeue e c cur => some ((s.wakeIf c cur).sigTo w (.unlock e c))
  | .unlock e c =>
    some ({ s with
      lock := update s.lock (cfg.pool c) none
      delivered := (c, e) :: s.delivered }.sigTo w .idle)
  | _ => none

def step (cfg : Setup) (s : State) : Action → Option State
  | .link c =>
    if s.wait c = .idle ∧ s.lock (cfg.pool c) = none then
      some ({ s with linked := update s.linked c true }.waitTo c (.consume false))
    else none
  | .consume c pending =>
    match s.wait c with
    | .consume afterRegister =>
      some (s.waitTo c (if pending ≠ 0 then .leaveEarly pending
        else if afterRegister then .commit else .register))
    | _ => none
  | .register c ok =>
    if s.wait c = .register then
      some (s.waitTo c (if ok then .consume true else .leaveEarly (-1)))
    else none
  | .commit c =>
    if s.wait c = .commit then
      if s.commit c = .armed then
        some ({ s with commit := update s.commit c .parked }.waitTo c .park)
      else some (s.waitTo c .commitFailed)
    else none
  | .leave c =>
    if s.lock (cfg.pool c) = none then
      match s.wait c with
      | .leaveEarly r => some ((s.unlinkParker c).waitTo c (.returned r none))
      | .commitFailed => some ((s.unlinkParker c).waitTo c .check)
      | .resumed => some ((s.unlinkParker c).waitTo c .check)
      | _ => none
    else none
  | .yield c => if s.wait c = .park then some (s.waitTo c .yielded) else none
  | .resume c =>
    if s.wait c = .yielded ∧ 0 < s.queued c then
      some ({ s with queued := update s.queued c (s.queued c - 1) }.waitTo c .resumed)
    else none
  | .spurious c => if s.wait c = .yielded then some (s.waitTo c .resumed) else none
  | .finish c => finishStep cfg s c
  -- The other claimers make their claim and its tail under the pool lock.
  | .claim c v =>
    if s.lock (cfg.pool c) = none ∧ s.linked c ∧ s.commit c ≠ .woken ∧ v ≠ NETPOLL_SIGNALED then
      some (({ s with
        commit := update s.commit c .woken
        readyMask := update s.readyMask c v }.unlinkParker c).wakeIf c (s.commit c))
    else none
  | .signal w e =>
    if s.sig w = .idle ∧ e ∉ s.used then
      some ({ s with used := e :: s.used }.sigTo w (.pools e))
    else none
  | .lockPool w p =>
    match s.sig w with
    | .pools e =>
      if s.lock p = none then
        some ({ s with lock := update s.lock p (some w) }.sigTo w (.walk e p))
      else none
    | _ => none
  | .unlockPool w =>
    match s.sig w with
    | .walk e p => some ({ s with lock := update s.lock p none }.sigTo w (.pools e))
    | _ => none
  | .reserve w c =>
    match s.sig w with
    | .walk e p =>
      if cfg.pool c = p ∧ s.linked c ∧ cfg.eligible w c ∧ s.slot (cfg.owner c) = none then
        some ((s.setSlot (cfg.owner c) (some e)).sigTo w (.load e c))
      else none
    | _ => none
  | .sigNext w => sigStep cfg s w
  | .giveUp w =>
    match s.sig w with
    | .pools _ => some (s.sigTo w .idle)
    | _ => none

/-- Nothing is parked and no slot is taken. -/
structure Init (s : State) : Prop where
  slot : ∀ o, s.slot o = none
  lock : ∀ p, s.lock p = none
  commit : ∀ c, s.commit c = .armed
  linked : ∀ c, s.linked c = false
  readyMask : ∀ c, s.readyMask c = 0
  queued : ∀ c, s.queued c = 0
  wait : ∀ c, s.wait c = .idle
  sig : ∀ w, s.sig w = .idle
  claimed : ∀ c, s.claimed c = none
  used : s.used = []
  delivered : s.delivered = []

def signalWake (cfg : Setup) : System State Action where
  init := Init
  step := step cfg

end Runloom.Netpoll.Signal
