import Mathlib.Data.Finset.Basic
import Mathlib.Data.List.FinRange
import Runloom.Transition.System

/-!
# Arming and disarming one descriptor on the epoll backend

Model of `runloom_netpoll_wait_fd` up to its commit, `runloom_netpoll_register`, `runloom_epoll_handle_event` with its
disarm and second dispatch, and `runloom_netpoll_release_if_idle`, all for one open descriptor.  Each section under a
lock, each access to the pending bits and each read of the dispatch mask is one step; every `epoll_ctl` succeeds.
-/

namespace Runloom.Netpoll.Arm

open Transition

/-- The bits `RUNLOOM_NETPOLL_READ` and `RUNLOOM_NETPOLL_WRITE`. -/
inductive Dir where
  | read
  | write
deriving DecidableEq

/-- `RUNLOOM_PARKER_POOL_HUBS`. -/
abbrev poolHubs : ℕ := 64

abbrev Pool := Fin (poolHubs + 1)

/-- `RUNLOOM_PARKER_POOL_DEFAULT`. -/
def defaultPool : Pool := Fin.last poolHubs

/-- `park->commit`. -/
inductive Commit where
  | armed
  | parked
  | woken
deriving DecidableEq

/-- Whether hubs have epolls of their own, which were created, and whether the descriptor is inside the dispatch
mask array. -/
structure Config where
  perhub : Bool
  hasEpoll : Pool → Bool
  masked : Bool

/-- Where a `wait_fd` call is. -/
inductive WaitPc where
  | idle
  | consumeFirst
  | register
  | consumeAgain
  | commit
  | unlink
  | parked
  | done
deriving DecidableEq

/-- Where a `handle_event` call is; `todo` are the pools its dispatch has still to visit. -/
inductive HandlePc where
  | idle
  | dispatch (mask : Finset Dir) (todo : List Pool)
  | setPending (mask : Finset Dir)
  | disarm (d : Dir) (mask : Finset Dir)
  | redispatch (d : Dir) (mask : Finset Dir)
  | revisit (d : Dir) (mask : Finset Dir) (todo : List Pool)
deriving DecidableEq

structure State where
  bucket : Pool → List ℕ
  poolmask : Pool → Bool
  pending : Finset Dir
  armed : Finset Dir
  owner : Option Pool
  interest : Option Pool → Finset Dir
  events : ℕ → Finset Dir
  pool : ℕ → Pool
  commit : ℕ → Commit
  waiter : ℕ → WaitPc
  handler : ℕ → HandlePc

/-- `ready` answers the `poll` by which a consume checks a pending bit it claimed. -/
inductive Action where
  | waitFd (w : ℕ) (pool : Pool) (events : Finset Dir)
  | next (w : ℕ) (ready : Bool)
  | event (h : ℕ) (mask : Finset Dir)
  | handle (h : ℕ)
  | releaseIfIdle

variable (cfg : Config)

def State.goWait (s : State) (w : ℕ) (pc : WaitPc) : State :=
  { s with waiter := update s.waiter w pc }

def State.goHandle (s : State) (h : ℕ) (pc : HandlePc) : State :=
  { s with handler := update s.handler h pc }

/-- `runloom_parker_link`: at the head of the bucket; the default pool has no mask bit. -/
def State.link (s : State) (p : Pool) (w : ℕ) : State :=
  { s with
    bucket := update s.bucket p (w :: s.bucket p)
    poolmask := if p = defaultPool then s.poolmask else update s.poolmask p true }

/-- `runloom_parker_unlink`. -/
def State.unlink (s : State) (p : Pool) (w : ℕ) : State :=
  { s with
    bucket := update s.bucket p ((s.bucket p).erase w)
    poolmask :=
      if (s.bucket p).erase w = [] then update s.poolmask p false else s.poolmask }

def State.ownerEpoll (s : State) : Option Pool :=
  if cfg.perhub then s.owner else none

/-- The epoll a fresh registration by a waiter of pool `p` goes to. -/
def ownEpoll (p : Pool) : Option Pool :=
  if cfg.perhub ∧ cfg.hasEpoll p then some p else none

/-- `runloom_netpoll_register`. -/
def State.register (s : State) (p : Pool) (need : Finset Dir) : State :=
  let target := s.armed ∪ need
  if cfg.perhub ∧ s.armed ≠ ∅ ∧ s.owner ≠ none ∧ s.owner ≠ ownEpoll cfg p then
    -- wanted by a second pool: move it to the shared epoll
    { s with
      armed := target
      owner := none
      interest := update (update s.interest s.owner ∅) none target }
  -- Nothing to add: the call returns without a system call.
  else if s.armed ≠ ∅ ∧ target = s.armed then s
  else if s.armed = ∅ then
    { s with
      armed := target
      owner := if cfg.perhub then ownEpoll cfg p else s.owner
      interest := update s.interest (ownEpoll cfg p) target }
  else
    { s with
      armed := target
      interest := update s.interest (s.ownerEpoll cfg) target }

/-- `runloom_netpoll_disarm_out` and `runloom_netpoll_disarm_in`. -/
def State.disarm (s : State) (d : Dir) : State :=
  if d ∉ s.armed then s
  else
    { s with
      armed := s.armed.erase d
      owner := if s.armed.erase d = ∅ ∧ cfg.perhub then none else s.owner
      interest := update s.interest (s.ownerEpoll cfg) (s.armed.erase d) }

/-- `runloom_netpoll_release_if_idle`. -/
def State.releaseIfIdle (s : State) : State :=
  if s.bucket defaultPool = [] ∧ (cfg.masked = true → ∀ p, s.poolmask p = false) ∧ s.armed ≠ ∅ then
    { s with
      armed := ∅
      owner := if cfg.perhub then none else s.owner
      interest := update s.interest (s.ownerEpoll cfg) ∅ }
  else s

/-- The pools `runloom_pump_dispatch_event` visits, in order. -/
def State.snapshot (s : State) : List Pool :=
  (List.finRange (poolHubs + 1)).filter fun p =>
    decide (p = defaultPool) || !cfg.masked || s.poolmask p

/-- The first parker of a bucket that a dispatch of `mask` can claim. -/
def State.match? (s : State) (p : Pool) (mask : Finset Dir) : Option ℕ :=
  (s.bucket p).find? fun w => decide ((s.events w ∩ mask).Nonempty ∧ s.commit w ≠ .woken)

/-- `runloom_pump_claim` with the unlink that follows it. -/
def State.claim (s : State) (p : Pool) (w : ℕ) : State :=
  { s with commit := update s.commit w .woken }.unlink p w

/-- `runloom_fd_pending_wake_consume`: on to the early return, or to `pc`. -/
def consume (s : State) (w : ℕ) (ready : Bool) (pc : WaitPc) : State :=
  { s with pending := s.pending \ s.events w }.goWait w
    (if (s.pending ∩ s.events w).Nonempty ∧ ready then .unlink else pc)

def next (s : State) (w : ℕ) (ready : Bool) : Option State :=
  match s.waiter w with
  | .idle | .done => none
  | .consumeFirst => some (consume s w ready .register)
  | .register => some ((s.register cfg (s.pool w) (s.events w)).goWait w .consumeAgain)
  | .consumeAgain => some (consume s w ready .commit)
  | .commit =>
    if s.commit w = .armed then
      some ({ s with commit := update s.commit w .parked }.goWait w .parked)
    else some (s.goWait w .unlink)
  | .unlink => some ((s.unlink (s.pool w) w).goWait w .done)
  | .parked => if s.commit w = .woken then some (s.goWait w .done) else none

def afterRedispatch (d : Dir) (mask : Finset Dir) : HandlePc :=
  match d with
  | .write => if Dir.read ∈ mask then .disarm .read mask else .idle
  | .read => .idle

def handle (s : State) (h : ℕ) : Option State :=
  match s.handler h with
  | .idle => none
  | .dispatch mask [] => some (s.goHandle h (if mask = ∅ then .idle else .setPending mask))
  | .dispatch mask (p :: todo) =>
    match s.match? p mask with
    | some w => some ((s.claim p w).goHandle h .idle)
    | none => some (s.goHandle h (.dispatch mask todo))
  -- No parker wanted the event; it is kept for the next `wait_fd`, and the direction is disarmed.
  | .setPending mask =>
    some ({ s with pending := s.pending ∪ mask }.goHandle h
      (if Dir.write ∈ mask then .disarm .write mask else .disarm .read mask))
  | .disarm d mask => some ((s.disarm cfg d).goHandle h (.redispatch d mask))
  -- A waiter that registered before the disarm has lost its registration, so the pools are visited again.
  | .redispatch d mask => some (s.goHandle h (.revisit d mask (s.snapshot cfg)))
  | .revisit d mask [] => some (s.goHandle h (afterRedispatch d mask))
  | .revisit d mask (p :: todo) =>
    match s.match? p {d} with
    | some w => some ((s.claim p w).goHandle h (afterRedispatch d mask))
    | none => some (s.goHandle h (.revisit d mask todo))

def step (s : State) : Action → Option State
  | .waitFd w p events =>
    if s.waiter w = .idle then
      some ({ s with
        events := update s.events w events
        pool := update s.pool w p
        commit := update s.commit w .armed }.link p w |>.goWait w .consumeFirst)
    else none
  | .next w ready => next cfg s w ready
  | .event h mask =>
    if s.handler h = .idle then some (s.goHandle h (.dispatch mask (s.snapshot cfg))) else none
  | .handle h => handle cfg s h
  | .releaseIfIdle => some (s.releaseIfIdle cfg)

structure Init (s : State) : Prop where
  bucket : ∀ p, s.bucket p = []
  poolmask : ∀ p, s.poolmask p = false
  armed : s.armed = ∅
  owner : s.owner = none
  interest : ∀ e, s.interest e = ∅
  waiter : ∀ w, s.waiter w = .idle
  handler : ∀ h, s.handler h = .idle
  commit : ∀ w, s.commit w = .armed

def armSystem : System State Action where
  init := Init
  step := step cfg

end Runloom.Netpoll.Arm
