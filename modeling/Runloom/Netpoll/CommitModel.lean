import Mathlib.Data.Int.Notation
import Runloom.Transition.System

/-!
# The netpoll commit protocol

Model of one `runloom_netpoll_wait_fd` call and of every path that can claim its parker: the pump's event dispatch,
the expiry drain, `cancel_g`, `cancel_fd`, `cancel_all_parked`, `unpark_many` and the two drains of parked fibers. A
claimer works under the pool lock: it swaps `commit` to `WOKEN`, and then stores `ready_out`, unlinks the parker and
re-queues the fiber, in an order of its own. The waiter commits `ARMED -> PARKED` and yields.
-/

namespace Runloom.Netpoll.Commit

open Transition

def NETPOLL_CANCELLED : ℤ := 0x40000000

def NETPOLL_SIGNALED : ℤ := 0x20000000

def NETPOLL_UNPARKED : ℤ := 0x10000000

/-- `park->commit`. -/
inductive ParkCommit where
  | armed
  | parked
  | woken
deriving DecidableEq

/-- The claiming paths.  `dispatch` carries the readiness mask of the event. -/
inductive Kind where
  | dispatch (mask : ℕ)
  | expired
  | cancelG
  | cancelFd
  | cancelAllParked
  | unparkMany
  | drainParked
  | drainParkedMn
deriving DecidableEq

inductive Op where
  | store (v : ℤ)
  | unlink
  | requeue
  | unlock
deriving DecidableEq

/-- The value a path stores through `ready_out`. -/
def Kind.value (events : ℕ) : Kind → ℤ
  | .dispatch mask => (mask &&& events : ℕ)
  | .expired => 0
  | .cancelG | .cancelFd | .cancelAllParked => NETPOLL_CANCELLED
  | .unparkMany => NETPOLL_UNPARKED
  | .drainParked | .drainParkedMn => -1

/-- Only a committed fiber is re-queued, by the drains once the pool lock is dropped. -/
def Kind.afterWin (k : Kind) (events : ℕ) (claimedFrom : ParkCommit) : List Op :=
  let wake := if claimedFrom = .parked then [Op.requeue] else []
  match k with
  | .dispatch _ | .cancelG | .cancelFd | .cancelAllParked | .unparkMany =>
    [Op.store (k.value events), .unlink] ++ wake ++ [Op.unlock]
  | .drainParked => [Op.unlink, .store (k.value events)] ++ wake ++ [Op.unlock]
  | .expired | .drainParkedMn => [Op.unlink, .store (k.value events), .unlock] ++ wake

/-- What a path does when it finds `WOKEN`: the drains still unlink. -/
def Kind.afterLose : Kind → List Op
  | .dispatch _ | .cancelG | .cancelFd | .cancelAllParked | .unparkMany => [.unlock]
  | .expired | .drainParked | .drainParkedMn => [.unlink, .unlock]

/-- A claimer in its claim loop, or with operations left; `finish []` is not on this parker. -/
inductive ClaimPc where
  | load (k : Kind)
  | cas (k : Kind) (cur : ParkCommit)
  | finish (ops : List Op)
deriving DecidableEq

/-- Through which exit `wait_fd` returned. -/
inductive Exit where
  | early
  | commitFailed
  | postPark
deriving DecidableEq

inductive FiberPc where
  | link
  | consume (afterRegister : Bool)
  | register
  | commit
  | leave (exit : Exit) (early : ℤ)
  | park
  | yielded
  | returned (exit : Exit) (result : ℤ)
deriving DecidableEq

/-- Ghost record of the successful swap. -/
structure Win where
  claimer : ℕ
  kind : Kind
  claimedFrom : ParkCommit

structure State where
  events : ℕ
  commit : ParkCommit
  lock : Option ℕ
  linked : Bool
  readyMask : ℤ
  queued : ℕ
  fiber : FiberPc
  claimer : ℕ → ClaimPc
  wins : List Win
  requeues : ℕ

inductive Action where
  | link
  | consume (pending : ℤ)
  | register (ok : Bool)
  | commit
  | leave
  | yield
  | resume
  | claim (i : ℕ) (k : Kind)
  | claimer (i : ℕ)

/-- Dispatch skips a parker that asked for none of the events. -/
def Kind.applies (events : ℕ) : Kind → Bool
  | .dispatch mask => decide (mask < 4) && decide (mask &&& events ≠ 0)
  | _ => true

/-- `wait_fd` hands back `ready_mask`, except that a signal delivery returns `-1`. -/
def result (readyMask : ℤ) : ℤ := if readyMask = NETPOLL_SIGNALED then -1 else readyMask

def doOp (s : State) : Op → State
  | .store v => { s with readyMask := v }
  | .unlink => { s with linked := false }
  | .requeue => { s with queued := s.queued + 1, requeues := s.requeues + 1 }
  | .unlock => { s with lock := none }

def claimerStep (s : State) (i : ℕ) : Option State :=
  match s.claimer i with
  | .load k =>
    if s.commit = .woken then
      some { s with claimer := update s.claimer i (.finish k.afterLose) }
    else some { s with claimer := update s.claimer i (.cas k s.commit) }
  | .cas k cur =>
    if s.commit = cur then
      some { s with
        commit := .woken
        claimer := update s.claimer i (.finish (k.afterWin s.events cur))
        wins := ⟨i, k, cur⟩ :: s.wins }
    -- The fiber has committed between the load and the exchange.
    else some { s with claimer := update s.claimer i (.load k) }
  | .finish [] => none
  | .finish (op :: ops) =>
    some { doOp s op with claimer := update s.claimer i (.finish ops) }

def step (s : State) : Action → Option State
  | .link =>
    if s.fiber = .link ∧ s.lock = none then
      some { s with linked := true, fiber := .consume false }
    else none
  | .consume pending =>
    match s.fiber with
    | .consume afterRegister =>
      if pending ≠ 0 then some { s with fiber := .leave .early pending }
      else some { s with fiber := if afterRegister then .commit else .register }
    | _ => none
  | .register ok =>
    if s.fiber = .register then
      some { s with fiber := if ok then .consume true else .leave .early (-1) }
    else none
  | .commit =>
    if s.fiber = .commit then
      if s.commit = .armed then some { s with commit := .parked, fiber := .park }
      -- A claimer came before the commit; it queues nobody, and the fiber does not yield.
      else some { s with fiber := .leave .commitFailed 0 }
    else none
  | .leave =>
    -- under the pool lock: unlink, then return; the early exits return their own value
    match s.fiber with
    | .leave exit early =>
      if s.lock = none then
        some { s with
          linked := false
          fiber := .returned exit (if exit = .early then early else result s.readyMask) }
      else none
    | _ => none
  | .yield => if s.fiber = .park then some { s with fiber := .yielded } else none
  | .resume =>
    if s.fiber = .yielded ∧ 0 < s.queued then
      some { s with queued := s.queued - 1, fiber := .leave .postPark 0 }
    else none
  | .claim i k =>
    if s.claimer i = .finish [] ∧ s.lock = none ∧ s.linked ∧ k.applies s.events then
      some { s with lock := some i, claimer := update s.claimer i (.load k) }
    else none
  | .claimer i => claimerStep s i

structure Init (s : State) : Prop where
  commit : s.commit = .armed
  lock : s.lock = none
  linked : s.linked = false
  queued : s.queued = 0
  fiber : s.fiber = .link
  claimer : ∀ i, s.claimer i = .finish []
  wins : s.wins = []
  requeues : s.requeues = 0

/-- One `wait_fd` call and any number of claimers of its parker. -/
def waitFd : System State Action where
  init := Init
  step := step

def State.committed (s : State) : Prop := s.fiber = .park ∨ s.fiber = .yielded

/-- Claimer `i` still has to re-queue the fiber. -/
def State.owesRequeue (s : State) (i : ℕ) : Prop :=
  ∃ ops, s.claimer i = .finish ops ∧ .requeue ∈ ops

end Runloom.Netpoll.Commit
