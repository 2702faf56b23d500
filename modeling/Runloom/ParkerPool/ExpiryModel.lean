import Runloom.ParkerPool.Model

/-!
# The expiry sweep

Model of `runloom_pump_drain_expired_pools` over the parker pools: the loop over the deadline heap with its two
batches, the probes of stale arms after it, and the error wake of a dead descriptor by `runloom_pump_dispatch_event`.

What a call does to the parkers of each pool is kept as a list of acts. The effect of `runloom_netpoll_validate_arm`
on the arm cache is left out.
-/

namespace Runloom.ParkerPool

open Transition

def staleProbeBatch : ℕ := 64

def timeoutWakeBatch : ℕ := 64

/-- `RUNLOOM_PARKER_POOL_MAX`: the hubs and the default pool. -/
@[irreducible]
def poolMax : ℕ := 65

/-- `RUNLOOM_NETPOLL_READ | RUNLOOM_NETPOLL_WRITE`. -/
def readWrite : ℕ := 3

/-- `park->commit`. -/
inductive Commit where
  | armed
  | parked
  | woken
deriving DecidableEq

/-- `readyOut` is what was stored to `*ready_out`. -/
structure Waiting where
  events : ℕ
  userDeadlineNs : ℤ
  probePending : Bool
  commit : Commit
  readyOut : Option ℕ

/-- A pool; `inited` is a `lock_inited` of 2. -/
structure Pool where
  inited : Bool
  base : State
  waiting : Parker → Waiting

/-! ### The setup of the deadlines -/

inductive Backend where
  | epoll
  | kqueue
  | other

/-- What `runloom_netpoll_wait_fd` reads for the deadlines. -/
structure Timing where
  backend : Backend
  timeoutNs : ℤ
  deadlineNowNs : ℤ
  monotonicNs : ℤ
  staleProbeNs : ℤ
  predictSkip : Bool

namespace Timing

variable (o : Timing) (sim : Bool)

def userDeadlineNs : ℤ := if o.timeoutNs < 0 then -1 else o.deadlineNowNs + o.timeoutNs

/-- A short timed wait is probed at the half of its timeout. -/
def probeNs : ℤ :=
  if 0 ≤ o.timeoutNs ∧ o.timeoutNs / 2 < o.staleProbeNs then o.timeoutNs / 2 else o.staleProbeNs

/-- `deadline_ns` and `probe_pending`. -/
def deadline : ℤ × Bool :=
  match o.backend with
  | .epoll =>
    if !sim ∧ 0 < o.staleProbeNs ∧ o.predictSkip = true ∧ 0 < o.probeNs ∧
        (o.userDeadlineNs < 0 ∨ o.monotonicNs + o.probeNs < o.userDeadlineNs) then
      (o.monotonicNs + o.probeNs, true)
    else (o.userDeadlineNs, false)
  | .kqueue =>
    if !sim ∧ o.timeoutNs < 0 ∧ 0 < o.staleProbeNs then (o.monotonicNs + o.staleProbeNs, true)
    else (o.userDeadlineNs, false)
  | .other => (o.userDeadlineNs, false)

end Timing

/-! ### What is done to a parker -/

/-- `drop` takes out a parker that someone else has claimed. -/
inductive Act where
  | probe (p : Parker)
  | timeout (p : Parker)
  | drop (p : Parker)
  | error (p : Parker)
deriving DecidableEq

namespace Pool

variable (cfg : Config) (P : Pool) (p : Parker)

def rekey ( realloc : Bool) : Pool :=
  let dh := P.base.dh.remove (dhLess cfg P.base.request) p
  let d := (P.waiting p).userDeadlineNs
  let request := update P.base.request p { P.base.request p with deadlineNs := d }
  { P with
    base := { P.base with request := request, dh := dh.insert (dhLess cfg request) p d realloc }
    waiting := update P.waiting p { P.waiting p with probePending := false } }

/-- The claim of a parker with the result `ready`, and its unlink. -/
def claim (ready : ℕ) : Pool :=
  { P with
    base := (P.base.parkerUnlink cfg p).1
    waiting := update P.waiting p { P.waiting p with commit := .woken, readyOut := some ready } }

def drop : Pool := { P with base := (P.base.parkerUnlink cfg p).1 }

/-- The hub and the fiber to be woken: a fiber that has not committed aborts its park itself. -/
def wakes : List (Option ℕ × Option ℕ) :=
  if (P.waiting p).commit = .parked then [((P.base.request p).hub, (P.base.request p).g)] else []

end Pool

/-! ### The loop over the heap -/

/-- The pool with what the loop keeps: descriptors to probe, wakes to make and made, acts, and the number claimed. -/
structure Sweep where
  pool : Pool
  probeFds : List ℤ
  batch : List (Option ℕ × Option ℕ)
  woken : List (Option ℕ × Option ℕ)
  acts : List Act
  woke : ℕ

/-- What the loop does next. -/
inductive Turn where
  | idle
  | more
  | blocked
  | probe (p : Parker)
  | expire (p : Parker)

namespace Sweep

variable (cfg : Config) (now : ℤ) ( realloc : Bool) (w : Sweep)

def turn : Turn :=
  let s := w.pool.base
  if s.dh.size = 0 ∨ now < (s.request (s.dh.arr 0)).deadlineNs then .idle
  else if timeoutWakeBatch ≤ w.batch.length then .more
  else
    let p := s.dh.arr 0
    if (w.pool.waiting p).probePending then
      if (s.request p).fd ∉ w.probeFds ∧ staleProbeBatch ≤ w.probeFds.length then .blocked else .probe p
    else .expire p

def probe (p : Parker) : Sweep :=
  let fd := (w.pool.base.request p).fd
  { w with
    pool := w.pool.rekey cfg p realloc
    probeFds := if fd ∈ w.probeFds then w.probeFds else w.probeFds ++ [fd]
    acts := w.acts ++ [Act.probe p] }

def expire (p : Parker) : Sweep :=
  if (w.pool.waiting p).commit = .woken then { w with pool := w.pool.drop cfg p, acts := w.acts ++ [Act.drop p] }
  else
    { w with
      pool := w.pool.claim cfg p 0
      batch := w.batch ++ w.pool.wakes p
      acts := w.acts ++ [Act.timeout p]
      woke := w.woke + 1 }

/-- The loop under the lock, and whether it starts again. -/
def pass : ℕ → Sweep → Option (Sweep × Bool)
  | 0, _ => none
  | fuel + 1, w =>
    match w.turn now with
    | .idle => some (w, false)
    | .more => some (w, true)
    | .blocked => some (w, false)
    | .probe p => pass fuel (w.probe cfg realloc p)
    | .expire p => pass fuel (w.expire cfg p)

def flush : Sweep := { w with batch := [], woken := w.woken ++ w.batch }

/-- From `drain_more` on. -/
def drainMore : ℕ → Sweep → Option Sweep
  | 0, _ => none
  | fuel + 1, w =>
    match pass cfg now realloc (2 * w.pool.base.dh.size + 1) w with
    | none => none
    | some (w, true) => drainMore fuel w.flush
    | some (w, false) => some w.flush

end Sweep

/-! ### The error wake -/

/-- The walk of `runloom_pump_dispatch_event` from `p` on. -/
def Sweep.dispatchFrom (cfg : Config) (mask : ℕ) : ℕ → Option Parker → Sweep → Option Sweep
  | _, none, w => some w
  | 0, some _, _ => none
  | fuel + 1, some p, w =>
    let next := w.pool.base.index.nextByFd p
    let wait := w.pool.waiting p
    if wait.events &&& mask = 0 ∨ wait.commit = .woken then dispatchFrom cfg mask fuel next w
    else
      dispatchFrom cfg mask fuel next { w with
          pool := w.pool.claim cfg p (mask &&& wait.events)
          woken := w.woken ++ w.pool.wakes p
          acts := w.acts ++ [Act.error p] }

/-- A hub pool is let through when its bit is set, or has no word. -/
def Pool.visited (cfg : Config) (P : Pool) (fd : ℤ) : Bool :=
  match P.base.mask.table with
  | none => true
  | some m =>
    !(decide (cfg.pidx < 64 ∧ 0 ≤ fd ∧ fd.toNat < m.cap ∧ m.words fd.toNat ≠ BitVec.allOnes 64) &&
      !(m.words fd.toNat).getLsbD cfg.pidx)

/-- `runloom_pump_dispatch_event` in one pool, with `wake_all`. -/
def Sweep.dispatch (cfg : Config) (fd : ℤ) (mask : ℕ) (w : Sweep) : Option Sweep :=
  if w.pool.visited cfg fd ∧ w.pool.inited ∧ 0 ≤ fd ∧ fd.toNat < w.pool.base.index.cap then
    dispatchFrom cfg mask w.pool.base.total.toNat (w.pool.base.index.byFd fd.toNat) w
  else some w

/-! ### All pools -/

/-- The pools, and what the call has done to each. -/
structure Pump where
  pools : ℕ → Pool
  acts : ℕ → List Act
  woken : List (Option ℕ × Option ℕ)
  woke : ℕ

def Config.at (cfg : Config) (i : ℕ) : Config := { cfg with pidx := i }

namespace Pump

variable (cfg : Config) (now : ℤ) ( realloc : Bool)

/-- A sweep of the pool `i` that starts where the call is. -/
def sweep (m : Pump) (i : ℕ) : Sweep := ⟨m.pools i, [], [], m.woken, m.acts i, m.woke⟩

def put (m : Pump) (i : ℕ) (w : Sweep) : Pump :=
  { pools := update m.pools i w.pool
    acts := update m.acts i w.acts
    woken := w.woken
    woke := w.woke }

/-- `runloom_pump_dispatch_event` over the first `n` pools. -/
def dispatchAll (fd : ℤ) (mask : ℕ) : ℕ → Pump → Option Pump
  | 0, m => some m
  | n + 1, m =>
    match dispatchAll fd mask n m with
    | none => none
    | some m => ((m.sweep n).dispatch (cfg.at n) fd mask).map (m.put n)

/-- The probes; `dead` is a `runloom_netpoll_validate_arm` that returned -1. -/
def serviceProbes (dead : ℤ → Bool) : List ℤ → Pump → Option Pump
  | [], m => some m
  | fd :: fds, m =>
    if dead fd then
      match dispatchAll cfg fd readWrite poolMax m with
      | none => none
      | some m => serviceProbes dead fds m
    else serviceProbes dead fds m

/-- The pool `i`. -/
def drainPool (dead : ℤ → Bool) (m : Pump) (i : ℕ) : Option Pump :=
  if !(m.pools i).inited then some m
  else
    match Sweep.drainMore (cfg.at i) now realloc (2 * (m.pools i).base.dh.size + 1) (m.sweep i) with
    | none => none
    | some w => serviceProbes cfg dead w.probeFds (m.put i w)

/-- `runloom_pump_drain_expired_pools` for the first `n` pools. -/
def drainExpired (dead : ℕ → ℤ → Bool) : ℕ → Pump → Option Pump
  | 0, m => some m
  | n + 1, m =>
    match drainExpired dead n m with
    | none => none
    | some m => m.drainPool cfg now realloc (dead n) n

def start (pools : ℕ → Pool) : Pump := ⟨pools, fun _ => [], [], 0⟩

end Pump

/-! ### Runs -/

/-- What `runloom_netpoll_wait_fd` is called with, besides its timing. -/
structure Wait where
  fd : ℤ
  events : ℕ
  g : Option ℕ
  hub : Option ℕ

/-- A link by `runloom_netpoll_wait_fd`, an unlink, a change of `commit`, and a call of the sweep. -/
inductive Op where
  | link (i : ℕ) (p : Parker) (a : Wait) (t : Timing) (o : Answers)
  | unlink (i : ℕ) (p : Parker)
  | setCommit (i : ℕ) (p : Parker) (c : Commit)
  | drain (now : ℤ) ( realloc : Bool) (dead : ℕ → ℤ → Bool) (n : ℕ)

def Pool.park (cfg : Config) (P : Pool) (p : Parker) (a : Wait) (t : Timing) (o : Answers) : Pool where
  inited := true
  base := (P.base.prepare p ⟨a.fd, (t.deadline cfg.sim).1, a.g, a.hub⟩).parkerLink cfg p o
  waiting := update P.waiting p ⟨a.events, t.userDeadlineNs, (t.deadline cfg.sim).2, .armed, none⟩

def Pool.setCommit (P : Pool) (p : Parker) (c : Commit) : Pool :=
  { P with waiting := update P.waiting p { P.waiting p with commit := c } }

def expiryStep (cfg : Config) (pools : ℕ → Pool) : Op → Option (ℕ → Pool)
  | .link i p a t o =>
    if (pools i).base.list.slot p = none then
      some (update pools i ((pools i).park (cfg.at i) p a t o))
    else none
  | .unlink i p => some (update pools i ((pools i).drop (cfg.at i) p))
  | .setCommit i p c => some (update pools i ((pools i).setCommit p c))
  | .drain now r dead n => ((Pump.start pools).drainExpired cfg now r dead n).map Pump.pools

def expirySystem (cfg : Config) : System (ℕ → Pool) Op where
  init pools := ∀ i, (pools i).inited = false ∧ Init (cfg.at i) (pools i).base
  step := expiryStep cfg

end Runloom.ParkerPool
