import Runloom.ParkerPool.Model

/-!
# The sweep of idle stacks

Model of `runloom_netpoll_sweep_idle` over the parker pool.  A sweep walks a part of the list under `pool->lock` and
keeps its place in `sweep_cursor`; whether it may go on from there, it decides from the number of unlinks alone.  The
`madvise` of the stacks, which comes after the lock, is left out.
-/

namespace Runloom.ParkerPool

open Transition

def sweepBatch : ℕ := 128

def sweepMaxVisit : ℕ := 1024

/-- The pool with the fields of the sweep.  `cursorGen` is an `unsigned int`. -/
structure SweepState where
  pool : State
  cursor : Option Parker
  cursorGen : ℕ
  churnLastLinks : ℕ
  churnLastNs : ℤ
  parkTs : Parker → ℤ
  reclaimed : Parker → Bool

/-- What a sweep finds: the clock, its threshold, `RUNLOOM_SWEEP_MAX_CHURN`, and the fibers that
`runloom_mn_sweep_try_claim` gets. -/
structure Glance where
  now : ℤ
  thresholdNs : ℤ
  maxChurn : ℕ
  perG : Bool
  hasCoro : ℕ → Bool
  parked : Parker → Bool
  tryClaim : ℕ → Bool

namespace SweepState

variable (s : SweepState) (o : Glance)

/-- The arrivals since the last evaluation are at the limit or above. -/
def throttle : Bool :=
  let dt := o.now - s.churnLastNs
  0 < o.maxChurn && s.churnLastNs ≠ 0 && 0 < dt &&
    o.maxChurn * dt.toNat % 2 ^ 64 ≤ (s.pool.linkCount - s.churnLastLinks) * 1000000000 % 2 ^ 64

def noteChurn : SweepState :=
  if 0 < o.maxChurn then { s with churnLastLinks := s.pool.linkCount, churnLastNs := o.now } else s

/-- `unlinks_now`: the number of unlinks so far, as an `unsigned int`. -/
def unlinksNow : ℕ := (((s.pool.linkCount : ℤ) - s.pool.total) % 2 ^ 32).toNat

def start : Option Parker :=
  if s.cursor = none ∨ s.unlinksNow ≠ s.cursorGen then s.pool.list.head else s.cursor

/-- The fiber whose stack is reclaimed at the parker `p`, if its stack is. -/
def reclaims (reclaimed : Parker → Bool) (p : Parker) : Option ℕ :=
  match (s.pool.request p).g with
  | none => none
  | some g =>
    if !reclaimed p && s.parkTs p ≠ 0 && o.hasCoro g && o.parked p && o.thresholdNs ≤ o.now - s.parkTs p &&
      (!o.perG || o.tryClaim g) then some g else none

def walk : ℕ → Option Parker → (Parker → Bool) → List ℕ → Option Parker × (Parker → Bool) × List ℕ
  | 0, p, reclaimed, batch => (p, reclaimed, batch)
  | _ + 1, none, reclaimed, batch => (none, reclaimed, batch)
  | k + 1, some p, reclaimed, batch =>
    if sweepBatch ≤ batch.length then (some p, reclaimed, batch)
    else
      match s.reclaims o reclaimed p with
      | some g => walk k (s.pool.list.next p) (update reclaimed p true) (batch ++ [g])
      | none => walk k (s.pool.list.next p) reclaimed batch

/-- `runloom_netpoll_sweep_idle`, with the fibers whose stacks it reclaims. -/
def sweepIdle : List ℕ × SweepState :=
  let throttled := s.throttle o
  let s := s.noteChurn o
  if throttled then ([], s)
  else
    let (p, reclaimed, batch) := s.walk o sweepMaxVisit s.start s.reclaimed []
    (batch, { s with cursor := p, cursorGen := s.unlinksNow, reclaimed := reclaimed })

end SweepState

/-- `stamp` is the write of `park_ts` by `runloom_netpoll_wait_fd`. -/
inductive SweepCall where
  | link (p : Parker) (r : Request) (o : Answers)
  | unlink (p : Parker)
  | stamp (p : Parker) (ts : ℤ)
  | sweep (o : Glance)

variable (cfg : Config)

/-- `runloom_parker_pool_acquire` leaves no time stamp. -/
def sweepStep (s : SweepState) : SweepCall → Option SweepState
  | .link p r o =>
    (step cfg s.pool (.link p r o)).map fun pool =>
      { s with
        pool := pool
        parkTs := update s.parkTs p 0
        reclaimed := update s.reclaimed p false }
  | .unlink p => (step cfg s.pool (.unlink p)).map fun pool => { s with pool := pool }
  | .stamp p ts => some { s with parkTs := update s.parkTs p ts }
  | .sweep o => some (s.sweepIdle o).2

structure SweepInit (s : SweepState) : Prop where
  pool : Init cfg s.pool
  linkCount : s.pool.linkCount = 0
  cursor : s.cursor = none
  cursorGen : s.cursorGen = 0

def sweepSystem : System SweepState SweepCall where
  init := SweepInit cfg
  step := sweepStep cfg

end Runloom.ParkerPool
