import Runloom.Transition.System

/-!
# Offload hubs

The last `offload` hubs of the M:N scheduler are reserved for blocking calls. Model of everything that decides which
hub a fiber is queued on or run by: `runloom_mn_fiber_core` and its callers, the arena path of `runloom_mn_fiber_n`,
the drain of a submission list, the choice of the next fiber in `runloom_hub_main`, the timers, and
`runloom_mn_wake_g`.
-/

namespace Runloom.OffloadHubs

open Transition

/-- The hub counts, and the process-wide modes read from the environment. -/
structure Config where
  hubs : ℕ
  offload : ℕ
  offload_pos : 0 < offload
  offload_lt : offload < hubs
  pairAffinity : Bool
  schedRandom : Bool
  /-- `RUNLOOM_GON_BULK`. -/
  bulk : Bool
  perGTstate : Bool
  stealWoken : Bool
  noSteal : Bool

variable (cfg : Config)

def generalHubCount : ℕ :=
  if 0 < cfg.hubs - cfg.offload then cfg.hubs - cfg.offload else cfg.hubs

def hubIsOffload (id : ℕ) : Bool :=
  0 < cfg.offload && generalHubCount cfg ≤ id

def useGlobalRunq : Bool :=
  cfg.perGTstate || cfg.stealWoken

/-- Whether a fiber came from `runloom_mn_offload_fiber`. -/
inductive Kind where
  | general
  | offload
deriving DecidableEq

structure Fiber where
  id : ℕ
  kind : Kind
deriving DecidableEq

/-! ## Placement -/

/-- `runloom_mn_fiber_core` for a spawn that is not pinned; `n` is from the spawn counter, `rand` from
`runloom_steal_rand`. -/
def placeGeneral (pyIndex : Option ℕ) (n rand : ℕ) : ℕ :=
  if cfg.pairAffinity then (pyIndex.getD n / 2) % generalHubCount cfg
  else if 1 < generalHubCount cfg ∧ cfg.schedRandom then rand % generalHubCount cfg
  else n % generalHubCount cfg

def hubIdx (forceHub pyIndex : Option ℕ) (n rand : ℕ) : ℕ :=
  match forceHub with
  | some h => if h < cfg.hubs then h else placeGeneral cfg pyIndex n rand
  | none => placeGeneral cfg pyIndex n rand

/-- `runloom_mn_offload_fiber`: the `slot`-th offload spawn. -/
def offloadHub (slot : ℕ) : ℕ :=
  generalHubCount cfg + slot % cfg.offload

/-- The hub of the `i`-th fiber in `runloom_mn_fiber_n_bulk` and in `runloom_pcreate_worker`. -/
def bulkHub (i : ℕ) : ℕ :=
  if cfg.pairAffinity then (i / 2) % cfg.hubs else i % cfg.hubs

/-! ## State -/

structure Hub where
  sub : List Fiber
  /-- The chain that the hub has detached from `sub` and is routing. -/
  draining : List Fiber
  ready : List Fiber
  deque : List Fiber
  sleepers : List Fiber
  running : Option Fiber

inductive WakeState where
  | running
  | runningWoken
  | parked
  | queued

/-- A `runloom_mn_fiber_n` that goes through the spawn core, at its loop index. -/
structure Loop where
  next : ℕ
  count : ℕ
  indexed : Bool

/-- `splices` are the lists that arena spawns still have to publish, `waiters` the fibers that a `wake_g`, however
late, can name. -/
structure State where
  spawnCounter : ℕ
  offloadRr : ℕ
  goid : ℕ
  hub : ℕ → Hub
  runq : List Fiber
  loops : List Loop
  splices : List (ℕ × List Fiber)
  waiters : List (Fiber × ℕ)
  inSubQueue : Fiber → Bool
  snapValid : Fiber → Bool
  wakeState : Fiber → WakeState

inductive Action where
  /-- `runloom_mn_fiber`, `runloom_mn_fiber_c` or `runloom_mn_fiber_grown`. -/
  | fiber (rand : ℕ)
  | offloadFiber (rand : ℕ)
  /-- `arena` says whether `runloom_coro_bulk_init` succeeds. -/
  | fiberN (n : ℕ) (indexed arena : Bool)
  | loopNext (k rand : ℕ)
  | splice (k : ℕ)
  | detachSub (h : ℕ)
  | route (h : ℕ) (dequeFull : Bool)
  /-- An expired sleeper; `claimed` says that a signal claimed it first. -/
  | timer (h : ℕ) (claimed : Bool)
  | popReady (h : ℕ)
  | popDeque (h : ℕ)
  | pull (h : ℕ)
  | steal (h victim : ℕ)
  /-- The fiber that hub `h` runs registers with a wait source or the sleep heap. -/
  | register (h : ℕ)
  | sleep (h : ℕ)
  | park (h : ℕ)
  | yield (h : ℕ)
  | complete (h : ℕ)
  | wake (g : Fiber) (h : ℕ)

namespace State

def setHub (s : State) (h : ℕ) (b : Hub) : State :=
  { s with hub := update s.hub h b }

/-- The append of `runloom_mn_hub_submit`, after its claim of `in_sub_queue`. -/
def submit (s : State) (h : ℕ) (g : Fiber) : State :=
  { s.setHub h { s.hub h with sub := (s.hub h).sub ++ [g] } with
    inSubQueue := update s.inSubQueue g true }

def fiberCore (s : State) (kind : Kind) (forceHub pyIndex : Option ℕ) (rand : ℕ) : State :=
  { s with spawnCounter := s.spawnCounter + 1, goid := s.goid + 1 }.submit
    (hubIdx cfg forceHub pyIndex s.spawnCounter rand) ⟨s.goid, kind⟩

def bulkList (s : State) (n h : ℕ) : List Fiber :=
  ((List.range n).filter fun i => bulkHub cfg i = h).map fun i => ⟨s.goid + i, .general⟩

def fiberNBulk (s : State) (n : ℕ) (indexed arena : Bool) : State :=
  if 64 < cfg.hubs then s
  else if arena then
    { s with
      goid := s.goid + n
      splices := s.splices ++ (List.range cfg.hubs).map fun h => (h, s.bulkList cfg n h)
      inSubQueue := fun g => if s.goid ≤ g.id ∧ g.id < s.goid + n then true else s.inSubQueue g }
  else { s with loops := s.loops ++ [⟨0, n, indexed⟩] }

def fiberN (s : State) (n : ℕ) (indexed arena : Bool) : State :=
  if 0 < n ∧ cfg.bulk then s.fiberNBulk cfg n indexed arena
  else { s with loops := s.loops ++ [⟨0, n, indexed⟩] }

/-- The hub resumes `g`, taken from its queues as `b` says. -/
def resume (s : State) (h : ℕ) (b : Hub) (g : Fiber) : State :=
  { s.setHub h { b with running := some g } with
    inSubQueue := update s.inSubQueue g false
    snapValid := update s.snapValid g false }

/-- The fiber leaves the hub's thread; a per-g thread state needs no snapshot. -/
def suspend (s : State) (h : ℕ) (b : Hub) (g : Fiber) : State :=
  { s.setHub h { b with running := none } with
    snapValid := update s.snapValid g (!cfg.perGTstate) }

def setWake (s : State) (g : Fiber) (w : WakeState) : State :=
  { s with wakeState := update s.wakeState g w }

def pushRunq (s : State) (g : Fiber) : State :=
  { s with runq := s.runq ++ [g] }

/-- What `runloom_hub_main` does with a fiber that parked off its queues. -/
def release (s : State) (g : Fiber) : State :=
  if useGlobalRunq cfg then
    match s.wakeState g with
    | .runningWoken => (s.setWake g .queued).pushRunq g
    | _ => s.setWake g .parked
  else s

/-- `runloom_mn_wake_g`. -/
def wakeG (s : State) (g : Fiber) (h : ℕ) : State :=
  if useGlobalRunq cfg then
    match s.wakeState g with
    | .parked => (s.setWake g .queued).pushRunq g
    | .running => s.setWake g .runningWoken
    | _ => s
  -- The entry is there already.
  else if s.inSubQueue g then s
  else s.submit h g

/-- A due sleeper goes to the ready ring, unless it was claimed or woken. -/
def fireTimer (s : State) (h : ℕ) (g : Fiber) (rest : List Fiber) (claimed : Bool) : State :=
  if claimed then s.setHub h { s.hub h with sleepers := rest }
  else if useGlobalRunq cfg then
    match s.wakeState g with
    -- Only a fiber that is still parked is claimed for the timer.
    | .parked => (s.setHub h { s.hub h with
        sleepers := rest, ready := (s.hub h).ready ++ [g] }).setWake g .running
    | _ => s.setHub h { s.hub h with sleepers := rest }
  else s.setHub h { s.hub h with sleepers := rest, ready := (s.hub h).ready ++ [g] }

/-- Woken fibers go to the ready ring, fresh ones to the deque while it has room. -/
def routeTo (s : State) (h : ℕ) (g : Fiber) (rest : List Fiber) (dequeFull : Bool) : State :=
  if s.snapValid g ∨ dequeFull then
    s.setHub h { s.hub h with draining := rest, ready := (s.hub h).ready ++ [g] }
  else s.setHub h { s.hub h with draining := rest, deque := (s.hub h).deque ++ [g] }

def Idle (s : State) (h : ℕ) : Prop :=
  h < cfg.hubs ∧ (s.hub h).running = none

instance (s : State) (h : ℕ) : Decidable (s.Idle cfg h) :=
  inferInstanceAs (Decidable (_ ∧ _))

end State

open State

def step (s : State) : Action → Option State
  | .fiber rand => some (s.fiberCore cfg .general none none rand)
  | .offloadFiber rand =>
    some ({ s with offloadRr := s.offloadRr + 1 }.fiberCore cfg .offload
      (some (offloadHub cfg s.offloadRr)) none rand)
  | .fiberN n indexed arena => some (s.fiberN cfg n indexed arena)
  | .loopNext k rand =>
    match s.loops[k]? with
    | some l =>
      if l.next < l.count then
        some ({ s with loops := s.loops.set k { l with next := l.next + 1 } }.fiberCore cfg .general
          none (if l.indexed then some l.next else none) rand)
      else none
    | none => none
  | .splice k =>
    match s.splices[k]? with
    | some (h, gs) =>
      some { s.setHub h { s.hub h with sub := (s.hub h).sub ++ gs } with
        splices := s.splices.eraseIdx k }
    | none => none
  | .detachSub h =>
    if s.Idle cfg h ∧ (s.hub h).draining = [] then
      some (s.setHub h { s.hub h with sub := [], draining := (s.hub h).sub })
    else none
  | .route h dequeFull =>
    match (s.hub h).draining with
    | g :: rest => some (s.routeTo h g rest dequeFull)
    | [] => none
  | .timer h claimed =>
    match (s.hub h).sleepers with
    | g :: rest => if s.Idle cfg h then some (s.fireTimer cfg h g rest claimed) else none
    | [] => none
  | .popReady h =>
    match (s.hub h).ready with
    | g :: rest => if s.Idle cfg h then some (s.resume h { s.hub h with ready := rest } g) else none
    | [] => none
  | .popDeque h =>
    match (s.hub h).deque.getLast? with
    | some g =>
      if s.Idle cfg h then
        some (s.resume h { s.hub h with deque := (s.hub h).deque.dropLast } g)
      else none
    | none => none
  | .pull h =>
    -- looked at only when the hub's own queues are empty; nobody else fills those
    if s.Idle cfg h ∧ (s.hub h).ready = [] ∧ (s.hub h).deque = [] then
      match s.runq with
      | g :: rest => some (({ s with runq := rest }.setWake g .running).resume h (s.hub h) g)
      | [] => none
    else none
  | .steal h victim =>
    if s.Idle cfg h ∧ (s.hub h).ready = [] ∧ (s.hub h).deque = [] ∧ cfg.noSteal = false ∧
        hubIsOffload cfg h = false ∧ 2 ≤ generalHubCount cfg ∧ victim < generalHubCount cfg ∧
        victim ≠ h then
      match (s.hub victim).deque with
      | g :: rest =>
        some ((s.setHub victim { s.hub victim with deque := rest }).resume h (s.hub h) g)
      | [] => none
    else none
  | .register h =>
    (s.hub h).running.map fun g => { s with waiters := (g, h) :: s.waiters }
  | .sleep h =>
    (s.hub h).running.map fun g =>
      s.setHub h { s.hub h with sleepers := (s.hub h).sleepers ++ [g] }
  | .park h => (s.hub h).running.map fun g => (s.suspend cfg h (s.hub h) g).release cfg g
  | .yield h =>
    (s.hub h).running.map fun g =>
      s.suspend cfg h { s.hub h with ready := (s.hub h).ready ++ [g] } g
  | .complete h =>
    (s.hub h).running.map fun _ => s.setHub h { s.hub h with running := none }
  | .wake g h => if (g, h) ∈ s.waiters then some (s.wakeG cfg g h) else none

def Hub.empty : Hub := ⟨[], [], [], [], [], none⟩

def init : State where
  spawnCounter := 0
  offloadRr := 0
  goid := 0
  hub _ := .empty
  runq := []
  loops := []
  splices := []
  waiters := []
  inSubQueue _ := false
  snapValid _ := false
  wakeState _ := .running

def hubs : System State Action where
  init s := s = init
  step := step cfg

end Runloom.OffloadHubs
