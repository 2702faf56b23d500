import Mathlib.Data.Int.Notation
import Runloom.Transition.System

/-!
# Queue entries and their fibers

Model of the life of a fiber struct in the default mode of the M:N scheduler: `runloom_mn_fiber_core`,
`runloom_mn_hub_submit`, the drain, the pops and the resume path of `runloom_hub_main`, `runloom_mn_yield_current`,
and `runloom_g_try_incref` and `runloom_g_decref`. After its last reference a struct is on a slab, and a later spawn
takes it again.
-/

namespace Runloom.HubQueue

open Transition

/-- The last three fields are history: the incarnation, the spawn's reference, and a push of the fiber by itself. -/
structure Fiber where
  refcount : ℤ
  inSubQueue : Bool
  done : Bool
  snapValid : Bool
  /-- `coro` is not null. -/
  coro : Bool
  free : Bool
  inc : ℕ
  spawnRef : Bool
  yielded : Bool

/-- A pointer in a queue, with the incarnation that was enqueued. -/
structure Entry (F : Type*) where
  fiber : F
  inc : ℕ
deriving DecidableEq

/-- Where `runloom_hub_main` is. -/
inductive HubPc (F : Type*) where
  | idle
  | route (chain : List (Entry F))
  | popped (e : Entry F)
  /-- After the exchange of `in_sub_queue`; `qref` is `had_qref`. -/
  | claimed (f : F) (qref : Bool)
  | running (f : F) (qref : Bool)
  /-- `runloom_coro_resume` has returned. -/
  | resumed (f : F) (qref selfQueued : Bool)
  | released (f : F) (selfQueued : Bool)
  | oom (f : F) (qref : Bool)
  | skip (f : F) (qref : Bool)
deriving DecidableEq

/-- Where a call of `runloom_mn_hub_submit` is. -/
inductive WakerPc (F H : Type*) where
  | idle
  | load (h : H) (f : F)
  | cas (h : H) (f : F) (old : ℤ)
  /-- With a reference, before the exchange of `in_sub_queue`. -/
  | flag (h : H) (f : F)
  | drop (f : F)
  | push (h : H) (e : Entry F)
deriving DecidableEq

structure State (F H W : Type*) where
  fiber : F → Fiber
  sub : H → List (Entry F)
  ready : H → List (Entry F)
  deque : H → List (Entry F)
  hub : H → HubPc F
  waker : W → WakerPc F H

inductive Action (F H W : Type*) where
  /-- `runloom_mn_fiber_core`; `eager` says that the caller pinned a stack size. -/
  | spawn (w : W) (f : F) (h : H) (eager : Bool)
  /-- `runloom_mn_wake_g`. -/
  | wake (w : W) (f : F) (h : H)
  | waker (w : W)
  | detach (h : H)
  | route (h : H) (full : Bool)
  | popReady (h : H)
  | popDeque (h : H)
  | steal (h victim : H)
  | hub (h : H) (oom : Bool)
  | yield (h : H)
  | park (h : H)
  /-- A bare `runloom_coro_yield`. -/
  | rawYield (h : H)
  | finish (h : H)

variable {F H W : Type*} [DecidableEq F] [DecidableEq H] [DecidableEq W]

/-- `runloom_g_decref`. -/
def Fiber.decref (x : Fiber) : Fiber :=
  if x.refcount - 1 ≤ 0 then
    { x with refcount := x.refcount - 1, snapValid := false, coro := false, free := true }
  else { x with refcount := x.refcount - 1 }

def Fiber.spawned (x : Fiber) (eager : Bool) : Fiber where
  refcount := 1
  inSubQueue := false
  done := false
  snapValid := false
  coro := eager
  free := false
  inc := x.inc + 1
  spawnRef := true
  yielded := false

namespace State

def setFiber (s : State F H W) (f : F) (x : Fiber) : State F H W :=
  { s with fiber := update s.fiber f x }

def setHub (s : State F H W) (h : H) (pc : HubPc F) : State F H W :=
  { s with hub := update s.hub h pc }

def setWaker (s : State F H W) (w : W) (pc : WakerPc F H) : State F H W :=
  { s with waker := update s.waker w pc }

def pushReady (s : State F H W) (h : H) (e : Entry F) : State F H W :=
  { s with ready := update s.ready h (s.ready h ++ [e]) }

def pushDeque (s : State F H W) (h : H) (e : Entry F) : State F H W :=
  { s with deque := update s.deque h (s.deque h ++ [e]) }

def pushSub (s : State F H W) (h : H) (e : Entry F) : State F H W :=
  { s with sub := update s.sub h (s.sub h ++ [e]) }

def entry (s : State F H W) (f : F) : Entry F :=
  ⟨f, (s.fiber f).inc⟩

def dropRef (s : State F H W) (f : F) (qref : Bool) : State F H W :=
  if qref then s.setFiber f (s.fiber f).decref else s

/-- The fiber puts itself on the ready ring of its hub, without a reference. -/
def selfPush (s : State F H W) (h : H) (f : F) : State F H W :=
  (s.pushReady h (s.entry f)).setFiber f { s.fiber f with yielded := true }

/-- `runloom_mn_hub_submit`. -/
def wakerStep (s : State F H W) (w : W) : Option (State F H W) :=
  match s.waker w with
  | .idle => none
  | .load h f => some (s.setWaker w (.cas h f (s.fiber f).refcount))
  | .cas h f old =>
    -- The loop of `runloom_g_try_incref`; a failed exchange reads the count again.
    if 0 < old then
      if (s.fiber f).refcount = old then
        some ((s.setFiber f { s.fiber f with refcount := old + 1 }).setWaker w (.flag h f))
      else some (s.setWaker w (.cas h f (s.fiber f).refcount))
    else some (s.setWaker w .idle)
  | .flag h f =>
    -- Somebody else queues the fiber, and the reference goes back.
    if (s.fiber f).inSubQueue then some (s.setWaker w (.drop f))
    else some ((s.setFiber f { s.fiber f with inSubQueue := true }).setWaker w (.push h (s.entry f)))
  | .drop f => some ((s.setFiber f (s.fiber f).decref).setWaker w .idle)
  | .push h e => some ((s.pushSub h e).setWaker w .idle)

/-- A drained entry goes to the ready ring, or, fresh, to the deque while there is room. -/
def routeStep (s : State F H W) (h : H) (full : Bool) : Option (State F H W) :=
  match s.hub h with
  | .route [] => some (s.setHub h .idle)
  | .route (e :: chain) =>
    some ((if (s.fiber e.fiber).snapValid || full then s.pushReady h e else s.pushDeque h e).setHub h
      (.route chain))
  | _ => none

/-- The resume path of `runloom_hub_main`, from the popped entry on. -/
def hubStep (s : State F H W) (h : H) (oom : Bool) : Option (State F H W) :=
  match s.hub h with
  | .popped e =>
    let x := s.fiber e.fiber
    some ((s.setFiber e.fiber { x with snapValid := false, inSubQueue := false, yielded := false }).setHub h
      -- The flag that the pop clears says whether the entry came with a reference.
      (.claimed e.fiber x.inSubQueue))
  | .claimed f qref =>
    let x := s.fiber f
    if x.done then some (s.setHub h (.skip f qref))
    else if x.coro then some (s.setHub h (.running f qref))
    -- The stack of a fresh fiber is made by the hub that runs it.
    else if oom then some ((s.setFiber f { x with done := true }).setHub h (.oom f qref))
    else some ((s.setFiber f { x with coro := true }).setHub h (.running f qref))
  | .resumed f qref selfQueued => some ((s.dropRef f qref).setHub h (.released f selfQueued))
  | .released f selfQueued =>
    if (s.fiber f).done then
      some ((s.setFiber f { (s.fiber f).decref with spawnRef := false }).setHub h .idle)
    else if selfQueued then some (s.setHub h .idle)
    else some ((s.selfPush h f).setHub h .idle)
  | .oom f qref =>
    some ((s.setFiber f { (s.fiber f).decref with spawnRef := false }).setHub h (.skip f qref))
  | .skip f qref => some ((s.dropRef f qref).setHub h .idle)
  | _ => none

/-- The fiber that the hub runs, with its `had_qref`. -/
def runs (s : State F H W) (h : H) : Option (F × Bool) :=
  match s.hub h with
  | .running f qref => some (f, qref)
  | _ => none

end State

open State

def step (s : State F H W) : Action F H W → Option (State F H W)
  | .spawn w f h eager =>
    if s.waker w = .idle ∧ (s.fiber f).free then
      some ((s.setFiber f ((s.fiber f).spawned eager)).setWaker w (.load h f))
    else none
  | .wake w f h => if s.waker w = .idle then some (s.setWaker w (.load h f)) else none
  | .waker w => s.wakerStep w
  | .detach h =>
    if s.hub h = .idle then
      some ({ s with sub := update s.sub h [] }.setHub h (.route (s.sub h)))
    else none
  | .route h full => s.routeStep h full
  | .popReady h =>
    match s.hub h, s.ready h with
    | .idle, e :: rest =>
      some ({ s with ready := update s.ready h rest }.setHub h (.popped e))
    | _, _ => none
  | .popDeque h =>
    match s.hub h, (s.deque h).getLast? with
    | .idle, some e =>
      some ({ s with deque := update s.deque h (s.deque h).dropLast }.setHub h (.popped e))
    | _, _ => none
  | .steal h victim =>
    match s.hub h, s.deque victim with
    | .idle, e :: rest =>
      some ({ s with deque := update s.deque victim rest }.setHub h (.popped e))
    | _, _ => none
  | .hub h oom => s.hubStep h oom
  | .yield h => (s.runs h).map fun (f, qref) =>
      ((s.setFiber f { s.fiber f with snapValid := true }).selfPush h f).setHub h (.resumed f qref true)
  | .park h => (s.runs h).map fun (f, qref) =>
      (s.setFiber f { s.fiber f with snapValid := true }).setHub h (.resumed f qref true)
  | .rawYield h => (s.runs h).map fun (f, qref) => s.setHub h (.resumed f qref false)
  | .finish h => (s.runs h).map fun (f, qref) =>
      (s.setFiber f { s.fiber f with done := true }).setHub h (.resumed f qref false)

/-- Every struct is on a slab, and nothing is queued or under way. -/
structure Init (s : State F H W) : Prop where
  refcount : ∀ f, (s.fiber f).refcount = 0
  free : ∀ f, (s.fiber f).free = true
  inSubQueue : ∀ f, (s.fiber f).inSubQueue = false
  spawnRef : ∀ f, (s.fiber f).spawnRef = false
  yielded : ∀ f, (s.fiber f).yielded = false
  sub : ∀ h, s.sub h = []
  ready : ∀ h, s.ready h = []
  deque : ∀ h, s.deque h = []
  hub : ∀ h, s.hub h = .idle
  waker : ∀ w, s.waker w = .idle

def hubQueue : System (State F H W) (Action F H W) where
  init := Init
  step := step

end Runloom.HubQueue
