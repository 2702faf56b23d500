import Mathlib.Data.PNat.Basic
import Runloom.Transition.System

/-!
# The max-fibers admission gate

Model of `runloom_fiber_admit` and `runloom_fiber_release` with the places that call them: the single-threaded
`spawn_common`, the M:N `runloom_mn_fiber_core` (also behind the per-item loop of `runloom_mn_fiber_n`), their error
exits, and the last `runloom_g_decref`.  The limit is set to `m > 0` before the first spawn and stays, so every
admission is counted.

Whether an allocation succeeds is up to the environment.
-/

namespace Runloom.Admission

open Transition

/-- The allocations that a spawn still has to make before it publishes the fiber. -/
structure Todo where
  coro : Bool
  tstate : Bool
deriving DecidableEq

/-- The callers of the gate. -/
inductive Path where
  | spawnCommon
  | mnFiberCore (eager perG : Bool)
deriving DecidableEq

def Path.todo : Path → Todo
  | .spawnCommon => ⟨true, false⟩
  | .mnFiberCore eager perG => ⟨eager, perG⟩

/-- A fiber struct; `published` and `admission` are history: handed to a scheduler, and the admission it holds. -/
structure Fiber where
  onSlab : Bool
  refcount : ℕ
  limitCounted : Bool
  published : Bool
  admission : ℕ

inductive Pc (F : Type*) where
  | idle
  /-- In `runloom_fiber_admit`, with the limit loaded. -/
  | add (path : Path)
  | undo (admission : ℕ)
  | alloc (path : Path) (admission : ℕ)
  | allocFailed (admission : ℕ)
  | build (f : F) (todo : Todo) (admission : ℕ)
  /-- The struct is torn down, by an error exit or by the last decref (`final`). -/
  | release (f : F) (admission : ℕ) (final : Bool)
  | clear (f : F)
  | free (f : F)
deriving DecidableEq

/-- `liveG` is `runloom_live_g`; `released` counts how often each admission was given back. -/
structure State (F T : Type*) where
  liveG : ℤ
  fiber : F → Fiber
  pc : T → Pc F
  admissions : ℕ
  released : ℕ → ℕ

inductive Action (F T : Type*) where
  | spawn (t : T) (path : Path)
  /-- The next step of a spawn or a final decref; `f` is the struct that `runloom_g_slab_alloc` returns. -/
  | step (t : T) (ok : Bool) (f : F)
  | incref (f : F)
  | decref (t : T) (f : F)

variable {F T : Type*} [DecidableEq F] [DecidableEq T]

namespace State

def goto (s : State F T) (t : T) (pc : Pc F) : State F T :=
  { s with pc := update s.pc t pc }

def setFiber (s : State F T) (f : F) (g : Fiber) : State F T :=
  { s with fiber := update s.fiber f g }

/-- `runloom_fiber_release`, or the back-out of `runloom_fiber_admit`. -/
def giveBack (s : State F T) (admission : ℕ) : State F T :=
  { s with
    liveG := s.liveG - 1
    released := update s.released admission (s.released admission + 1) }

/-- The `add_fetch` of `runloom_fiber_admit`, and its test. -/
def fiberAdmit (m : ℕ+) (s : State F T) (t : T) (path : Path) : State F T :=
  { s with liveG := s.liveG + 1, admissions := s.admissions + 1 }.goto t
    -- The count is taken first, and given back if it is over the limit.
    (if ((m : ℕ) : ℤ) < s.liveG + 1 then .undo s.admissions else .alloc path s.admissions)

/-- A struct from `runloom_g_slab_alloc`, with the fields that the spawn writes first. -/
def build (s : State F T) (t : T) (f : F) (path : Path) (admission : ℕ) : State F T :=
  (s.setFiber f ⟨false, 1, true, false, admission⟩).goto t (.build f path.todo admission)

/-- The next allocation of a spawn, or the publication once all are made. -/
def buildStep (s : State F T) (t : T) (f : F) (todo : Todo) (a : ℕ) (ok : Bool) : State F T :=
  if todo.coro then
    s.goto t (if ok then .build f { todo with coro := false } a else .release f a false)
  else if todo.tstate then
    s.goto t (if ok then .build f { todo with tstate := false } a else .release f a false)
  else (s.setFiber f { s.fiber f with published := true }).goto t .idle

/-- `if (g->limit_counted) runloom_fiber_release()`. -/
def releaseStep (s : State F T) (t : T) (f : F) (a : ℕ) : State F T :=
  -- The flag belongs to the struct, so that a teardown that comes twice releases once.
  if (s.fiber f).limitCounted then
    ((s.giveBack a).setFiber f { s.fiber f with published := false }).goto t (.clear f)
  else s.goto t (.free f)

end State

open State

def step (m : ℕ+) (s : State F T) : Action F T → Option (State F T)
  | .spawn t path =>
    match s.pc t with
    | .idle => some (s.goto t (.add path))
    | _ => none
  | .step t ok f =>
    match s.pc t with
    | .idle => none
    | .add path => some (s.fiberAdmit m t path)
    | .undo a => some ((s.giveBack a).goto t .idle)
    | .alloc path a =>
      if ok then if (s.fiber f).onSlab then some (s.build t f path a) else none
      else some (s.goto t (.allocFailed a))
    | .allocFailed a => some ((s.giveBack a).goto t .idle)
    | .build f todo a => some (s.buildStep t f todo a ok)
    | .release f a _ => some (s.releaseStep t f a)
    | .clear f => some ((s.setFiber f { s.fiber f with limitCounted := false }).goto t (.free f))
    | .free f => some ((s.setFiber f { s.fiber f with onSlab := true }).goto t .idle)
  | .incref f =>
    -- a reference is taken by somebody who can reach the fiber through another one
    if (s.fiber f).published ∧ 0 < (s.fiber f).refcount then
      some (s.setFiber f { s.fiber f with refcount := (s.fiber f).refcount + 1 })
    else none
  | .decref t f =>
    match s.pc t with
    | .idle =>
      if (s.fiber f).published ∧ 0 < (s.fiber f).refcount then
        some ((s.setFiber f { s.fiber f with refcount := (s.fiber f).refcount - 1 }).goto t
          (if (s.fiber f).refcount - 1 = 0 then .release f (s.fiber f).admission true else .idle))
      else none
    | _ => none

/-- No fiber exists yet. -/
structure Init (s : State F T) : Prop where
  liveG : s.liveG = 0
  fiber : ∀ f, s.fiber f = ⟨true, 0, false, false, 0⟩
  pc : ∀ t, s.pc t = .idle
  admissions : s.admissions = 0
  released : ∀ a, s.released a = 0

variable (F T) in
/-- Spawns and final decrefs under the limit `m`. -/
def gate (m : ℕ+) : System (State F T) (Action F T) where
  init := Init
  step := step m

end Runloom.Admission
