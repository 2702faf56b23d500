import Runloom.Bump.Cursor
import Runloom.Transition.System

/-!
# The stack arena

Model of `runloom_arena_alloc` and `runloom_arena_free` with everything that carves stacks from an arena class and
gives them back: single fibers and the pool of their stacks, bulk batches, and the copy-growth of a suspended fiber.

`out`, `twice` and `unmapped` record history: the slots handed out, those given back while they were not, and those
whose memory was unmapped.
-/

namespace Runloom.StackArena

open Transition Bump

/-- A fiber on a stack of its own, or the `k`-th fiber of a batch. -/
inductive Fiber (X B : Type*) where
  | single (x : X)
  | member (b : B) (k : Nat)
deriving DecidableEq

inductive Stack (C : Type*) where
  /-- A mapping of its own, from the depot or `runloom_stack_map_guarded`. -/
  | standalone
  | slot (c : C) (i : Nat)
deriving DecidableEq

/-- `runloom_fibern_batch`. -/
structure Batch (C : Type*) where
  cls : C
  startSlot : Nat
  nslots : Nat
  live : Nat

/-- `runloom_fibern_batch_finish_one`. -/
def Batch.finishOne {C : Type*} (t : Batch C) : Batch C :=
  { t with live := t.live - 1 }

structure State (X B C : Type*) where
  cursor : C → Cursor
  stack : Fiber X B → Option (Stack C)
  batch : B → Option (Batch C)
  pool : List (C × Nat)
  out : C → List Nat
  twice : List (C × Nat)
  unmapped : List (C × Nat)

inductive Action (X B C : Type*) where
  /-- A single fiber; `mapped` says that there is a mapping for the class. -/
  | spawn (x : X) (c : C) (mapped : Bool)
  | recycle (x : X) (c : C) (i : Nat)
  | bulk (b : B) (c : C) (n : Nat)
  | grow (f : Fiber X B)
  | finish (f : Fiber X B)
  | flush (c : C) (i : Nat)
  | release (b : B)

variable {X B C : Type*} [DecidableEq X] [DecidableEq B] [DecidableEq C]

namespace State

/-- `runloom_arena_alloc`, for a class that is mapped and has room. -/
def arenaAlloc (s : State X B C) (c : C) (n : Nat) : State X B C :=
  { s with
    cursor := update s.cursor c ((s.cursor c).alloc n),
    out := update s.out c (s.out c ++ List.range' (s.cursor c).next n) }

/-- `runloom_arena_free`. -/
def arenaFree (s : State X B C) (c : C) (start n : Nat) : State X B C :=
  { s with
    cursor := update s.cursor c ((s.cursor c).free start n),
    out := update s.out c (without (s.out c) start n),
    twice := s.twice ++ ((List.range' start n).filter fun i => decide (i ∉ s.out c)).map fun i => (c, i) }

def setStack (s : State X B C) (f : Fiber X B) (k : Option (Stack C)) : State X B C :=
  { s with stack := update s.stack f k }

/-- `runloom_stack_acquire`. -/
def acquire (s : State X B C) (cap : C → Nat) (on : Bool) (x : X) (c : C) (mapped : Bool) :
    State X B C :=
  if on && mapped && decide ((s.cursor c).next + 1 ≤ cap c) then
    (s.arenaAlloc c 1).setStack (.single x) (some (.slot c (s.cursor c).next))
  else s.setStack (.single x) (some .standalone)

/-- `runloom_coro_bulk_init`. -/
def bulkInit (s : State X B C) (b : B) (c : C) (n : Nat) : State X B C :=
  let start := (s.cursor c).next
  { s.arenaAlloc c n with
    batch := update s.batch b (some ⟨c, start, n, n⟩),
    stack := fun f =>
      match f with
      | .single _ => s.stack f
      | .member b' k => if b' = b ∧ k < n then some (.slot c (start + k)) else s.stack f }

/-- `runloom_coro_grow`: the stack the fiber leaves. -/
def grow (s : State X B C) (on : Bool) (f : Fiber X B) : Stack C → State X B C
  | .standalone => s.setStack f (some .standalone)
  | .slot c i =>
    if on then (s.arenaFree c i 1).setStack f (some .standalone)
    else { s with unmapped := s.unmapped ++ [(c, i)] }.setStack f (some .standalone)

/-- The coro is recycled, or its batch counts it. -/
def finish (s : State X B C) : Fiber X B → Stack C → State X B C
  | .single x, .slot c i => { s with pool := (c, i) :: s.pool }.setStack (.single x) none
  | .single x, .standalone => s.setStack (.single x) none
  | .member b k, _ =>
    { s with batch := update s.batch b ((s.batch b).map Batch.finishOne) }.setStack (.member b k) none

end State

/-- `cap` is the number of slots of a class, `on` the value of `runloom_stack_arena_on`. -/
def step (cap : C → Nat) (on : Bool) (s : State X B C) : Action X B C → Option (State X B C)
  | .spawn x c mapped =>
    match s.stack (.single x) with
    | none => some (s.acquire cap on x c mapped)
    | some _ => none
  | .recycle x c i =>
    match s.stack (.single x) with
    | none =>
      if (c, i) ∈ s.pool then
        some ({ s with pool := s.pool.erase (c, i) }.setStack (.single x) (some (.slot c i)))
      else none
    | some _ => none
  | .bulk b c n =>
    match s.batch b with
    | none => if 0 < n ∧ (s.cursor c).next + n ≤ cap c then some (s.bulkInit b c n) else none
    | some _ => none
  | .grow f => (s.stack f).map (s.grow on f)
  | .finish f => (s.stack f).map (s.finish f)
  | .flush c i =>
    if (c, i) ∈ s.pool then some ({ s with pool := s.pool.erase (c, i) }.arenaFree c i 1) else none
  | .release b =>
    match s.batch b with
    | some t =>
      if t.live = 0 then
        some ({ s with batch := update s.batch b none }.arenaFree t.cls t.startSlot t.nslots)
      else none
    | none => none

structure Init (s : State X B C) : Prop where
  cursor : ∀ c, s.cursor c = ⟨0, 0⟩
  stack : ∀ f, s.stack f = none
  batch : ∀ b, s.batch b = none
  pool : s.pool = []
  out : ∀ c, s.out c = []
  twice : s.twice = []
  unmapped : s.unmapped = []

def arena (cap : C → Nat) (on : Bool) : System (State X B C) (Action X B C) where
  init := Init
  step := step cap on

end Runloom.StackArena
