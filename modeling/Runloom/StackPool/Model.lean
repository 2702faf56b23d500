import Mathlib.Data.Int.Notation
import Mathlib.Data.List.Perm.Basic
import Runloom.Transition.System

/-!
# The pools of free stacks

Model of `runloom_stack_acquire`, `runloom_stack_release`, `runloom_stack_flush_to_global`, the two warm-ups and the
growth of a fiber, called by any threads. A call with one section under the lock of the depot is one step; the
prewarming has two sections in each round.

`out`, `slices`, `maps`, `unmapped` and `pushes` are ghost: what coroutines have, the calls of `mmap` and `munmap`,
and for each push into the depot its length then and the cap that was read.
-/

namespace Runloom.StackPool

open Transition

def tlsCap : ℤ := 64

def tlsKeep : ℕ := 32

def refillBatch : ℕ := 32

/-- A mapping, with the size that stands in its header or in its coroutine. -/
structure Stack where
  id : ℕ
  size : ℕ
deriving DecidableEq

/-- A list of free stacks and its counter. -/
structure Pool where
  list : List Stack
  n : ℤ

def Pool.push (p : Pool) (x : Stack) : Pool :=
  ⟨x :: p.list, p.n + 1⟩

/-- A call of `runloom_stack_prewarm_global`. -/
structure Warm where
  size : ℕ
  left : ℕ
  cap : ℤ
  mapping : Bool

structure State (T : Type*) where
  cache : T → Pool
  depot : Pool
  live : ℤ
  warm : T → Option Warm
  out : List Stack
  slices : ℕ
  maps : List Stack
  unmapped : List Stack
  pushes : List (ℕ × ℤ)

variable {T : Type*}

def State.unmap (s : State T) (l : List Stack) : State T :=
  { s with unmapped := l ++ s.unmapped }

def State.fresh (s : State T) (size : ℕ) : Stack :=
  ⟨s.maps.length, size⟩

/-- A successful `runloom_stack_map_guarded`. -/
def State.map (s : State T) (size : ℕ) : State T :=
  { s with maps := s.fresh size :: s.maps }

def State.handOut (s : State T) (x : Stack) : State T :=
  { s with out := x :: s.out }

/-- The loop of `runloom_stack_pop_local`: the stack, the rest, and the drops. -/
def popList (size : ℕ) : List Stack → ℤ → Option Stack × Pool × List Stack
  | [], n => (none, ⟨[], n⟩, [])
  | x :: l, n =>
    if x.size = size then (some x, ⟨l, n - 1⟩, [])
    else
      let (r, p, dropped) := popList size l (n - 1)
      (r, p, x :: dropped)

/-- The loop of `runloom_stack_refill_from_global`, with the drops. -/
def refillList (size : ℕ) : ℕ → List Stack → ℤ → Pool → Pool × Pool × List Stack
  | 0, l, n, cache => (⟨l, n⟩, cache, [])
  | _ + 1, [], n, cache => (⟨[], n⟩, cache, [])
  | k + 1, x :: l, n, cache =>
    if x.size = size then refillList size k l (n - 1) (cache.push x)
    else
      let (depot, cache, dropped) := refillList size (k + 1) l (n - 1) cache
      (depot, cache, x :: dropped)

section

variable [DecidableEq T]

def State.popLocal (s : State T) (t : T) (size : ℕ) : Option Stack × State T :=
  let (r, p, dropped) := popList size (s.cache t).list (s.cache t).n
  (r, { s with cache := update s.cache t p }.unmap dropped)

def State.refill (s : State T) (t : T) (size : ℕ) : State T :=
  let (depot, p, dropped) := refillList size refillBatch s.depot.list s.depot.n (s.cache t)
  { s with depot := depot, cache := update s.cache t p }.unmap dropped

/-- The part of `runloom_stack_acquire` after the arena. -/
def State.acquire (s : State T) (t : T) (size : ℕ) (mapped : Bool) : State T :=
  match { s with live := s.live + 1 }.popLocal t size with
  | (some x, s) => s.handOut x
  | (none, s) =>
    match (s.refill t size).popLocal t size with
    | (some x, s) => s.handOut x
    | (none, s) => if mapped then (s.map size).handOut (s.fresh size) else s

/-- The loop of `runloom_stack_flush_to_global` under the lock. -/
def State.flushList (cap : ℤ) : List Stack → State T → State T
  | [], s => s
  | x :: l, s =>
    if s.depot.n < cap then
      flushList cap l { s with depot := s.depot.push x, pushes := (s.depot.list.length, cap) :: s.pushes }
    else flushList cap l (s.unmap [x])

def State.flush (s : State T) (t : T) (keep : ℕ) (cap : ℤ) : State T :=
  if (s.cache t).n ≤ keep then s
  else
    flushList cap ((s.cache t).list.drop keep)
      { s with cache := update s.cache t ⟨(s.cache t).list.take keep, keep⟩ }

/-- `runloom_stack_release` of a stack that is not of the arena. -/
def State.release (s : State T) (t : T) (x : Stack) (sample : Bool) (cap : ℤ) : State T :=
  let s := { s with live := s.live - 1 }
  if sample then s.unmap [x]
  else
    let s := { s with cache := update s.cache t ((s.cache t).push x) }
    if tlsCap < (s.cache t).n then s.flush t tlsKeep cap else s

/-- One lock section of `runloom_stack_prewarm_global`. -/
def State.prewarm (s : State T) (t : T) (w : Warm) (mapped : Bool) : State T :=
  let done := { s with warm := update s.warm t none }
  if w.mapping = false then
    if w.left = 0 ∨ w.cap ≤ s.depot.n then done
    else { s with warm := update s.warm t (some { w with mapping := true }) }
  else if mapped = false then done
  else if s.depot.n < w.cap then
    let s' := s.map w.size
    { s' with
      depot := s.depot.push (s.fresh w.size)
      pushes := (s.depot.list.length, w.cap) :: s.pushes
      warm := update s.warm t (some { w with left := w.left - 1, mapping := false }) }
  else (done.map w.size).unmap [s.fresh w.size]

/-- `carve` and `mapped` are what the arena and `mmap` answer. A warm-up is one round of
`runloom_stack_warmup_posix`, a thread's exit `flush 0`. -/
inductive Call where
  | acquire (size : ℕ) (carve mapped : Bool)
  | release (x : Stack) (sample : Bool) (cap : ℤ)
  | releaseSlice
  | flush (keep : ℕ) (cap : ℤ)
  | warmup (size : ℕ) (mapped sample : Bool) (cap : ℤ)
  | grow (x : Stack) (size : ℕ) (mapped : Bool)
  | growSlice (size : ℕ) (mapped : Bool)
  | prewarm (size n : ℕ) (cap : ℤ)

inductive Action (T : Type*) where
  | call (t : T) (c : Call)
  | prewarm (t : T) (mapped : Bool)

def State.call (arena : Bool) (s : State T) (t : T) : Call → Option (State T)
  | .acquire size carve mapped =>
    if arena ∧ carve then some { s with slices := s.slices + 1 } else some (s.acquire t size mapped)
  | .release x sample cap =>
    if x ∈ s.out then some ({ s with out := s.out.erase x }.release t x sample cap) else none
  | .releaseSlice => if 0 < s.slices then some { s with slices := s.slices - 1 } else none
  | .flush keep cap => some (s.flush t keep cap)
  | .warmup size mapped sample cap =>
    if mapped then some ((s.map size).release t (s.fresh size) sample cap) else some s
  | .grow x size mapped =>
    if x ∈ s.out then
      if x.size < size ∧ mapped then
        some ({ s with out := s.out.erase x }.map size |>.handOut (s.fresh size) |>.unmap [x])
      else some s
    else none
  | .growSlice size mapped =>
    if 0 < s.slices then
      -- the new stack is mapped and the slice is freed, neither of which touches the counter
      if mapped then some ({ s with slices := s.slices - 1 }.map size |>.handOut (s.fresh size)) else some s
    else none
  | .prewarm size n cap => some { s with warm := update s.warm t (some ⟨size, n, cap, false⟩) }

def step (arena : Bool) (s : State T) : Action T → Option (State T)
  | .call t c => if s.warm t = none then s.call arena t c else none
  | .prewarm t mapped => (s.warm t).map fun w => s.prewarm t w mapped

structure Init (s : State T) : Prop where
  cache : ∀ t, s.cache t = ⟨[], 0⟩
  depot : s.depot = ⟨[], 0⟩
  live : s.live = 0
  warm : ∀ t, s.warm t = none
  out : s.out = []
  slices : s.slices = 0
  maps : s.maps = []
  unmapped : s.unmapped = []
  pushes : s.pushes = []

def stackPool (T : Type*) [DecidableEq T] (arena : Bool) : System (State T) (Action T) where
  init := Init
  step := step arena

end

end Runloom.StackPool
