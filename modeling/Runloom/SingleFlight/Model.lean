import Runloom.Future

/-!
# Singleflight

Model of `sync.Group.do`, called by fibers, without `forget`.  A step is a section under the guard of the group or
under that of a future, the end of a function, a park or its return, or one wake after the guard is left.

Every caller that runs its function makes a new future; the futures are numbered in the order in which they are made,
and an execution is known by the number of its future.
-/

namespace Runloom.SingleFlight

open Transition Handoff Future

/-- What a caller is at; `e` is the number of an execution. -/
inductive Phase (K V E : Type*) where
  /-- The executor, in `fn`. -/
  | fn (key : K) (e : ℕ)
  /-- The executor, with `fn` behind it and before the section that deletes the entry. -/
  | remove (key : K) (e : ℕ) (o : Outcome V E)
  /-- The executor, before the section of `_resolve`. -/
  | resolve (key : K) (e : ℕ) (o : Outcome V E)
  /-- A caller that has found an entry, in `Future.result`. -/
  | join (key : K) (e : ℕ)
deriving DecidableEq

inductive Result (V E : Type*) where
  /-- `(v, False)`, or the exception of the function. -/
  | ran (e : ℕ) (o : Outcome V E)
  /-- `(v, True)`, or the exception of the future. -/
  | shared (e : ℕ) (o : Outcome V E)
  /-- `RuntimeError`, "Future already resolved". -/
  | alreadyResolved
deriving DecidableEq

structure State (F K V E : Type*) where
  calls : K → Option ℕ
  cells : ℕ → Cell F V E
  lobby : Lobby F (Phase K V E) (Result V E)
  made : ℕ
  outcomes : ℕ → Option (Outcome V E)
  found : F → Option ℕ

inductive Action (F K V E : Type*) where
  /-- `do`, up to the end of its first section. -/
  | call (f : F) (key : K)
  | fn (f : F) (o : Outcome V E)
  | remove (f : F)
  /-- The section of `_resolve`. -/
  | resolve (f : F)
  /-- The first section of `Future.result`. -/
  | enter (f : F)
  /-- The section of `Future.result` after a park. -/
  | look (f : F)
  | next (f : F)
  | elsewhere (f : F)
  | poke (f : F)

variable {F K V E : Type*} [DecidableEq F] [DecidableEq K]

/-- The arguments with which the executor calls `_resolve`: `set_result(v)` or `set_exception(e)`. -/
def resolveArgs : Outcome V E → Option V × Option E
  | .value v => (v, none)
  | .raised e => (none, some e)

namespace State

def goto (s : State F K V E) (f : F) (p : Place F (Phase K V E) (Result V E)) : State F K V E :=
  { s with lobby := s.lobby.goto f p }

section

omit [DecidableEq K]

@[simp] theorem goto_self (s : State F K V E) (f : F) (p : Place F (Phase K V E) (Result V E)) : (s.goto f p).lobby.pc f = p :=
  Lobby.goto_self

theorem goto_of_ne (s : State F K V E) (p : Place F (Phase K V E) (Result V E)) {f g : F} (h : g ≠ f) :
    (s.goto f p).lobby.pc g = s.lobby.pc g := Lobby.goto_of_ne h

end

def call (s : State F K V E) (f : F) (key : K) : State F K V E :=
  let found := update s.found f (s.calls key)
  match s.calls key with
  | some e => { s with found := found }.goto f (.busy (.join key e))
  | none =>
    { s with
      found := found
      calls := update s.calls key (some s.made)
      cells := update s.cells s.made .empty
      made := s.made + 1 }.goto f (.busy (.fn key s.made))

def fn (s : State F K V E) (f : F) (key : K) (e : ℕ) (o : Outcome V E) : State F K V E :=
  { s with outcomes := update s.outcomes e (some o) }.goto f (.busy (.remove key e o))

def remove (s : State F K V E) (f : F) (key : K) (e : ℕ) (o : Outcome V E) : State F K V E :=
  -- Only the executor's own entry goes.
  let calls := if s.calls key = some e then update s.calls key none else s.calls
  { s with calls := calls }.goto f (.busy (.resolve key e o))

def resolve (s : State F K V E) (f : F) (e : ℕ) (o : Outcome V E) : State F K V E :=
  match (s.cells e).resolve (resolveArgs o).1 (resolveArgs o).2 with
  | none => s.goto f (.returned .alreadyResolved)
  | some (cell, waiters) =>
    { s with cells := update s.cells e cell }.goto f (.finish waiters (.ran e o))

def enter (s : State F K V E) (f : F) (key : K) (e : ℕ) : State F K V E :=
  if (s.cells e).done then s.goto f (.returned (.shared e (s.cells e).outcome))
  else { s with cells := update s.cells e ((s.cells e).register f) }.goto f (.waiting (.join key e))

def look (s : State F K V E) (f : F) (key : K) (e : ℕ) : State F K V E :=
  if (s.cells e).done then s.goto f (.returned (.shared e (s.cells e).outcome))
  else s.goto f (.waiting (.join key e))

end State

def step (s : State F K V E) : Action F K V E → Option (State F K V E)
  | .call f key =>
    match s.lobby.pc f with
    | .idle => some (s.call f key)
    | _ => none
  | .fn f o =>
    match s.lobby.pc f with
    | .busy (.fn key e) => some (s.fn f key e o)
    | _ => none
  | .remove f =>
    match s.lobby.pc f with
    | .busy (.remove key e o) => some (s.remove f key e o)
    | _ => none
  | .resolve f =>
    match s.lobby.pc f with
    | .busy (.resolve _ e o) => some (s.resolve f e o)
    | _ => none
  | .enter f =>
    match s.lobby.pc f with
    | .busy (.join key e) => some (s.enter f key e)
    | _ => none
  | .look f =>
    match s.lobby.pc f with
    | .woken (.join key e) => some (s.look f key e)
    | _ => none
  | .next f => (s.lobby.next (fun _ => false) f).map fun lobby => { s with lobby := lobby }
  | .elsewhere f => (s.lobby.elsewhere f).map fun lobby => { s with lobby := lobby }
  | .poke f => some { s with lobby := s.lobby.poke f }

structure Init (s : State F K V E) : Prop where
  calls : ∀ key, s.calls key = none
  cells : ∀ e, s.cells e = .empty
  pc : ∀ f, s.lobby.pc f = .idle
  made : s.made = 0
  outcomes : ∀ e, s.outcomes e = none

def group (F K V E : Type*) [DecidableEq F] [DecidableEq K] : System (State F K V E) (Action F K V E) where
  init := Init
  step := step

end Runloom.SingleFlight
