import Mathlib.Data.Fintype.Basic
import Runloom.Transition.System

/-!
# The registry of deep idle hubs

Model of `runloom_mn_park_enter`, `runloom_mn_park_exit` and `runloom_mn_wakep_one`, with the parts of the hub loop
and of `runloom_mn_global_runq_push` that call them.  One step is one atomic access; the fences are those of
sequential consistency.

The kick is one step and has no effect here: `epoll_wait` and the condition variable may return for any reason.
-/

namespace Runloom.Wakep

open Transition

/-- `deep` is `runloom_idle_backoff_cap_ms() > 1`. The hubs from `general` on are offload hubs. -/
structure Config (n : ℕ) where
  deep : Bool
  general : ℕ

/-- The threads: the hubs, and all others that may push to the global run queue. -/
abbrev Thread (n : ℕ) (P : Type*) := Fin n ⊕ P

/-- Where stealable work is found. -/
inductive Loc (n : ℕ) where
  | runq
  | deque (i : Fin n)
deriving DecidableEq

inductive Pc (n : ℕ) where
  | run
  /-- The loop top, and `runloom_mn_park_exit`: the load, the exchange, and the decrement. -/
  | top
  | exitCas
  | exitSub
  | drain
  | checkBottom
  | checkTop (b : ℤ)
  /-- `runloom_mn_park_enter`: the load, the store, the increment, and the scan. -/
  | enter
  | store
  | add
  | scanRunq
  | scanBottom (todo : List (Fin n))
  | scanTop (b : ℤ) (j : Fin n) (todo : List (Fin n))
  | foundCas
  | foundSub
  | blocked
  /-- `runloom_mn_wakep_one`: the load of `nidle`, of the next flag, the exchange, the decrement, and the kick. -/
  | gate
  | scan (todo : List (Fin n))
  | cas (i : Fin n) (todo : List (Fin n))
  | sub (i : Fin n)
  | kick (i : Fin n)
deriving DecidableEq

/-- How a publishing call has ended. -/
inductive Outcome where
  | off
  | quiet
  /-- Turned back by `nidle`; `window`: a hub had its flag cleared uncounted. -/
  | turned (window : Bool)
  | missed
  | kicked
deriving DecidableEq

/-- The last three fields are history: the publishing calls of a thread, how each has ended, and which have put work
at a place. -/
structure State (n : ℕ) (P : Type*) where
  idleParked : Fin n → Bool
  nidle : ℤ
  runqLen : ℕ
  bottom : Fin n → ℤ
  top : Fin n → ℤ
  pc : Thread n P → Pc n
  calls : Thread n P → ℕ
  outcome : Thread n P → ℕ → Option Outcome
  pubs : Loc n → List (Thread n P × ℕ)

inductive Action (n : ℕ) (P : Type*) where
  | next (t : Thread n P)
  | loop (i : Fin n)
  | startDrain (i : Fin n)
  | park (i : Fin n)
  | push (i : Fin n)
  /-- `runloom_mn_global_runq_push`. -/
  | runqPush (t : Thread n P)
  | runqPull
  /-- The owner's pop: it takes an item, or puts `bottom` back. -/
  | pop (i : Fin n) (b : ℤ)
  /-- The exchange of `top` in a steal or in a pop. -/
  | steal (i : Fin n)
  | wake (i : Fin n)

variable {n : ℕ} {P : Type*} [DecidableEq P] (cfg : Config n)

/-- The hubs that `runloom_general_hub_count` bounds the loops to. -/
def generals : List (Fin n) := (List.finRange n).filter fun i => i.1 < cfg.general

namespace State

def Surplus (s : State n P) : Loc n → Prop
  | .runq => 0 < s.runqLen
  | .deque i => i ∈ generals cfg ∧ 1 < s.bottom i - s.top i

instance (s : State n P) (l : Loc n) : Decidable (s.Surplus cfg l) :=
  match l with
  | .runq => inferInstanceAs (Decidable (_ < _))
  | .deque _ => inferInstanceAs (Decidable (_ ∧ _))

def goto (s : State n P) (t : Thread n P) (pc : Pc n) : State n P := { s with pc := update s.pc t pc }

def setParked (s : State n P) (i : Fin n) (b : Bool) : State n P :=
  { s with idleParked := update s.idleParked i b }

def begin (s : State n P) (t : Thread n P) : State n P :=
  { s with calls := update s.calls t (s.calls t + 1) }

def finish (s : State n P) (t : Thread n P) (o : Outcome) : State n P :=
  { s with outcome := update s.outcome t (update (s.outcome t) (s.calls t) (some o)) }.goto t .run

/-- The current call of `t` has put work at `l`. -/
def publish (s : State n P) (l : Loc n) (t : Thread n P) : State n P :=
  { s with pubs := update s.pubs l (if s.Surplus cfg l then (t, s.calls t) :: s.pubs l else []) }

/-- Work was taken from `l`. -/
def settle (s : State n P) (l : Loc n) : State n P :=
  { s with pubs := update s.pubs l (if s.Surplus cfg l then s.pubs l else []) }

def Window (s : State n P) : Prop := ∃ i, s.pc (.inl i) = .add ∧ s.idleParked i = false

instance (s : State n P) : Decidable s.Window := inferInstanceAs (Decidable (∃ _, _ ∧ _))

/-- The exchange of a flag from 1 to 0; the winner goes on to decrement `nidle`. -/
def clear (s : State n P) (t : Thread n P) (i : Fin n) (won lost : Pc n) : State n P :=
  if s.idleParked i then (s.setParked i false).goto t won else s.goto t lost

def next (s : State n P) (t : Thread n P) : Option (State n P) :=
  match s.pc t, t with
  | .top, .inl i => some (s.goto t (if s.idleParked i then .exitCas else .run))
  | .exitCas, .inl i => some (s.clear t i .exitSub .run)
  | .exitSub, .inl _ => some ({ s with nidle := s.nidle - 1 }.goto t .run)
  | .drain, .inl _ => some (s.goto t .checkBottom)
  | .checkBottom, .inl i => some (s.goto t (.checkTop (s.bottom i)))
  | .checkTop b, .inl i => some (if cfg.deep ∧ 1 < b - s.top i then s.goto t .gate else s.finish t .quiet)
  | .enter, .inl i => some (s.goto t (if s.idleParked i then .blocked else .store))
  | .store, .inl i => some ((s.setParked i true).goto t .add)
  | .add, .inl _ => some ({ s with nidle := s.nidle + 1 }.goto t .scanRunq)
  | .scanRunq, .inl _ => some (s.goto t (if 0 < s.runqLen then .foundCas else .scanBottom (generals cfg)))
  -- Nothing to steal: `park_enter` returns 0, and the hub blocks.
  | .scanBottom [], .inl _ => some (s.goto t .blocked)
  | .scanBottom (j :: todo), .inl _ => some (s.goto t (.scanTop (s.bottom j) j todo))
  | .scanTop b j todo, .inl _ => some (s.goto t (if 1 < b - s.top j then .foundCas else .scanBottom todo))
  | .foundCas, .inl i => some (s.clear t i .foundSub .top)
  | .foundSub, .inl _ => some ({ s with nidle := s.nidle - 1 }.goto t .top)
  | .gate, _ =>
    some (if ¬cfg.deep then s.finish t .off
      else if s.nidle ≤ 0 then s.finish t (.turned s.Window)
      else s.goto t (.scan (generals cfg)))
  | .scan [], _ => some (s.finish t .missed)
  | .scan (i :: todo), _ => some (s.goto t (if s.idleParked i then .cas i todo else .scan todo))
  | .cas i todo, _ => some (s.clear t i (.sub i) (.scan todo))
  | .sub i, _ => some ({ s with nidle := s.nidle - 1 }.goto t (.kick i))
  | .kick _, _ => some (s.finish t .kicked)
  | _, _ => none

end State

def step (s : State n P) : Action n P → Option (State n P)
  | .next t => s.next cfg t
  | .loop i => if s.pc (.inl i) = .run then some (s.goto (.inl i) .top) else none
  | .startDrain i => if s.pc (.inl i) = .run then some ((s.begin (.inl i)).goto (.inl i) .drain) else none
  | .park i => if s.pc (.inl i) = .run ∧ cfg.deep then some (s.goto (.inl i) .enter) else none
  | .push i =>
    if s.pc (.inl i) = .drain then
      some ({ s with bottom := update s.bottom i (s.bottom i + 1) }.publish cfg (.deque i) (.inl i))
    else none
  | .runqPush t =>
    if s.pc t = .run then some ((({ s with runqLen := s.runqLen + 1 }.begin t).publish cfg .runq t).goto t .gate)
    else none
  | .runqPull => if 0 < s.runqLen then some ({ s with runqLen := s.runqLen - 1 }.settle cfg .runq) else none
  | .pop i b =>
    if s.pc (.inl i) = .run ∧ (b ≤ s.bottom i ∨ b ≤ s.top i) then
      some ({ s with bottom := update s.bottom i b }.settle cfg (.deque i))
    else none
  | .steal i =>
    if s.top i ≤ s.bottom i then
      some ({ s with top := update s.top i (s.top i + 1) }.settle cfg (.deque i))
    else none
  | .wake i => if s.pc (.inl i) = .blocked then some (s.goto (.inl i) .top) else none

/-- The hubs are in their loops and nobody is registered. -/
structure Init (s : State n P) : Prop where
  idleParked : ∀ i, s.idleParked i = false
  nidle : s.nidle = 0
  runqLen : s.runqLen = 0
  deque : ∀ i, s.bottom i = s.top i
  pc : ∀ t, s.pc t = .run
  outcome : ∀ t k, s.outcome t k = none
  pubs : ∀ l, s.pubs l = []

variable (P) in
def registry : System (State n P) (Action n P) where
  init := Init
  step := step cfg

end Runloom.Wakep
