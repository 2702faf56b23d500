import Mathlib.Data.Fintype.Basic
import Runloom.Transition.System

/-!
# Channel waiters on stacks that move

Model of the blocking channel operations with their memory. The waiter of a parked fiber is a record on its own stack:
the channel's queue has its address, and the fiber finds it by a pointer in its frame. `runloom_coro_grow` may move
the stack at any resume: the live part is copied to a new range, aligned at the high end, and the copied words that
point into the old range are rewritten.
-/

namespace Runloom.StackGrow

open Transition

/-! ## Channels -/

/-- `runloom_chan_waiter_t`. -/
structure Record (V : Type*) where
  value : Option V
  ok : Int
  sendResult : Int
  queued : Bool

structure Chan (R V : Type*) where
  cap : Nat
  closed : Bool
  buf : List V
  senders : List R
  receivers : List R

inductive Op (V : Type*) where
  | send (v : V)
  | recv

/-- What an operation returns or raises. -/
inductive Result (V : Type*) where
  | sent
  /-- `ValueError`, "send on closed channel". -/
  | sendOnClosed
  | received (v : Option V)
  /-- The channel is closed and empty: `None`, with `ok` 0. -/
  | drained
  | wouldBlock
  | closed
  /-- `ValueError`, "close on closed channel". -/
  | closeOnClosed
deriving DecidableEq

/-- The channel after a section, the records that it writes, and the result; `none` parks. -/
structure Effect (R V : Type*) where
  chan : Chan R V
  writes : List (R × Record V)
  result : Option (Result V)

section Sections

variable {R V : Type*}

def Record.handOff (v : V) (w : Record V) : Record V :=
  { w with value := some v, ok := 1, queued := false }

def Record.take (w : Record V) : Record V :=
  { w with value := none, sendResult := 0, queued := false }

def Record.closeSender (w : Record V) : Record V :=
  { w with sendResult := -1, queued := false }

def Record.closeReceiver (w : Record V) : Record V :=
  { w with value := none, ok := 0, queued := false }

/-- `chan_send_locked`, up to the park. -/
def Chan.sendLocked (get : R → Option (Record V)) (ch : Chan R V) (v : V) (blocking : Bool) :
    Option (Effect R V) :=
  if ch.closed then some ⟨ch, [], some .sendOnClosed⟩
  else
    match ch.receivers with
    | rx :: rest =>
      (get rx).map fun w => ⟨{ ch with receivers := rest }, [(rx, w.handOff v)], some .sent⟩
    | [] =>
      if 0 < ch.cap ∧ ch.buf.length < ch.cap then
        some ⟨{ ch with buf := ch.buf ++ [v] }, [], some .sent⟩
      else some ⟨ch, [], if blocking then none else some .wouldBlock⟩

/-- `chan_recv_locked`, up to the park. -/
def Chan.recvLocked (get : R → Option (Record V)) (ch : Chan R V) (blocking : Bool) : Option (Effect R V) :=
  match ch.buf, ch.senders with
  | v :: buf, tx :: rest =>
    (get tx).bind fun w => w.value.map fun x =>
      ⟨{ ch with buf := buf ++ [x], senders := rest }, [(tx, w.take)], some (.received (some v))⟩
  | v :: buf, [] => some ⟨{ ch with buf := buf }, [], some (.received (some v))⟩
  | [], tx :: rest =>
    (get tx).map fun w => ⟨{ ch with senders := rest }, [(tx, w.take)], some (.received w.value)⟩
  | [], [] =>
    if ch.closed then some ⟨ch, [], some .drained⟩
    else some ⟨ch, [], if blocking then none else some .wouldBlock⟩

def wakeAll (get : R → Option (Record V)) (write : Record V → Record V) : List R → Option (List (R × Record V))
  | [] => some []
  | r :: rest => (get r).bind fun w => (wakeAll get write rest).map ((r, write w) :: ·)

/-- `runloom_chan_close`. -/
def Chan.closeLocked (get : R → Option (Record V)) (ch : Chan R V) : Option (Effect R V) :=
  if ch.closed then some ⟨ch, [], some .closeOnClosed⟩
  else
    (wakeAll get .closeSender ch.senders).bind fun txs =>
      (wakeAll get .closeReceiver ch.receivers).map fun rxs =>
        ⟨{ ch with closed := true, senders := [], receivers := [] }, txs ++ rxs, some .closed⟩

def Op.locked (get : R → Option (Record V)) (ch : Chan R V) (blocking : Bool) : Op V → Option (Effect R V)
  | .send v => ch.sendLocked get v blocking
  | .recv => ch.recvLocked get blocking

/-- `waiter_push`, on the side of the operation. -/
def Chan.push (ch : Chan R V) (r : R) : Op V → Chan R V
  | .send _ => { ch with senders := ch.senders ++ [r] }
  | .recv => { ch with receivers := ch.receivers ++ [r] }

def Op.record : Op V → Record V
  | .send v => ⟨some v, 0, -1, true⟩
  | .recv => ⟨none, -1, 0, true⟩

def Op.result (w : Record V) : Op V → Result V
  | .send _ => if w.sendResult = 0 then .sent else .sendOnClosed
  | .recv => if w.ok = 1 then .received w.value else .drained

end Sections

/-! ## Memory -/

inductive Cell (V : Type*) where
  | free
  | record (w : Record V)
  | ptr (a : Nat)

/-- The usable range of a stack, and the saved stack pointer. -/
structure Stack where
  lo : Nat
  hi : Nat
  sp : Nat

def Stack.Contains (st : Stack) (a : Nat) : Prop := st.lo ≤ a ∧ a < st.hi

instance (st : Stack) (a : Nat) : Decidable (st.Contains a) :=
  inferInstanceAs (Decidable (_ ∧ _))

/-- The range `[lo, hi)` has nothing of the stack. -/
def Stack.Apart (st : Stack) (lo hi : Nat) : Prop := hi ≤ st.lo ∨ st.hi ≤ lo

instance (st : Stack) (lo hi : Nat) : Decidable (st.Apart lo hi) :=
  inferInstanceAs (Decidable (_ ∨ _))

/-- The address in a range that ends at `hi` instead of `st.hi`. -/
def Stack.shift (st : Stack) (hi a : Nat) : Nat := hi - (st.hi - a)

def Cell.relocate {V : Type*} (st : Stack) (hi : Nat) : Cell V → Cell V
  | .ptr a => if st.Contains a then .ptr (st.shift hi a) else .ptr a
  | cell => cell

/-- `resumed` is about to test `w->queued`. -/
inductive Pc (C V : Type*) where
  | running
  | parked (c : C) (op : Op V)
  | resumed (c : C) (op : Op V)

structure State (C F V : Type*) where
  chan : C → Chan Nat V
  mem : Nat → Cell V
  stack : F → Stack
  pc : F → Pc C V
  log : List (F × Result V)
  fault : Bool

inductive Action (C F V : Type*) where
  /-- An operation; if it parks, its frame is at `sp` and its waiter at `w`. -/
  | op (f : F) (c : C) (op : Op V) (blocking : Bool) (sp w : Nat)
  | close (f : F) (c : C)
  /-- `runloom_coro_resume`; the stack may be moved. -/
  | resume (f : F) (grow : Option (Nat × Nat))
  /-- The fiber takes the lock again and tests `w->queued`. -/
  | check (f : F)

namespace State

variable {C F V : Type*} [DecidableEq C] [DecidableEq F]

def get (s : State C F V) (a : Nat) : Option (Record V) :=
  match s.mem a with
  | .record w => some w
  | _ => none

def waiter (s : State C F V) (f : F) : Option Nat :=
  match s.mem (s.stack f).sp with
  | .ptr a => some a
  | _ => none

def write (s : State C F V) : List (Nat × Record V) → State C F V
  | [] => s
  | (a, w) :: rest => { s with mem := update s.mem a (.record w) }.write rest

def setChan (s : State C F V) (c : C) (ch : Chan Nat V) : State C F V :=
  { s with chan := update s.chan c ch }

def setPc (s : State C F V) (f : F) (pc : Pc C V) : State C F V :=
  { s with pc := update s.pc f pc }

def report (s : State C F V) (f : F) (r : Result V) : State C F V :=
  { s with log := s.log ++ [(f, r)] }

/-- `park_waiter`: the record and the frame are put on the stack, and the record is linked. -/
def park (s : State C F V) (f : F) (c : C) (op : Op V) (sp w : Nat) : State C F V :=
  { s with
    mem := update (update s.mem w (.record op.record)) sp (.ptr w),
    stack := update s.stack f { s.stack f with sp := sp },
    chan := update s.chan c ((s.chan c).push w op) }.setPc f (.parked c op)

def perform (s : State C F V) (c : C) (e : Effect Nat V) : State C F V :=
  (s.write e.writes).setChan c e.chan

/-- The live cells are copied to the range that ends at `hi`. -/
def move (s : State C F V) (st : Stack) (hi a : Nat) : Cell V :=
  if st.shift hi st.sp ≤ a ∧ a < hi then (s.mem (st.hi - (hi - a))).relocate st hi
  else if st.Contains a then .free
  else s.mem a

/-- `runloom_coro_grow`. -/
def grow (s : State C F V) (f : F) (lo size : Nat) : State C F V :=
  let st := s.stack f
  if size ≤ st.hi - st.lo ∨ st.sp < st.lo ∨ st.hi < st.sp then s
  else
    { s with
      mem := s.move st (lo + size),
      stack := update s.stack f ⟨lo, lo + size, st.shift (lo + size) st.sp⟩ }

def check (s : State C F V) (f : F) (c : C) (op : Op V) : State C F V :=
  match s.waiter f with
  | none => { s with fault := true }
  | some a =>
    match s.get a with
    | none => { s with fault := true }
    | some w =>
      if w.queued then s.setPc f (.parked c op)
      else (s.setPc f .running).report f (op.result w)

variable [Fintype F]

def step (s : State C F V) : Action C F V → Option (State C F V)
  | .op f c op blocking sp w =>
    match s.pc f with
    | .running =>
      match op.locked s.get (s.chan c) blocking with
      | none => some { s with fault := true }
      | some e =>
        match e.result with
        | some r => some ((s.perform c e).report f r)
        | none =>
          if (s.stack f).lo ≤ sp ∧ sp < w ∧ w < (s.stack f).hi then
            some ((s.perform c e).park f c op sp w)
          else none
    | _ => none
  | .close f c =>
    match s.pc f with
    | .running =>
      match (s.chan c).closeLocked s.get with
      | none => some { s with fault := true }
      | some e => some ((s.perform c e).report f (e.result.getD .closed))
    | _ => none
  | .resume f grow =>
    match s.pc f with
    | .parked c op =>
      match grow with
      | none => some (s.setPc f (.resumed c op))
      | some (lo, size) =>
        -- The new range is not in use by any fiber.
        if ∀ g, (s.stack g).Apart lo (lo + size) then
          some ((s.grow f lo size).setPc f (.resumed c op))
        else none
    | _ => none
  | .check f =>
    match s.pc f with
    | .resumed c op => some (s.check f c op)
    | _ => none

end State

/-- The stacks at the start: apart, with room for a waiter and a frame. -/
structure Layout (F : Type*) where
  stack : F → Stack
  apart : ∀ f g, f ≠ g → (stack f).Apart (stack g).lo (stack g).hi
  room : ∀ f, (stack f).lo + 1 < (stack f).hi

def Chan.empty {R V : Type*} (cap : Nat) : Chan R V := ⟨cap, false, [], [], []⟩

structure Init {C F V : Type*} (cap : C → Nat) (layout : Layout F) (s : State C F V) : Prop where
  chan : ∀ c, s.chan c = .empty (cap c)
  stack : s.stack = layout.stack
  pc : ∀ f, s.pc f = .running
  log : s.log = []
  fault : s.fault = false

def chans {C F : Type*} (V : Type*) [DecidableEq C] [DecidableEq F] [Fintype F] (cap : C → Nat)
    (layout : Layout F) : System (State C F V) (Action C F V) where
  init := Init cap layout
  step := State.step

end Runloom.StackGrow
