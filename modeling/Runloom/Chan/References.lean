import Mathlib.Algebra.BigOperators.Group.Finset.Basic
import Runloom.Chan.Safety
import Runloom.Transition.History

/-!
# References of the values in channels

The operations on references that `send`, `recv`, `close` and `select` make, section by section: every `Py_INCREF` and
`Py_DECREF`, and every reference that goes to the caller with a result.  `Py_None` stands for the value of a closed
channel, and it may be sent as well.
-/

namespace Runloom.Chan

open Transition

variable {H C V : Type*}

/-- An operation on one reference; `none` is `NULL`. -/
inductive RefOp (V : Type*) where
  | incref (v : V)
  | decref (v : Option V)
  | give (v : Option V)

/-! ## Operations on references, section by section -/

/-- `Py_None` for a receive on a closed channel. -/
def closedRefs (pyNone : V) : List (RefOp V) :=
  [.incref pyNone, .give (some pyNone)]

def parkRefs : Op V → List (RefOp V)
  | .send v => [.incref v]
  | .recv => []

namespace State

variable [DecidableEq H] [DecidableEq C]

def sendRefs (cap : H → ℕ) (s : State H C V) (ch : H) (v : V) : List (RefOp V) :=
  if (s.chan ch).closed then []
  else
    match s.waiterPopClaimable ch .recv with
    | (some _, _) => [.incref v]
    | (none, s) => if 0 < cap ch ∧ (s.chan ch).len < cap ch then [.incref v] else []

def recvRefs (pyNone : V) (cap : H → ℕ) (s : State H C V) (ch : H) : List (RefOp V) :=
  if 0 < (s.chan ch).len then [.give ((s.bufPop cap ch).1.map Item.value)]
  else
    match s.waiterPopClaimable ch .send with
    -- The receiver steals the reference of the sender's record.
    | (some tx, s) => [.give ((s.slot tx).value.map Item.value)]
    | (none, s) => if (s.chan ch).closed then closedRefs pyNone else []

def opRefs (pyNone : V) (cap : H → ℕ) (s : State H C V) (ch : H) : Op V → List (RefOp V)
  | .send v => s.sendRefs cap ch v
  | .recv => s.recvRefs pyNone cap ch

def plainRefs (pyNone : V) (cap : H → ℕ) (inFiber : Bool) (s : State H C V) (c : C) (ch : H)
    (op : Op V) (blocking : Bool) : List (RefOp V) :=
  match s.opReady cap ch (.plain c) op with
  | (.notReady, _) =>
    if ¬blocking then []
    else if ¬inFiber then []
    else parkRefs op
  | _ => s.opRefs pyNone cap ch op

section

omit [DecidableEq H] [DecidableEq C]

def resumeRefs (pyNone : V) (s : State H C V) (c : C) (op : Op V) : List (RefOp V) :=
  let k := s.slot (.plain c)
  if k.queued then []
  else
    match op with
    -- Closed while parked: the reference of the record is dropped.
    | .send v => if k.sendResult = 0 then [] else [.decref (some v)]
    | .recv => if k.ok = 1 then [.give (k.value.map Item.value)] else closedRefs pyNone

/-- The loop over the records of a select that drops what its sends still hold; `fired` is left
out. -/
def dropRefs (cases : List (Case H V)) (s : State H C V) (c : C) (fired : Option ℕ) : List (RefOp V) :=
  (List.range cases.length).flatMap fun j =>
    if fired = some j then []
    else
      match cases[j]?.map Case.op, (s.slot (.case c j)).value with
      | some (.send _), some x => [.decref (some x.value)]
      | _, _ => []

/-- The end of a select with the fired case `k`. -/
def finishRefs (cases : List (Case H V)) (s : State H C V) (c : C) (k : ℕ) : List (RefOp V) :=
  match cases[k]?.map Case.op with
  | none => []
  | some (.send _) =>
    if (s.slot (.case c k)).sendResult = 0 then []
    else [.decref ((s.slot (.case c k)).value.map Item.value)]
  | some .recv =>
    match (s.slot (.case c k)).value with
    | some x => [.give (some x.value)]
    | none => []

end

def selectRefs (pyNone : V) (cap : H → ℕ) (inFiber : Bool) (cases : List (Case H V))
    (defaultReady : Bool) (s : State H C V) (c : C) : CallPc C V → List (RefOp V)
  | .scan [] =>
    if defaultReady then []
    else if ¬inFiber then []
    else cases.flatMap fun k => parkRefs k.op
  | .scan (i :: _) =>
    match cases[i]? with
    | none => []
    | some k => s.opRefs pyNone cap k.ch k.op
  -- The last waiter of an aborted installation has been evicted.
  | .evict i .restart =>
    match cases[i]? with
    | none => s.dropRefs cases c none
    | some _ => []
  | .reload =>
    match s.fired c with
    | none => s.dropRefs cases c none
    | some _ => []
  | .finish k => s.dropRefs cases c (some k) ++ s.finishRefs cases c k
  | _ => []

def callRefs (pyNone : V) (cap : H → ℕ) (inFiber : Bool) (call : Call H V) (s : State H C V)
    (c : C) : List (RefOp V) :=
  match call with
  | .send ch v blocking =>
    match s.call c with
    | .idle => s.plainRefs pyNone cap inFiber c ch (.send v) blocking
    | _ => []
  | .recv ch blocking =>
    match s.call c with
    | .idle => s.plainRefs pyNone cap inFiber c ch .recv blocking
    | _ => []
  | .close _ => []
  | .select cases defaultReady => s.selectRefs pyNone cap inFiber cases defaultReady c (s.call c)

omit [DecidableEq H] [DecidableEq C] in
def returnRefs (pyNone : V) (call : Call H V) (s : State H C V) (c : C) : List (RefOp V) :=
  match call, s.call c with
  | .send _ v _, .parked => s.resumeRefs pyNone c (.send v)
  | .recv _ _, .parked => s.resumeRefs pyNone c .recv
  | _, _ => []

end State

/-! ## The ledger -/

def Action.caller : Action C → C
  | .call c _ _ => c
  | .resume c => c

section Ledger

variable [DecidableEq H] [DecidableEq C]

def stepRefs (pyNone : V) (cap : H → ℕ) (inFiber : C → Bool) (calls : C → Call H V)
    (s : State H C V) : Action C → List (RefOp V)
  | .call c _ _ => s.callRefs pyNone cap (inFiber c) (calls c) c
  | .resume c => s.returnRefs pyNone (calls c) c

/-- The channels, with every operation on a reference and the call that made it. -/
def ledgered (pyNone : V) (cap : H → ℕ) (inFiber : C → Bool) (calls : C → Call H V) :
    System (State H C V × List (C × RefOp V)) (Action C) :=
  (channels cap inFiber calls).withHistory [] fun l s a _ =>
    l ++ (stepRefs pyNone cap inFiber calls s a).map (Prod.mk a.caller)

def opsOf (l : List (C × RefOp V)) (c : C) : List (RefOp V) :=
  (l.filter fun e => e.1 = c).map Prod.snd

end Ledger

section Count

variable [DecidableEq V]

/-- What an operation adds to the reference count of `v`. -/
def RefOp.credit (v : V) : RefOp V → ℤ
  | .incref u => if u = v then 1 else 0
  | .decref u => if u = some v then -1 else 0
  | .give _ => 0

/-- What an operation adds to the references to `v` that the channel code holds. -/
def RefOp.held (v : V) : RefOp V → ℤ
  | .incref u => if u = v then 1 else 0
  | .decref u => if u = some v then -1 else 0
  | .give u => if u = some v then -1 else 0

def credit (ops : List (RefOp V)) (v : V) : ℤ :=
  (ops.map (RefOp.credit v)).sum

/-- The references to `v` that the channel code holds. -/
def held (l : List (C × RefOp V)) (v : V) : ℤ :=
  (l.map fun e => e.2.held v).sum

end Count

def given (ops : List (RefOp V)) : List (Option V) :=
  ops.filterMap fun op =>
    match op with
    | .give u => some u
    | _ => none

/-! ## Where references are -/

/-- The call has waiter records: from the time it sets them up until it gives them up. -/
def CallPc.waiting : CallPc C V → Bool
  | .parked => true
  | .install _ => true
  | .abort _ => true
  | .yielded => true
  | .load => true
  | .evict _ _ => true
  | .reload => true
  | .finish _ => true
  | _ => false

/-- Entry `p.2` of the ring of channel `p.1` is the value `v`. -/
def Buffered (cap : H → ℕ) (s : State H C V) (v : V) (p : H × ℕ) : Prop :=
  p.2 < (s.chan p.1).len ∧ ((s.chan p.1).buf (((s.chan p.1).head + p.2) % cap p.1)).map Item.value = some v

/-- The record of a send whose value `v` has not been taken. -/
def Untaken (calls : C → Call H V) (s : State H C V) (v : V) (w : Waiter C) : Prop :=
  (s.call w.call).waiting = true ∧ (opOf calls w).map (fun b => b.op.side) = some .send ∧
    (s.slot w).value.map Item.value = some v

/-- The record of a receiver that holds `v` and has not returned it yet. -/
def Delivered (calls : C → Call H V) (s : State H C V) (v : V) (w : Waiter C) : Prop :=
  (s.call w.call).waiting = true ∧ (opOf calls w).map (fun b => b.op.side) = some .recv ∧
    (s.slot w).value.map Item.value = some v

/-! ## The end of a channel -/

/-- `runloom_chan_decref`; the reference left and what is dropped from the buffer. -/
def chanDecref (cap : ℕ) (k : Channel C V) (refcount : ℤ) : ℤ × List (RefOp V) :=
  if 0 < refcount - 1 then (refcount - 1, [])
  else
    (refcount - 1,
      if cap = 0 then []
      else
        (List.range k.len).flatMap fun i =>
          match k.buf ((k.head + i) % cap) with
          | some x => [.decref (some x.value)]
          -- `Py_XDECREF`
          | none => [])

/-! ## What a call has reported -/

def Got.given (pyNone : V) : Got C V → List (Option V)
  | .sent => []
  | .value x => [x.map Item.value]
  | .closed => [some pyNone]

def Outcome.given (pyNone : V) : Outcome C V → List (Option V)
  | .plain got => got.given pyNone
  | .selected _ got => got.given pyNone
  | _ => []

section Report

variable [DecidableEq V]

/-- The operation is a send of `v`. -/
def sends (calls : C → Call H V) (w : Waiter C) (v : V) : ℤ :=
  match opOf calls w with
  | some ⟨_, .send u⟩ => if u = v then 1 else 0
  | _ => 0

/-- A reported send has made a reference, and so has `Py_None` for a closed channel. -/
def Got.credit (calls : C → Call H V) (pyNone : V) (w : Waiter C) (v : V) : Got C V → ℤ
  | .sent => sends calls w v
  | .value _ => 0
  | .closed => if pyNone = v then 1 else 0

def Outcome.credit (calls : C → Call H V) (pyNone : V) (c : C) (v : V) : Outcome C V → ℤ
  | .plain got => got.credit calls pyNone (.plain c) v
  | .selected k got => got.credit calls pyNone (.case c k) v
  | _ => 0

end Report

end Runloom.Chan
