import Runloom.Chan.Invariant

/-!
# Claim and fill

The channel operations with the locks made explicit.  A section that pops a waiter claims it, for a select by the
exchange of `fired_case`, and fills its slot in a later step, with the channel locked in between.

The steps in which nobody is claimed are those of `Runloom.Chan`.
-/

namespace Runloom.Select

open Transition Chan

variable {H C V : Type*}

/-- A section between the claim of a waiter and the fill. -/
inductive Hold (C V : Type*) where
  | handOff (rx : Waiter C) (x : Item C V)
  /-- The receiver has taken `x` from the ring, and a sender's value is to take its place. -/
  | refill (tx : Waiter C) (x : Option (Item C V))
  | take (tx : Waiter C)
  /-- In a loop of `close`, with the waiter that it has popped. -/
  | closing (side : Side) (w : Option (Waiter C))

def Hold.claimed : Hold C V → Option (Waiter C)
  | .handOff rx _ => some rx
  | .refill tx _ => some tx
  | .take tx => some tx
  | .closing _ w => w

structure State (H C V : Type*) where
  base : Chan.State H C V
  hold : H → Option (C × Hold C V)

/-- The first step of a section: it is through, or it has claimed a waiter. -/
inductive Begun (C V : Type*) where
  | ready (t : Try C V)
  | claimed (h : Hold C V)

section Sections

variable [DecidableEq H] [DecidableEq C]

def sendBegin (cap : H → ℕ) (s : Chan.State H C V) (ch : H) (me : Waiter C) (v : V) :
    Begun C V × Chan.State H C V :=
  if (s.chan ch).closed then (.ready .sendClosed, s)
  else
    match s.waiterPopClaimable ch .recv with
    | (some rx, s) => (.claimed (.handOff rx ⟨me, v⟩), s)
    | (none, s) =>
      if 0 < cap ch ∧ (s.chan ch).len < cap ch then
        (.ready (.got .sent), (s.bufPush cap ch (some ⟨me, v⟩)).record [.accepted ch me (some ⟨me, v⟩) false])
      else (.ready .notReady, s)

def recvBegin (cap : H → ℕ) (s : Chan.State H C V) (ch : H) (me : Waiter C) : Begun C V × Chan.State H C V :=
  if 0 < (s.chan ch).len then
    let (x, s) := s.bufPop cap ch
    match s.waiterPopClaimable ch .send with
    | (some tx, s) => (.claimed (.refill tx x), s)
    | (none, s) => (.ready (.got (.value x)), s.record [.handed ch me x])
  else
    match s.waiterPopClaimable ch .send with
    | (some tx, s) => (.claimed (.take tx), s)
    | (none, s) => (.ready (if (s.chan ch).closed then .got .closed else .notReady), s)

def opBegin (cap : H → ℕ) (s : Chan.State H C V) (ch : H) (me : Waiter C) : Op V → Begun C V × Chan.State H C V
  | .send v => sendBegin cap s ch me v
  | .recv => recvBegin cap s ch me

/-- The rest of a section: the slot is filled, and the section returns. -/
def opFill (cap : H → ℕ) (s : Chan.State H C V) (ch : H) (me : Waiter C) :
    Hold C V → Option (Got C V × Chan.State H C V)
  | .handOff rx x =>
    some (.sent, (s.deliver rx (some x)).record [.accepted ch me (some x) false, .handed ch rx (some x)])
  | .refill tx x =>
    let y := (s.slot tx).value
    some (.value x, ((s.bufPush cap ch y).release tx).record [.handed ch me x, .accepted ch tx y true])
  | .take tx =>
    let x := (s.slot tx).value
    some (.value x, (s.release tx).record [.accepted ch tx x true, .handed ch me x])
  | .closing _ _ => none

theorem opReady_eq (cap : H → ℕ) (s : Chan.State H C V) (ch : H) (me : Waiter C) (op : Op V) :
    s.opReady cap ch me op =
      match opBegin cap s ch me op with
      | (.ready t, s) => (t, s)
      | (.claimed h, s) =>
        match opFill cap s ch me h with
        | some (got, s) => (.got got, s)
        | none => (.notReady, s) := by
  cases op with
  | send v =>
    simp only [State.opReady, State.sendReady, opBegin, sendBegin]
    split
    · rfl
    · cases s.waiterPopClaimable ch .recv with
      | mk w t =>
        cases w with
        | some rx => rfl
        | none =>
          simp only
          split <;> rfl
  | recv =>
    simp only [State.opReady, State.recvReady, opBegin, recvBegin]
    split
    · cases (s.bufPop cap ch).2.waiterPopClaimable ch .send with
      | mk w t => cases w <;> rfl
    · cases s.waiterPopClaimable ch .send with
      | mk w t => cases w <;> rfl

/-! ## Steps -/

namespace State

def setHold (s : State H C V) (ch : H) (h : Option (C × Hold C V)) : State H C V :=
  { s with hold := Function.update s.hold ch h }

/-- The end of `chan_send_locked` or `chan_recv_locked` in which nobody was claimed. -/
def plainEnd (inFiber : Bool) (s : Chan.State H C V) (c : C) (ch : H) (op : Op V)
    (blocking : Bool) : Try C V → Chan.State H C V
  | .got got => s.goto c (.returned (.plain got))
  | .sendClosed => s.goto c (.returned .sendClosed)
  | .notReady =>
    if ¬blocking then s.goto c (.returned .wouldBlock)
    else if ¬inFiber then s.goto c (.returned .noGoroutine)
    else
      (((s.setSlot (.plain c) (Chan.State.freshSlot (.plain c) op)).setQueue ch op.side
        ((s.chan ch).waiters op.side ++ [Waiter.plain c])).record
          (if op.side = .send then [.parks ch c] else [])).goto c .parked

/-- `chan_send_locked` and `chan_recv_locked`. -/
def plainStep (cap : H → ℕ) (inFiber : Bool) (s : State H C V) (c : C) (ch : H) (op : Op V)
    (blocking : Bool) : Option (State H C V) :=
  match s.hold ch with
  | some (d, h) =>
    if d = c then
      (opFill cap s.base ch (.plain c) h).map fun (got, b) =>
        { s with base := b.goto c (.returned (.plain got)) }.setHold ch none
    else none
  | none =>
    match s.base.call c with
    | .idle =>
      match opBegin cap s.base ch (.plain c) op with
      | (.claimed h, b) => some ({ s with base := b }.setHold ch (some (c, h)))
      | (.ready t, b) => some { s with base := plainEnd inFiber b c ch op blocking t }
    | _ => none

/-- `runloom_chan_close`, one waiter after the other. -/
def closeStep (s : State H C V) (c : C) (ch : H) : Option (State H C V) :=
  match s.hold ch with
  | none =>
    match s.base.call c with
    | .idle =>
      if (s.base.chan ch).closed then
        some { s with base := s.base.goto c (.returned .closeClosed) }
      else
        some ({ s with base := s.base.setChan ch { s.base.chan ch with closed := true } }.setHold ch
          (some (c, .closing .send none)))
    | _ => none
  | some (d, .closing side (some w)) =>
    if d = c then
      some ({ s with
        base := s.base.setSlot w (Chan.State.closeSlot (s.base.slot w) side) }.setHold ch
          (some (c, .closing side none)))
    else none
  | some (d, .closing side none) =>
    if d = c then
      match s.base.waiterPopClaimable ch side with
      | (some w, b) => some ({ s with base := b }.setHold ch (some (c, .closing side (some w))))
      | (none, b) =>
        match side with
        | .send => some ({ s with base := b }.setHold ch (some (c, .closing .recv none)))
        | .recv => some ({ s with base := b.goto c (.returned .closeDone) }.setHold ch none)
    else none
  | some (_, _) => none

/-- In `select_try_each` the section is in two steps, and the other sections wait for the lock. -/
def selectStep (cap : H → ℕ) (inFiber : Bool) (cases : List (Case H V)) (defaultReady : Bool)
    (s : State H C V) (c : C) (r₁ r₂ : ℕ) : Option (State H C V) :=
  let quiet := (s.base.selectStep cap inFiber cases defaultReady c r₁ r₂ (s.base.call c)).map
    fun b => { s with base := b }
  match s.base.call c with
  | .scan (i :: order) =>
    match cases[i]? with
    | none => quiet
    | some k =>
      match s.hold k.ch with
      | some (d, h) =>
        if d = c then
          (opFill cap s.base k.ch (.case c i) h).map fun (got, b) =>
            { s with base := b.goto c (.returned (.selected i got)) }.setHold k.ch none
        else none
      | none =>
        match opBegin cap s.base k.ch (.case c i) k.op with
        | (.claimed h, b) => some ({ s with base := b }.setHold k.ch (some (c, h)))
        | (.ready (.got got), b) =>
          some { s with base := b.goto c (.returned (.selected i got)) }
        | (.ready .sendClosed, b) => some { s with base := b.goto c (.returned .sendClosed) }
        | (.ready .notReady, b) => some { s with base := b.goto c (.scan order) }
  | .install i =>
    match cases[i]? with
    | none => quiet
    | some k => if s.hold k.ch = none then quiet else none
  | .evict i why =>
    match cases[i]? with
    | none => quiet
    | some k => if why = .finish i ∨ s.hold k.ch = none then quiet else none
  | _ => quiet

def resume (call : Call H V) (s : State H C V) (c : C) : Option (State H C V) :=
  match call with
  | .send ch _ _ | .recv ch _ =>
    if s.hold ch = none then (s.base.resume call c).map fun b => { s with base := b } else none
  | .close _ => none
  | .select _ _ => (s.base.resume call c).map fun b => { s with base := b }

end State

def step (cap : H → ℕ) (inFiber : C → Bool) (calls : C → Call H V) (s : State H C V) :
    Action C → Option (State H C V)
  | .call c r₁ r₂ =>
    match calls c with
    | .send ch v blocking => s.plainStep cap (inFiber c) c ch (.send v) blocking
    | .recv ch blocking => s.plainStep cap (inFiber c) c ch .recv blocking
    | .close ch => s.closeStep c ch
    | .select cases defaultReady => s.selectStep cap (inFiber c) cases defaultReady c r₁ r₂
  | .resume c => s.resume (calls c) c

end Sections

structure Init (s : State H C V) : Prop where
  base : Chan.Init s.base
  hold : ∀ ch, s.hold ch = none

def selects [DecidableEq H] [DecidableEq C] (cap : H → ℕ) (inFiber : C → Bool)
    (calls : C → Call H V) : System (State H C V) (Action C) where
  init := Init
  step := step cap inFiber calls

end Runloom.Select
