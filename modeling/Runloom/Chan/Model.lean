import Runloom.Ring
import Runloom.Transition.System

/-!
# Channels and select

Model of `runloom_chan_send`, `try_send`, `recv`, `try_recv`, `close` and `select`.  A step is one section under a
channel's lock, or one atomic access outside the locks (the exchange and the loads of `fired_case`).  A parked fiber
may be resumed at any step, with or without a wake.

Every call has a name of its own; the record that waits for it in a queue, and the value it sends, are known by the
operation they belong to: a plain call, or one case of a select.
-/

namespace Runloom.Chan

open Transition

inductive Side where
  | send
  | recv
deriving DecidableEq

inductive Op (V : Type*) where
  | send (v : V)
  | recv

def Op.side {V : Type*} : Op V → Side
  | .send _ => .send
  | .recv => .recv

/-- `runloom_select_case_t`. -/
structure Case (H V : Type*) where
  ch : H
  op : Op V

inductive Call (H V : Type*) where
  /-- `runloom_chan_send`, or `try_send` without blocking. -/
  | send (ch : H) (v : V) (blocking : Bool)
  | recv (ch : H) (blocking : Bool)
  | close (ch : H)
  | select (cases : List (Case H V)) (defaultReady : Bool)

/-- A waiter record and the operation it stands for. -/
inductive Waiter (C : Type*) where
  | plain (c : C)
  | case (c : C) (i : ℕ)
deriving DecidableEq

def Waiter.call {C : Type*} : Waiter C → C
  | .plain c => c
  | .case c _ => c

def Waiter.index {C : Type*} : Waiter C → ℕ
  | .plain _ => 0
  | .case _ i => i

/-- A value on its way, with the operation that sent it. -/
structure Item (C V : Type*) where
  sender : Waiter C
  value : V
deriving DecidableEq

/-- `runloom_chan_t`; the two waiter queues are FIFO. -/
structure Channel (C V : Type*) where
  closed : Bool
  head : ℕ
  tail : ℕ
  len : ℕ
  buf : ℕ → Option (Item C V)
  waiters : Side → List (Waiter C)

/-- The fields of a `runloom_chan_waiter_t` that others write. -/
structure Slot (C V : Type*) where
  value : Option (Item C V)
  ok : ℤ
  sendResult : ℤ
  queued : Bool

/-- What an operation that fires gives. -/
inductive Got (C V : Type*) where
  | sent
  | value (x : Option (Item C V))
  | closed
deriving DecidableEq

inductive Outcome (C V : Type*) where
  | plain (got : Got C V)
  | selected (k : ℕ) (got : Got C V)
  /-- `ValueError`: send on a closed channel. -/
  | sendClosed
  | wouldBlock
  | closeDone
  /-- `ValueError`: close on a closed channel. -/
  | closeClosed
  | default
  /-- `RuntimeError`: the call would block and there is no goroutine to park. -/
  | noGoroutine
  /-- `ValueError`: select needs at least 1 case. -/
  | noCases
  /-- `RuntimeError`: select: too many retries. -/
  | tooManyRetries
deriving DecidableEq

/-- What follows a `select_evict_self`: the retry after an abort, the second look at `fired_case`, or the end. -/
inductive Evict where
  | restart
  | reload
  | finish (k : ℕ)
deriving DecidableEq

inductive CallPc (C V : Type*) where
  | idle
  /-- A plain call, in `park_waiter`. -/
  | parked
  /-- The label `select_retry`. -/
  | start
  /-- `select_try_each`, with the cases still to visit. -/
  | scan (order : List ℕ)
  | install (i : ℕ)
  /-- Case `i` was found ready during the installation. -/
  | abort (i : ℕ)
  | yielded
  | load
  | evict (i : ℕ) (why : Evict)
  | reload
  | finish (k : ℕ)
  | retry
  | returned (out : Outcome C V)
deriving DecidableEq

inductive Event (H C V : Type*) where
  /-- The channel takes the value of `tx`, from a `parked` sender or from the caller. -/
  | accepted (ch : H) (tx : Waiter C) (x : Option (Item C V)) (parked : Bool)
  | handed (ch : H) (rx : Waiter C) (x : Option (Item C V))
  | parks (ch : H) (c : C)
deriving DecidableEq

structure State (H C V : Type*) where
  chan : H → Channel C V
  slot : Waiter C → Slot C V
  /-- `park.fired_case`; `none` is `-1`. -/
  fired : C → Option ℕ
  retries : C → ℕ
  call : C → CallPc C V
  log : List (Event H C V)

inductive Action (C : Type*) where
  /-- The call's own next step, with the random numbers of `select_try_each`. -/
  | call (c : C) (r₁ r₂ : ℕ)
  | resume (c : C)

variable {H C V : Type*}

/-! ## Visit order of `select_try_each` -/

/-- The search for a stride coprime with `n`, from `stride` upwards with wrap. -/
def coprimeStride (n : ℕ) : ℕ → ℕ → ℕ
  | 0, stride => stride
  | fuel + 1, stride =>
    if Nat.gcd stride n = 1 then stride else coprimeStride n fuel (stride % (n - 1) + 1)

def tryOrder (n r₁ r₂ : ℕ) : List ℕ :=
  let start := if 1 < n then r₁ % n else 0
  let stride := if 2 < n then coprimeStride n n (1 + r₂ % (n - 1)) else 1
  (List.range n).map fun k => (start + k * stride) % n

/-! ## Waiter queues -/

variable [DecidableEq H] [DecidableEq C]

/-- What `waiter_claim` finds: a plain waiter, or a select nobody has fired. -/
def claimable (fired : C → Option ℕ) : Waiter C → Bool
  | .plain _ => true
  | .case c _ => fired c == none

/-- The exchange in `waiter_claim` of a claimable waiter. -/
def claim (fired : C → Option ℕ) : Waiter C → C → Option ℕ
  | .plain _ => fired
  | .case c i => update fired c (some i)

/-- The loop of `waiter_pop_claimable`. -/
def popQueue (fired : C → Option ℕ) : List (Waiter C) → Option (Waiter C) × List (Waiter C)
  | [] => (none, [])
  | w :: ws => if claimable fired w then (some w, ws) else popQueue fired ws

/-- `waiter_has_foreign`: a waiter that does not belong to the select `c`. -/
def hasForeign (c : C) (ws : List (Waiter C)) : Bool :=
  ws.any fun w =>
    match w with
    | .plain _ => true
    | .case d _ => d != c

namespace State

def goto (s : State H C V) (c : C) (pc : CallPc C V) : State H C V :=
  { s with call := update s.call c pc }

def setChan (s : State H C V) (ch : H) (k : Channel C V) : State H C V :=
  { s with chan := update s.chan ch k }

def setSlot (s : State H C V) (w : Waiter C) (k : Slot C V) : State H C V :=
  { s with slot := update s.slot w k }

def record (s : State H C V) (es : List (Event H C V)) : State H C V :=
  { s with log := s.log ++ es }

def setQueue (s : State H C V) (ch : H) (side : Side) (ws : List (Waiter C)) : State H C V :=
  s.setChan ch { s.chan ch with waiters := update (s.chan ch).waiters side ws }

def waiterPopClaimable (s : State H C V) (ch : H) (side : Side) : Option (Waiter C) × State H C V :=
  match popQueue s.fired ((s.chan ch).waiters side) with
  | (none, rest) => (none, s.setQueue ch side rest)
  | (some w, rest) =>
    (some w, { s.setQueue ch side rest with fired := claim s.fired w }.setSlot w
      { s.slot w with queued := false })

def bufPush (cap : H → ℕ) (s : State H C V) (ch : H) (x : Option (Item C V)) : State H C V :=
  let k := s.chan ch
  s.setChan ch { k with buf := update k.buf k.tail x, tail := (k.tail + 1) % cap ch,
                        len := k.len + 1 }

def bufPop (cap : H → ℕ) (s : State H C V) (ch : H) : Option (Item C V) × State H C V :=
  let k := s.chan ch
  (k.buf k.head, s.setChan ch { k with buf := update k.buf k.head none,
                                       head := (k.head + 1) % cap ch, len := k.len - 1 })

def deliver (s : State H C V) (rx : Waiter C) (x : Option (Item C V)) : State H C V :=
  s.setSlot rx { s.slot rx with value := x, ok := 1 }

def release (s : State H C V) (tx : Waiter C) : State H C V :=
  s.setSlot tx { s.slot tx with value := none, sendResult := 0 }

end State

/-- The result of trying an operation under the lock. -/
inductive Try (C V : Type*) where
  | got (got : Got C V)
  | sendClosed
  | notReady

namespace State

/-- A send that does not park: `chan_send_locked` and the send branch of `select_try_each`. -/
def sendReady (cap : H → ℕ) (s : State H C V) (ch : H) (me : Waiter C) (v : V) : Try C V × State H C V :=
  if (s.chan ch).closed then (.sendClosed, s)
  else
    let x : Option (Item C V) := some ⟨me, v⟩
    -- A receiver that waits shows that nothing is buffered, so the value goes to it directly.
    match s.waiterPopClaimable ch .recv with
    | (some rx, s) =>
      (.got .sent, (s.deliver rx x).record [.accepted ch me x false, .handed ch rx x])
    | (none, s) =>
      if 0 < cap ch ∧ (s.chan ch).len < cap ch then
        (.got .sent, (s.bufPush cap ch x).record [.accepted ch me x false])
      else (.notReady, s)

/-- A receive that does not park. Buffered values come before the closed state. -/
def recvReady (cap : H → ℕ) (s : State H C V) (ch : H) (me : Waiter C) : Try C V × State H C V :=
  if 0 < (s.chan ch).len then
    let (x, s) := s.bufPop cap ch
    match s.waiterPopClaimable ch .send with
    | (some tx, s) =>
      let y := (s.slot tx).value
      (.got (.value x), ((s.bufPush cap ch y).release tx).record [.handed ch me x, .accepted ch tx y true])
    | (none, s) => (.got (.value x), s.record [.handed ch me x])
  else
    match s.waiterPopClaimable ch .send with
    | (some tx, s) =>
      let x := (s.slot tx).value
      (.got (.value x), (s.release tx).record [.accepted ch tx x true, .handed ch me x])
    | (none, s) => (if (s.chan ch).closed then .got .closed else .notReady, s)

def opReady (cap : H → ℕ) (s : State H C V) (ch : H) (me : Waiter C) : Op V → Try C V × State H C V
  | .send v => s.sendReady cap ch me v
  | .recv => s.recvReady cap ch me

def freshSlot (me : Waiter C) : Op V → Slot C V
  | .send v => { value := some ⟨me, v⟩, ok := 0, sendResult := -1, queued := true }
  | .recv => { value := none, ok := -1, sendResult := 0, queued := true }

/-- `chan_send_locked` and `chan_recv_locked`. -/
def plainOp (cap : H → ℕ) (inFiber : Bool) (s : State H C V) (c : C) (ch : H) (op : Op V)
    (blocking : Bool) : State H C V :=
  match s.opReady cap ch (.plain c) op with
  | (.got got, s) => s.goto c (.returned (.plain got))
  | (.sendClosed, s) => s.goto c (.returned .sendClosed)
  | (.notReady, s) =>
    if ¬blocking then s.goto c (.returned .wouldBlock)
    else if ¬inFiber then s.goto c (.returned .noGoroutine)
    else
      (((s.setSlot (.plain c) (freshSlot (.plain c) op)).setQueue ch op.side
        ((s.chan ch).waiters op.side ++ [Waiter.plain c])).record
          (if op.side = .send then [.parks ch c] else [])).goto c .parked

/-- The end of `park_waiter`: back to the park while the waiter is still queued. -/
def resumePlain (s : State H C V) (c : C) (side : Side) : State H C V :=
  let k := s.slot (.plain c)
  if k.queued then s
  else
    match side with
    | .send => s.goto c (.returned (if k.sendResult = 0 then .plain .sent else .sendClosed))
    | .recv => s.goto c (.returned (.plain (if k.ok = 1 then .value k.value else .closed)))

/-- What `close` writes into the waiter it has claimed. -/
def closeSlot (k : Slot C V) : Side → Slot C V
  | .send => { k with sendResult := -1, queued := false }
  | .recv => { k with value := none, ok := 0, queued := false }

/-- One of the two loops of `close`, over the waiters of one queue. -/
def closeWaiters (side : Side) : List (Waiter C) → State H C V → State H C V
  | [], s => s
  | w :: ws, s =>
    if claimable s.fired w then
      closeWaiters side ws ({ s with fired := claim s.fired w }.setSlot w (closeSlot (s.slot w) side))
    else closeWaiters side ws s

def closeSide (s : State H C V) (ch : H) (side : Side) : State H C V :=
  closeWaiters side ((s.chan ch).waiters side) (s.setQueue ch side [])

def closeOp (s : State H C V) (c : C) (ch : H) : State H C V :=
  if (s.chan ch).closed then s.goto c (.returned .closeClosed)
  else
    (((s.setChan ch { s.chan ch with closed := true }).closeSide ch .send).closeSide ch .recv).goto
      c (.returned .closeDone)

/-- A new park: `fired_case` is `-1`, and every case has a fresh waiter. -/
def newPark (cases : List (Case H V)) (s : State H C V) (c : C) : State H C V :=
  { s with
    fired := update s.fired c none,
    slot := fun w =>
      match w with
      | .plain _ => s.slot w
      | .case d i =>
        if d = c then
          match cases[i]? with
          | some k => freshSlot w k.op
          | none => s.slot w
        else s.slot w }.goto c (.install 0)

def caseReady (cap : H → ℕ) (s : State H C V) (c : C) (k : Case H V) : Bool :=
  let b := s.chan k.ch
  match k.op with
  | .send _ => b.closed || (decide (0 < cap k.ch) && decide (b.len < cap k.ch)) || hasForeign c (b.waiters .recv)
  | .recv => b.closed || decide (0 < b.len) || hasForeign c (b.waiters .send)

def selectStep (cap : H → ℕ) (inFiber : Bool) (cases : List (Case H V)) (defaultReady : Bool)
    (s : State H C V) (c : C) (r₁ r₂ : ℕ) : CallPc C V → Option (State H C V)
  | .idle => some (s.goto c (if cases = [] then .returned .noCases else .start))
  | .start => some (s.goto c (.scan (tryOrder cases.length r₁ r₂)))
  | .scan [] =>
    some (if defaultReady then s.goto c (.returned .default)
      else if ¬inFiber then s.goto c (.returned .noGoroutine)
      else s.newPark cases c)
  | .scan (i :: order) =>
    match cases[i]? with
    | none => some (s.goto c (.scan order))
    | some k =>
      match s.opReady cap k.ch (.case c i) k.op with
      | (.got got, s) => some (s.goto c (.returned (.selected i got)))
      | (.sendClosed, s) => some (s.goto c (.returned .sendClosed))
      | (.notReady, s) => some (s.goto c (.scan order))
  | .install i =>
    match cases[i]? with
    -- All cases are installed, and the locks are free.
    | none => some (s.goto c .yielded)
    | some k =>
      if s.caseReady cap c k then some (s.goto c (.abort i))
      else
        some ((s.setQueue k.ch k.op.side
          ((s.chan k.ch).waiters k.op.side ++ [Waiter.case c i])).goto c (.install (i + 1)))
  | .abort i =>
    -- Where the exchange fails, a delivery has come first; the select goes on to its park.
    if s.fired c = none then
      some ({ s with fired := update s.fired c (some i) }.goto c (.evict 0 .restart))
    else some (s.goto c .yielded)
  | .load =>
    match s.fired c with
    | none => some (s.goto c (.evict 0 .reload))
    | some k => some (s.goto c (.evict 0 (.finish k)))
  | .evict i why =>
    match cases[i]? with
    | none =>
      some (s.goto c <|
        match why with
        | .restart => .retry
        | .reload => .reload
        | .finish k => .finish k)
    | some k =>
      -- The waiter of the winning case was unlinked by its claimer.
      if why = .finish i then some (s.goto c (.evict (i + 1) why))
      else
        some ((s.setQueue k.ch k.op.side
          (((s.chan k.ch).waiters k.op.side).erase (.case c i))).goto c (.evict (i + 1) why))
  | .reload =>
    match s.fired c with
    | none => some (s.goto c .retry)
    | some k => some (s.goto c (.evict 0 (.finish k)))
  | .finish k =>
    match cases[k]? with
    | none => none
    | some b =>
      match b.op with
      | .send _ =>
        some (s.goto c (.returned
          (if (s.slot (.case c k)).sendResult = 0 then .selected k .sent else .sendClosed)))
      | .recv =>
        match (s.slot (.case c k)).value with
        | some x => some (s.goto c (.returned (.selected k (.value (some x)))))
        -- A close has woken the receive; what is still buffered goes first, so the scan starts again.
        | none => some (s.goto c .retry)
  | .retry =>
    some ({ s with retries := update s.retries c (s.retries c + 1) }.goto c
      (if 10000000 < s.retries c + 1 then .returned .tooManyRetries else .start))
  | .parked => none
  | .yielded => none
  | .returned _ => none

def callStep (cap : H → ℕ) (inFiber : Bool) (call : Call H V) (s : State H C V) (c : C)
    (r₁ r₂ : ℕ) : Option (State H C V) :=
  match call with
  | .send ch v blocking =>
    match s.call c with
    | .idle => some (s.plainOp cap inFiber c ch (.send v) blocking)
    | _ => none
  | .recv ch blocking =>
    match s.call c with
    | .idle => some (s.plainOp cap inFiber c ch .recv blocking)
    | _ => none
  | .close ch =>
    match s.call c with
    | .idle => some (s.closeOp c ch)
    | _ => none
  | .select cases defaultReady => s.selectStep cap inFiber cases defaultReady c r₁ r₂ (s.call c)

def resume (call : Call H V) (s : State H C V) (c : C) : Option (State H C V) :=
  match call, s.call c with
  | .send _ _ _, .parked => some (s.resumePlain c .send)
  | .recv _ _, .parked => some (s.resumePlain c .recv)
  | .select _ _, .yielded => some (s.goto c .load)
  | _, _ => none

end State

open State

def step (cap : H → ℕ) (inFiber : C → Bool) (calls : C → Call H V) (s : State H C V) :
    Action C → Option (State H C V)
  | .call c r₁ r₂ => s.callStep cap (inFiber c) (calls c) c r₁ r₂
  | .resume c => s.resume (calls c) c

/-- New channels, and no call has begun. -/
structure Init (s : State H C V) : Prop where
  closed : ∀ ch, (s.chan ch).closed = false
  head : ∀ ch, (s.chan ch).head = 0
  tail : ∀ ch, (s.chan ch).tail = 0
  len : ∀ ch, (s.chan ch).len = 0
  waiters : ∀ ch side, (s.chan ch).waiters side = []
  call : ∀ c, s.call c = .idle
  retries : ∀ c, s.retries c = 0
  log : s.log = []

def channels (cap : H → ℕ) (inFiber : C → Bool) (calls : C → Call H V) : System (State H C V) (Action C) where
  init := Init
  step := step cap inFiber calls

end Runloom.Chan
