import Mathlib.Data.Int.Notation
import Runloom.Linked.Chain
import Runloom.Transition.System

/-!
# Single-shot and multishot io_uring operations

Model of the functions that put a record on their own C stack and give its address away: `runloom_iouring_do` (global
ring), `ring_do` (a hub's ring) and `loop_io` (the loop backend) an op record, whose address is the `user_data` of the
SQE and stands in `g->iouring_op` while the fiber is parked, where `runloom_iouring_cancel_g` reads it;
`runloom_iouring_ms_recv` a waiter node, which it links into the handle.

Every call has a record of its own. The kernel completes an operation whenever it likes, so an `ASYNC_CANCEL` is a
step without effect. A parked fiber may be resumed at any step.
-/

namespace Runloom.IoUring

open Transition Linked

/-- `INT32_MIN`, what `op.result` holds until a completion is stored. -/
def int32Min : ℤ := -2147483648

def ENOBUFS : ℤ := 105

def ECANCELED : ℤ := 125

/-- `RUNLOOM_IOURING_WAIT_*`. -/
inductive WaitState where
  | inflight
  | parked
  | done
deriving DecidableEq

/-- The completion queues. -/
inductive Ring (H : Type*) where
  | global
  | hub (h : H)
deriving DecidableEq

/-- Who calls `runloom_iouring_do`. -/
inductive Caller (H G : Type*) where
  | hub (h : H) (g : G)
  | sched (g : G)
  | thread

inductive Call (H G M : Type*) where
  | iouringDo (caller : Caller H G)
  | ringDo (h : H) (g : G)
  | loopIo (h : H) (g : G)
  | msRecv (m : M) (n : ℕ)

namespace Call

variable {H G M : Type*}

/-- `op.hub`. -/
def hub : Call H G M → Option H
  | iouringDo (.hub h _) => some h
  | ringDo h _ => some h
  | loopIo h _ => some h
  | _ => none

/-- `op.g`. -/
def g : Call H G M → Option G
  | iouringDo (.hub _ g) => some g
  | iouringDo (.sched g) => some g
  | ringDo _ g => some g
  | loopIo _ g => some g
  | _ => none

/-- `op.ring`, null for the global ring. -/
def ring : Call H G M → Option H
  | ringDo h _ => some h
  | loopIo h _ => some h
  | _ => none

def cq (call : Call H G M) : Ring H :=
  match call.ring with
  | some h => .hub h
  | none => .global

def isLoopIo : Call H G M → Bool
  | loopIo _ _ => true
  | _ => false

def isMsRecv : Call H G M → Bool
  | msRecv _ _ => true
  | _ => false

end Call

inductive Outcome where
  | value (r : ℤ)
  /-- `-1`, with the errno. -/
  | error (errno : ℤ)
  /-- `-1` with `EINTR`, and the signal handler's exception in the fiber. -/
  | interrupted
  /-- `-1` because the submission or `io_uring_enter` failed. -/
  | failed
deriving DecidableEq

def Outcome.ofResult (r : ℤ) : Outcome :=
  if r < 0 then .error (-r) else .value r

/-- Where the completion of a single-shot operation is: a ghost of the proofs. -/
inductive Phase (D : Type*) where
  | unsubmitted
  | inflight
  | queued (res : ℤ)
  | taken (d : D) (res : ℤ)
  | stored (d : D) (res : ℤ)
  | waking (d : D) (res : ℤ)
  | finished (res : ℤ)
deriving DecidableEq

inductive Cqe (C M : Type*) where
  | single (c : C) (res : ℤ)
  | multi (m : M) (res : ℤ) (buffer more : Bool)

inductive CallPc where
  | idle
  | submit
  /-- The load of `op.wait`. -/
  | load
  | cas
  /-- The store of `g->iouring_op`. -/
  | publish
  /-- `runloom_iou_sigwaiter_link`. -/
  | link
  | parked
  /-- The test of the `do`-`while` loop. -/
  | test
  | unlink
  | clear
  /-- `sw.signaled && op.result < 0`. -/
  | signal
  | interrupt
  /-- The `while` test of a thread that is no fiber. -/
  | threadTest
  | enter
  /-- The closing block; `waited` tells whether the call came through a park or a wait. -/
  | finish (waited : Bool)
  | returned (out : Outcome)
  | msLock
  | msLink
  | msParked
  | msResumed
  | msRelock
  | msReturn (out : Outcome)
deriving DecidableEq

inductive DrainPc (C H M : Type*) where
  | idle
  | walk (r : Ring H)
  | taken (r : Ring H) (c : C) (res : ℤ)
  /-- The result is stored; `op->hub` and `op->wait` come next. -/
  | stored (r : Ring H) (c : C)
  /-- `op->hub` and `op->g` are to be read for the wake. -/
  | waking (r : Ring H) (c : C)
  | msTaken (r : Ring H) (m : M) (res : ℤ) (buffer more : Bool)
  | msWalk (r : Ring H) (woken : Option C)
deriving DecidableEq

/-- `runloom_iouring_cancel_g`, with the pointer it has loaded. -/
inductive CancelPc (C G : Type*) where
  | idle
  | readG (g : G) (c : C)
  | readWait (c : C)
  | readRing (c : C)

/-- `runloom_iouring_submit_cancel_for_op`, run by a hub on what it takes from its mailbox. -/
inductive MailPc (C : Type*) where
  | idle
  | readRing (c : C)
  | readWait (c : C)
  | submit (c : C)

/-- `inflight` is what is left of the buffer being consumed, `ready` the lengths of those behind it. -/
structure Handle (C : Type*) where
  ready : List ℕ
  inflight : ℕ
  err : ℤ
  eof : Bool
  closing : Bool
  armed : Bool
  waiters : List C

/-- Steps 1 and 2 of the `ms_recv` loop: bytes copied, and what is left. -/
def takeBuffers : ℕ → ℕ → List ℕ → ℕ × ℕ × List ℕ
  | want, avail, [] => (min avail want, avail - min avail want, [])
  | want, avail, len :: ready =>
    if want ≤ avail then (want, avail - want, len :: ready)
    else
      let (took, avail', ready') := takeBuffers (want - avail) len ready
      (avail + took, avail', ready')

/-- The lock-held part of `ms_on_cqe`, which also detaches the waiters. -/
def Handle.onCqe {C : Type*} (h : Handle C) (res : ℤ) (buffer more : Bool) : Handle C :=
  let h :=
    if buffer ∧ 0 < res then { h with ready := h.ready ++ [res.toNat] }
    else if res = 0 ∧ ¬more then { h with eof := true }
    else if res < 0 ∧ res ≠ -ENOBUFS ∧ res ≠ -ECANCELED then { h with err := -res }
    else h
  { h with armed := h.armed && more, waiters := [] }

structure State (C D K H G M : Type*) where
  phase : C → Phase D
  posted : C → Option ℤ
  cq : Ring H → List (Cqe C M)
  /-- A drainer is at the queue: `draining` for the global ring. -/
  walked : Ring H → Bool
  result : C → ℤ
  wait : C → WaitState
  iouringOp : G → Option C
  signaled : C → Bool
  woken : C → Bool
  call : C → CallPc
  drainer : D → DrainPc C H M
  canceller : K → CancelPc C G
  mailbox : H → Option C
  hub : H → MailPc C
  handle : M → Handle C
  msLive : M → Bool
  /-- The waiter node of a reader: its `next` and `on_list`. -/
  next : C → Option C
  onList : C → Bool

inductive Action (C D K H G M : Type*) where
  /-- The call's own next step; `ok` is the result of its system call, if any. -/
  | call (c : C) (ok : Bool)
  | resume (c : C)
  /-- `runloom_iouring_signal_wake` picks the call. -/
  | signal (c : C)
  | post (c : C) (res : ℤ)
  | msPost (m : M) (res : ℤ) (buffer more : Bool)
  | msClose (m : M)
  | enterDrain (d : D) (r : Ring H)
  | drain (d : D)
  | cancelG (k : K) (g : G)
  | cancel (k : K)
  | mail (h : H)

variable {C D K H G M : Type*}

def CallPc.sigLinked (call : Call H G M) : CallPc → Bool
  | .parked => !call.isLoopIo
  | .test => true
  | .unlink => true
  | .msParked => true
  | .msResumed => true
  | _ => false

def DrainPc.op : DrainPc C H M → Option C
  | .taken _ c _ => some c
  | .stored _ c => some c
  | .waking _ c => some c
  | _ => none

def CancelPc.op : CancelPc C G → Option C
  | .readG _ c => some c
  | .readWait c => some c
  | .readRing c => some c
  | .idle => none

def MailPc.op : MailPc C → Option C
  | .readRing c => some c
  | .readWait c => some c
  | .submit c => some c
  | .idle => none

namespace State

variable [DecidableEq C] [DecidableEq D] [DecidableEq K] [DecidableEq H] [DecidableEq G] [DecidableEq M]

def goto (s : State C D K H G M) (c : C) (pc : CallPc) : State C D K H G M :=
  { s with call := update s.call c pc }

def drainTo (s : State C D K H G M) (d : D) (pc : DrainPc C H M) : State C D K H G M :=
  { s with drainer := update s.drainer d pc }

def cancelTo (s : State C D K H G M) (k : K) (pc : CancelPc C G) : State C D K H G M :=
  { s with canceller := update s.canceller k pc }

def mailTo (s : State C D K H G M) (h : H) (pc : MailPc C) : State C D K H G M :=
  { s with hub := update s.hub h pc }

def setPhase (s : State C D K H G M) (c : C) (ph : Phase D) : State C D K H G M :=
  { s with phase := update s.phase c ph }

def setHandle (s : State C D K H G M) (m : M) (h : Handle C) : State C D K H G M :=
  { s with handle := update s.handle m h }

def start (call : Call H G M) (s : State C D K H G M) (c : C) : State C D K H G M :=
  match call with
  | .msRecv _ n =>
    if n = 0 then s.goto c (.returned (.value 0))
    else { s with onList := update s.onList c false,
                  next := update s.next c none,
                  signaled := update s.signaled c false }.goto c .msLock
  | _ =>
    { s with result := update s.result c int32Min,
             wait := update s.wait c .inflight }.goto c .submit

/-- Where the submission fails on the global ring, `sq_tail` stays advanced; a hub ring takes the entry back. -/
def submit (call : Call H G M) (s : State C D K H G M) (c : C) (ok : Bool) : Option (State C D K H G M) :=
  match call with
  | .iouringDo caller =>
    some ((s.setPhase c .inflight).goto c <|
      if ok then
        match caller with
        | .hub _ _ => .load
        | .sched _ => .link
        | .thread => .threadTest
      else .returned .failed)
  | .ringDo _ _ =>
    if ok then some ((s.setPhase c .inflight).goto c .load)
    else some (s.goto c (.returned .failed))
  | .loopIo _ _ => if ok then some ((s.setPhase c .inflight).goto c .cas) else none
  | .msRecv _ _ => none

/-- The `INFLIGHT` to `PARKED` exchange, which commits to the park. -/
def commitPark (call : Call H G M) (s : State C D K H G M) (c : C) : State C D K H G M :=
  if s.wait c = .inflight then
    { s with wait := update s.wait c .parked }.goto c (if call.isLoopIo then .parked else .publish)
  else s.goto c (.finish false)

def setIouringOp (call : Call H G M) (s : State C D K H G M) (op : Option C) :
    State C D K H G M :=
  match call.g with
  | some g => { s with iouringOp := update s.iouringOp g op }
  | none => s

/-- The end of `ms_recv` under the lock: the node leaves the list if it is on it. -/
def msDone (s : State C D K H G M) (c : C) (m : M) (out : Outcome) : State C D K H G M :=
  if s.onList c then
    { s with next := cut s.next (s.handle m).waiters c,
             onList := update s.onList c false,
             handle := update s.handle m
               { s.handle m with waiters := (s.handle m).waiters.erase c } }.goto c (.msReturn out)
  else s.goto c (.msReturn out)

/-- The reader arms a request that has ended, links its node, and gives up the lock. -/
def msWait (s : State C D K H G M) (c : C) (m : M) : State C D K H G M :=
  let h := s.handle m
  let s := { s with msLive := update s.msLive m (s.msLive m || !h.armed) }
  if s.onList c then (s.setHandle m { h with armed := true }).goto c .msLink
  else
    { s with next := update s.next c h.waiters.head?,
             onList := update s.onList c true,
             handle := update s.handle m { h with armed := true, waiters := c :: h.waiters } }.goto c .msLink

/-- The body of the `ms_recv` loop under the lock; `ok` is the result of `ms_submit`. -/
def msBody (s : State C D K H G M) (c : C) (m : M) (n : ℕ) (ok : Bool) : State C D K H G M :=
  let h := s.handle m
  let (took, avail, ready) := takeBuffers n h.inflight h.ready
  if 0 < took then
    (s.setHandle m { h with inflight := avail, ready := ready }).msDone c m (.value took)
  else if h.err ≠ 0 then s.msDone c m (.error h.err)
  else if h.eof then s.msDone c m (.value 0)
  else if h.closing then s.msDone c m (.value 0)
  else if ¬h.armed ∧ ¬ok then s.msDone c m .failed
  else s.msWait c m

def msStep (call : Call H G M) (s : State C D K H G M) (c : C) (relock ok : Bool) : Option (State C D K H G M) :=
  match call with
  | .msRecv m n =>
    if relock ∧ s.signaled c then some (s.msDone c m .interrupted) else some (s.msBody c m n ok)
  | _ => none

def callStep (call : Call H G M) (s : State C D K H G M) (c : C) (ok : Bool) : Option (State C D K H G M) :=
  match s.call c with
  | .idle => some (s.start call c)
  | .submit => s.submit call c ok
  | .load => some (s.goto c (if s.wait c = .done then .finish false else .cas))
  | .cas => some (s.commitPark call c)
  | .publish => some ((s.setIouringOp call (some c)).goto c .link)
  | .link => some ({ s with signaled := update s.signaled c false }.goto c .parked)
  | .parked => none
  | .test => some (s.goto c (if s.result c = int32Min then .parked else .unlink))
  | .unlink => some (s.goto c (if call.hub.isSome then .clear else .signal))
  | .clear => some ((s.setIouringOp call none).goto c .signal)
  | .signal =>
    some (s.goto c (if s.signaled c ∧ s.result c < 0 then .interrupt else .finish true))
  | .interrupt => some (s.goto c (.returned .interrupted))
  | .threadTest => some (s.goto c (if s.result c = int32Min then .enter else .finish true))
  | .enter => some (s.goto c (if ok then .threadTest else .returned .failed))
  | .finish _ => some (s.goto c (.returned (.ofResult (s.result c))))
  | .returned _ => none
  | .msLock => s.msStep call c false ok
  | .msLink => some ({ s with signaled := update s.signaled c false }.goto c .msParked)
  | .msParked => none
  | .msResumed => some (s.goto c .msRelock)
  | .msRelock => s.msStep call c true ok
  | .msReturn out => some (s.goto c (.returned out))

/-- A park ends.  `loop_io` does not look at the result again. -/
def resume (call : Call H G M) (s : State C D K H G M) (c : C) : Option (State C D K H G M) :=
  match s.call c with
  | .parked => some (s.goto c (if call.isLoopIo then .finish true else .test))
  | .msParked => some (s.goto c .msResumed)
  | _ => none

/-- One step of `runloom_iouring_drain`, `ring_drain` or `loop_drain`. -/
def drainStep (calls : C → Call H G M) (s : State C D K H G M) (d : D) : Option (State C D K H G M) :=
  match s.drainer d with
  | .idle => none
  | .walk r =>
    match s.cq r with
    | [] => some ({ s with walked := update s.walked r false }.drainTo d .idle)
    | .single c res :: rest =>
      some (({ s with cq := update s.cq r rest }.setPhase c (.taken d res)).drainTo d (.taken r c res))
    | .multi m res buffer more :: rest =>
      some ({ s with cq := update s.cq r rest }.drainTo d (.msTaken r m res buffer more))
  | .taken r c res =>
    some (({ s with result := update s.result c res }.setPhase c (.stored d res)).drainTo d (.stored r c))
  | .stored r c =>
    match (calls c).hub with
    | some _ =>
      let s' := { s with wait := update s.wait c .done }
      -- The exchange says whether the fiber has committed to its park; only then does it need a wake.
      if s.wait c = .parked then
        some ((s'.setPhase c (.waking d (s.result c))).drainTo d (.waking r c))
      else some ((s'.setPhase c (.finished (s.result c))).drainTo d (.walk r))
    | none => some ((s.setPhase c (.waking d (s.result c))).drainTo d (.waking r c))
  -- The record is not touched after this, so the fiber may return.
  | .waking r c =>
    some (({ s with woken := update s.woken c (s.woken c || (calls c).g.isSome) }.setPhase c
      (.finished (s.result c))).drainTo d (.walk r))
  | .msTaken r m res buffer more =>
    let waiters := (s.handle m).waiters
    some (({ s with onList := fun c => s.onList c && !decide (c ∈ waiters) }.setHandle m
      ((s.handle m).onCqe res buffer more)).drainTo d (.msWalk r waiters.head?))
  | .msWalk r none => some (s.drainTo d (.walk r))
  -- The link of a node is read before its reader is woken, which may then return.
  | .msWalk r (some c) =>
    some ({ s with woken := update s.woken c true }.drainTo d (.msWalk r (s.next c)))

def cancelStep (calls : C → Call H G M) (s : State C D K H G M) (k : K) : Option (State C D K H G M) :=
  match s.canceller k with
  | .idle => none
  | .readG g c => some (s.cancelTo k (if (calls c).g = some g then .readWait c else .idle))
  | .readWait c => some (s.cancelTo k (if s.wait c = .parked then .readRing c else .idle))
  | .readRing c =>
    match (calls c).ring with
    | none => some (s.cancelTo k .idle)
    | some h =>
      -- The exchange fails where an earlier request still stands.
      let box := if s.mailbox h = none then some c else s.mailbox h
      some ({ s with mailbox := update s.mailbox h box }.cancelTo k .idle)

def mailStep (calls : C → Call H G M) (s : State C D K H G M) (h : H) : Option (State C D K H G M) :=
  match s.hub h with
  | .idle =>
    match s.mailbox h with
    | none => none
    | some c =>
      some ({ s with mailbox := update s.mailbox h none }.mailTo h (.readRing c))
  | .readRing c => some (s.mailTo h (if (calls c).ring.isSome then .readWait c else .idle))
  | .readWait c => some (s.mailTo h (if s.wait c = .parked then .submit c else .idle))
  | .submit _ => some (s.mailTo h .idle)

end State

open State

variable [DecidableEq C] [DecidableEq D] [DecidableEq K] [DecidableEq H] [DecidableEq G] [DecidableEq M]

/-- One drainer at a time: `draining` on the global ring, the owning hub on a loop-armed ring. -/
def exclusive (loopArmed : H → Bool) : Ring H → Bool
  | .global => true
  | .hub h => loopArmed h

def step (calls : C → Call H G M) (loopArmed : H → Bool) (s : State C D K H G M) :
    Action C D K H G M → Option (State C D K H G M)
  | .call c ok => s.callStep (calls c) c ok
  | .resume c => s.resume (calls c) c
  | .signal c =>
    if (s.call c).sigLinked (calls c) ∧ ¬s.signaled c then
      some { s with signaled := update s.signaled c true }
    else none
  | .post c res =>
    if s.phase c = .inflight ∧ int32Min < res then
      let cq := s.cq (calls c).cq ++ [Cqe.single c res]
      some ({ s with cq := update s.cq (calls c).cq cq,
                     posted := update s.posted c (some res) }.setPhase c (.queued res))
    else none
  | .msPost m res buffer more =>
    if s.msLive m then
      let cq := s.cq .global ++ [Cqe.multi m res buffer more]
      some { s with cq := update s.cq .global cq,
                    msLive := update s.msLive m more }
    else none
  | .msClose m => some (s.setHandle m { s.handle m with closing := true })
  | .enterDrain d r =>
    if s.drainer d = .idle ∧ ¬(exclusive loopArmed r ∧ s.walked r) then
      some ({ s with walked := update s.walked r true }.drainTo d (.walk r))
    else none
  | .drain d => s.drainStep calls d
  | .cancelG k g =>
    match s.canceller k, s.iouringOp g with
    | .idle, some c => some (s.cancelTo k (.readG g c))
    | _, _ => none
  | .cancel k => s.cancelStep calls k
  | .mail h => s.mailStep calls h

/-- The multishot handles may be in any state, without waiters. -/
structure Init (s : State C D K H G M) : Prop where
  phase : ∀ c, s.phase c = .unsubmitted
  posted : ∀ c, s.posted c = none
  cq : ∀ r, s.cq r = []
  iouringOp : ∀ g, s.iouringOp g = none
  call : ∀ c, s.call c = .idle
  drainer : ∀ d, s.drainer d = .idle
  canceller : ∀ k, s.canceller k = .idle
  mailbox : ∀ h, s.mailbox h = none
  hub : ∀ h, s.hub h = .idle
  woken : ∀ c, s.woken c = false
  waiters : ∀ m, (s.handle m).waiters = []

def ioUring (calls : C → Call H G M) (loopArmed : H → Bool) :
    System (State C D K H G M) (Action C D K H G M) where
  init := Init
  step := step calls loopArmed

/-- The records and nodes that a step of a drainer or canceller touches. -/
def touched (s : State C D K H G M) : Action C D K H G M → List C
  | .drain d =>
    match s.drainer d with
    | .walk r =>
      match s.cq r with
      | .single c _ :: _ => [c]
      | _ => []
    | .taken _ c _ => [c]
    | .stored _ c => [c]
    | .waking _ c => [c]
    | .msTaken _ m _ _ _ => (s.handle m).waiters
    | .msWalk _ (some c) => [c]
    | _ => []
  | .cancel k => (s.canceller k).op.toList
  | .mail h => (s.hub h).op.toList
  | _ => []

end Runloom.IoUring
