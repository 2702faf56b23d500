import Mathlib.Data.Int.Notation
import Runloom.Linked.Chain
import Runloom.Transition.System

/-!
# Multishot receive

Model of one multishot handle on the global ring: `runloom_iouring_ms_recv`, `runloom_iouring_ms_on_cqe`,
`runloom_iouring_ms_close`, `runloom_iouring_ms_put` and `runloom_iouring_ms_free`. A step is a section under the
handle's lock, or what a party does between two of them: the drain reads one node of the list that it has detached,
the closer submits its cancel, the last party frees.

A call must begin before `runloom_iouring_ms_close` returns, and there is one close.
-/

namespace Runloom.Multishot

open Transition

/-- Bytes of one provided buffer, `RUNLOOM_IOURING_PBUF_SIZE`. -/
def bufferSize : ℕ := 2048

/-- `-ENOBUFS` and `-ECANCELED`. -/
def noBuffers : ℤ := -105
def canceled : ℤ := -125

/-- `ms_entry_t`. -/
structure Entry (B : Type*) where
  bid : B
  len : ℕ

/-- The buffer that is partly consumed. -/
structure Slot (B : Type*) where
  bid : B
  off : ℕ
  len : ℕ

structure Cqe (B : Type*) where
  res : ℤ
  /-- The buffer, with `IORING_CQE_F_BUFFER`. -/
  buffer : Option B
  /-- `IORING_CQE_F_MORE`. -/
  more : Bool

inductive Result (β : Type*) where
  | bytes (out : List β)
  | zero
  | error (err : ℤ)
  | submitError
  | signal
deriving DecidableEq

inductive Pc (β : Type*) where
  | idle
  | parked (n : ℕ)
  | returned (r : Result β)
deriving DecidableEq

inductive Drain (C : Type*) where
  | idle
  /-- Before `woken` is read; `last` is `was_closing && !more`. -/
  | walk (woken : Option C) (last : Bool)
  | put
  | wild
deriving DecidableEq

inductive Closer where
  | idle
  | cancel
  | drop
  | dropBoth
  | dropLive
  | done
deriving DecidableEq

inductive Actor (C : Type*) where
  | reader (c : C)
  | drain
  | closer
deriving DecidableEq

structure State (C B β : Type*) where
  closing : Bool
  err : ℤ
  eof : Bool
  armed : Bool
  ready : List (Entry B)
  inflight : Option (Slot B)
  refcount : ℤ
  /-- The nodes linked in `h->waiters`, those with `on_list`. -/
  waiters : List C
  next : C → Option C
  pc : C → Pc β
  signaled : C → Bool
  wake : C → Bool
  drain : Drain C
  closer : Closer
  /-- In `ms_free`. -/
  freeing : Actor C → Bool
  queued : ℕ
  requests : ℕ
  cq : List (Cqe B)
  mem : B → List β
  pool : B → ℕ
  cancelSent : Bool
  stream : List β
  log : List (C × List β)
  unread : C → Bool
  frees : ℕ
  touched : Bool

inductive Action (C B β : Type*) where
  /-- `ok`: a submission succeeds. -/
  | call (c : C) (n : ℕ) (ok : Bool)
  | resume (c : C) (ok : Bool)
  /-- `signal_wake` marks the call. -/
  | mark (c : C)
  | stray (c : C)
  | take
  | post (b : B) (payload : List β) (more : Bool)
  | postBare (res : ℤ) (more : Bool)
  | onCqe
  | walk
  | drainPut
  | close
  | cancel (ok : Bool)
  | closePut
  | free (a : Actor C)

/-! ## Copying out -/

section Copy

variable {B β : Type*} [DecidableEq B]

def pbufReturn (pool : B → ℕ) (b : B) : B → ℕ := update pool b (pool b + 1)

/-- What the loop of `ms_recv` has copied, the slot, and the pool. -/
structure Copy (B β : Type*) where
  out : List β
  inflight : Option (Slot B)
  pool : B → ℕ

def Copy.drain (mem : B → List β) (n : ℕ) (k : Copy B β) : Copy B β :=
  match k.inflight with
  | none => k
  | some e =>
    -- `pbuf_addr` is not null here: the kernel names buffers of the pool only.
    let take := min (e.len - e.off) (n - k.out.length)
    let out := k.out ++ ((mem e.bid).drop e.off).take take
    let off := e.off + take
    if e.len ≤ off then ⟨out, none, pbufReturn k.pool e.bid⟩
    else ⟨out, some { e with off := off }, k.pool⟩

/-- Drain the slot and refill it, as long as the caller wants more. -/
def Copy.loop (mem : B → List β) (n : ℕ) (k : Copy B β) : List (Entry B) → Copy B β × List (Entry B)
  | [] => (k.drain mem n, [])
  | e :: ready =>
    let k := k.drain mem n
    -- The caller has what it wants; the rest of the slot is for the next call.
    if n ≤ k.out.length then (k, e :: ready)
    else Copy.loop mem n { k with inflight := some ⟨e.bid, 0, e.len⟩ } ready

end Copy

/-! ## The sections -/

variable {C B β : Type*} [DecidableEq C] [DecidableEq B]

namespace State

def touch (s : State C B β) : State C B β := { s with touched := s.touched || s.refcount == 0 }

/-- `--h->refcount`, in a section; the one who drops the last goes on to free. -/
def drop (s : State C B β) (a : Actor C) : State C B β :=
  { s with
    refcount := s.refcount - 1
    freeing := if s.refcount - 1 = 0 then update s.freeing a true else s.freeing }

/-- `runloom_iouring_ms_put`. -/
def put (s : State C B β) (a : Actor C) : State C B β := s.touch.drop a

/-- The end of `ms_recv`, from `done:` on: the node is unlinked if it is linked. -/
def finish (s : State C B β) (c : C) (r : Result β) : State C B β :=
  { s with
    waiters := s.waiters.erase c
    next := Linked.cut s.next s.waiters c
    pc := update s.pc c (.returned r) }.drop (.reader c)

def park (s : State C B β) (c : C) (n : ℕ) : State C B β :=
  { s with
    waiters := if c ∈ s.waiters then s.waiters else c :: s.waiters
    next := if c ∈ s.waiters then s.next else update s.next c s.waiters.head?
    pc := update s.pc c (.parked n)
    signaled := update s.signaled c false }

def copyOut (s : State C B β) (n : ℕ) : State C B β × List β :=
  let r := Copy.loop s.mem n ⟨[], s.inflight, s.pool⟩ s.ready
  ({ s with ready := r.2, inflight := r.1.inflight, pool := r.1.pool }, r.1.out)

def await (s : State C B β) (c : C) (n : ℕ) (ok : Bool) : State C B β :=
  -- An error wins over the end of the file.
  if s.err ≠ 0 then s.finish c (.error s.err)
  else if s.eof then s.finish c .zero
  -- A closing handle is not armed again.
  else if s.closing then s.finish c .zero
  else if s.armed then s.park c n
  -- The entry is in the ring in both cases; only `armed` tells them apart.
  else if ok then { s with armed := true, queued := s.queued + 1 }.park c n
  else { s with queued := s.queued + 1 }.finish c .submitError

/-- The loop of `ms_recv`, from one lock to the next park or to the end. -/
def recv (s : State C B β) (c : C) (n : ℕ) (ok : Bool) : State C B β :=
  match s.copyOut n with
  | (s, []) => s.await c n ok
  | (s, x :: out) => { s with log := s.log ++ [(c, x :: out)] }.finish c (.bytes (x :: out))

/-- What a completion says: bytes, the end of the file, or an error that stays. -/
def deliver (s : State C B β) (cqe : Cqe B) : State C B β :=
  match cqe.buffer, decide (0 < cqe.res) with
  -- `len` is a `uint16_t`.
  | some b, true => { s with ready := s.ready ++ [⟨b, cqe.res.toNat % 65536⟩] }
  | _, _ =>
    if cqe.res = 0 ∧ cqe.more = false then { s with eof := true }
    else if cqe.res < 0 ∧ cqe.res ≠ noBuffers ∧ cqe.res ≠ canceled then { s with err := -cqe.res }
    else s

def detach (s : State C B β) (more : Bool) : State C B β :=
  { s with
    armed := s.armed && more
    waiters := []
    unread := fun c => s.unread c || decide (c ∈ s.waiters)
    drain := .walk s.waiters.head? (s.closing && !more) }

/-- The section of `ms_on_cqe`. -/
def onCqe (s : State C B β) (cqe : Cqe B) : State C B β := (s.deliver cqe).detach cqe.more

/-- Read the node `w`, and wake its call. -/
def readNode (s : State C B β) (w : C) (last : Bool) : State C B β :=
  match s.pc w with
  -- The node was on the stack of that call.
  | .returned _ => { s with drain := .wild }
  -- The link is read before the wake.
  | _ =>
    { s with
      drain := .walk (s.next w) last
      wake := update s.wake w true
      unread := update s.unread w false }

/-- The kernel posts a completion; without `more` the request has ended. -/
def complete (s : State C B β) (cqe : Cqe B) : State C B β :=
  { s with cq := s.cq ++ [cqe], requests := if cqe.more then s.requests else s.requests - 1 }

/-- `runloom_iouring_ms_free`. -/
def free (s : State C B β) : State C B β :=
  { s with
    pool := (s.ready.map Entry.bid ++ (s.inflight.map Slot.bid).toList).foldl pbufReturn s.pool
    ready := []
    inflight := none
    frees := s.frees + 1 }

end State

open State

def step (s : State C B β) : Action C B β → Option (State C B β)
  | .call c n ok =>
    match s.pc c with
    | .idle =>
      if s.closer = .done then none
      else if n = 0 then some { s with pc := update s.pc c (.returned .zero) }
      else some ({ s.touch with refcount := s.refcount + 1 }.recv c n ok)
    | _ => none
  | .resume c ok =>
    match s.pc c with
    | .parked n =>
      if s.wake c then
        let s := { s.touch with wake := update s.wake c false }
        if s.signaled c then some (s.finish c .signal) else some (s.recv c n ok)
      else none
    | _ => none
  | .mark c =>
    match s.pc c with
    | .parked _ => some { s with signaled := update s.signaled c true }
    | _ => none
  | .stray c =>
    match s.pc c with
    | .parked _ => some { s with wake := update s.wake c true }
    | _ => none
  | .take => if 0 < s.queued then some { s with queued := s.queued - 1, requests := s.requests + 1 } else none
  | .post b payload more =>
    if 0 < s.requests ∧ 0 < s.pool b ∧ payload ≠ [] ∧ payload.length ≤ bufferSize then
      some ({ s with
        mem := update s.mem b payload
        pool := update s.pool b (s.pool b - 1)
        stream := s.stream ++ payload }.complete ⟨payload.length, some b, more⟩)
    else none
  | .postBare res more =>
    if 0 < s.requests ∧ res ≤ 0 then some (s.complete ⟨res, none, more⟩) else none
  | .onCqe =>
    match s.drain, s.cq with
    | .idle, cqe :: cq => if s.freeing .drain then none else some ({ s.touch with cq := cq }.onCqe cqe)
    | _, _ => none
  | .walk =>
    match s.drain with
    | .walk (some w) last => some (s.readNode w last)
    | .walk none last => some { s with drain := if last then .put else .idle }
    | _ => none
  | .drainPut =>
    match s.drain with
    | .put => some ({ s with drain := .idle }.put .drain)
    | _ => none
  | .close =>
    match s.closer with
    | .idle =>
      some { s.touch with
        refcount := s.refcount + 1
        closing := true
        -- Without a multishot no completion is left to drop the live reference.
        closer := if s.armed then .cancel else .dropBoth }
    | _ => none
  | .cancel ok =>
    match s.closer with
    | .cancel => some { s with closer := .drop, cancelSent := ok }
    | _ => none
  | .closePut =>
    if s.freeing .closer then none
    else
      match s.closer with
      | .drop => some ({ s with closer := .done }.put .closer)
      | .dropBoth => some ({ s with closer := .dropLive }.put .closer)
      | .dropLive => some ({ s with closer := .done }.put .closer)
      | _ => none
  | .free a =>
    if s.freeing a then some { s.free with freeing := update s.freeing a false } else none

/-- A handle that was just opened: one entry of the multishot, one reference. -/
structure Init (s : State C B β) : Prop where
  closing : s.closing = false
  err : s.err = 0
  eof : s.eof = false
  armed : s.armed = true
  ready : s.ready = []
  inflight : s.inflight = none
  refcount : s.refcount = 1
  waiters : s.waiters = []
  pc : ∀ c, s.pc c = .idle
  drain : s.drain = .idle
  closer : s.closer = .idle
  freeing : ∀ a, s.freeing a = false
  queued : s.queued = 1
  requests : s.requests = 0
  cq : s.cq = []
  pool : ∀ b, s.pool b = 1
  cancelSent : s.cancelSent = false
  stream : s.stream = []
  log : s.log = []
  unread : ∀ c, s.unread c = false
  frees : s.frees = 0
  touched : s.touched = false

def multishot (C B β : Type*) [DecidableEq C] [DecidableEq B] : System (State C B β) (Action C B β) where
  init := Init
  step := step

end Runloom.Multishot
