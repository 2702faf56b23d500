import Runloom.Transition.System

/-!
# Parkers and their descriptors

Model of the descriptors behind `_Parker`: `__init__` takes a pair from the pool or makes a pipe, `release` gives the
pair back or closes it, and `unpark` writes one byte to whatever the write descriptor's number stands for by then.
Around it, the three places that unpark by a direct write: `_ThreadPoolBackend.submit` with `_worker_loop`,
`CoFMutex.acquire` with `release`, and `CoSimpleQueue.get` with `put`.

The parker of a call is named by the id of the call. A park may return at any time, and it may raise.
-/

namespace Runloom.Parker

open Transition

/-! ## Descriptors -/

inductive Owner where
  | parker (i : ℕ)
  | pool
deriving DecidableEq

/-- What a descriptor number stands for: nothing, the end of a parker's pipe, or an unrelated file. -/
inductive Use where
  | free
  | read (o : Owner)
  | write (o : Owner)
  | other
deriving DecidableEq

/-- `os.write` finds something to write to. -/
def Use.writable : Use → Bool
  | .write _ => true
  | .other => true
  | _ => false

/-! ## Calls and wakers -/

/-- A call that waits on an fd parker. -/
inductive Call where
  | submit
  | acquire (m : ℕ) (blocking timed : Bool)
  | get (q : ℕ) (timed : Bool)

inductive Pc where
  | idle
  -- before the parker
  | lockFast
  | fastPop
  -- `_Parker.__init__`
  | popPool
  | pipe
  -- `submit`
  | enqueue
  | checkDone
  | parkDone
  -- `acquire`
  | lockAgain
  | checkGranted
  | lockDeadline
  | parkGranted
  -- `get`
  | register
  | firstPop
  | loopPop
  | getDeadline
  | checkRegistered
  | reRegister
  | rePop
  | parkItem
  | deactivate
  | remove
  -- `_Parker.release`
  | drain
  | tryLock
  | pooling
  | unlock (pooled : Bool)
  | closeR
  | closeW
  | done
  /-- `park` raised where nobody releases the parker. -/
  | leaked
deriving DecidableEq

/-- A worker thread, somebody releasing a mutex, or somebody putting an item. -/
inductive WakerPc where
  | idle
  | run (p : ℕ)
  | setDone (p : ℕ)
  | putTest (q : ℕ)
  | popWaiter (q : ℕ)
  | readActive (q p : ℕ)
  | unpark (p : ℕ)
deriving DecidableEq

/-- `jobs` are the shards of the thread pool, `finished` the `box[2]` of each submit, `active` and `granted` the
flags of the waiter records. `bytes` lists what was written: for which parker, and where. -/
structure State (W S : Type*) where
  use : ℕ → Use
  rfd : ℕ → ℕ
  wfd : ℕ → ℕ
  pool : List (ℕ × ℕ)
  poolLock : Bool
  pc : ℕ → Pc
  jobs : S → List ℕ
  finished : ℕ → Bool
  locked : ℕ → Bool
  lockWaiters : ℕ → List ℕ
  granted : ℕ → Bool
  items : ℕ → ℕ
  itemWaiters : ℕ → List ℕ
  active : ℕ → Bool
  waker : W → WakerPc
  bytes : List (ℕ × Use)

inductive Action (W S : Type*) where
  | call (i : ℕ)
  | next (i : ℕ)
  /-- `os.pipe()` returns the numbers `r` and `w`. -/
  | pipe (i r w : ℕ)
  | enqueue (i : ℕ) (shard : S)
  | expire (i : ℕ)
  | raise (i : ℕ)
  | takeJob (k : W) (shard : S)
  | release (k : W) (m : ℕ)
  | put (k : W) (q : ℕ)
  | wakerNext (k : W)
  | openFd (n : ℕ)
  | closeFd (n : ℕ)

variable {W S : Type*} [DecidableEq W] [DecidableEq S]

/-- `_POOL_CAP`. -/
def poolCap : ℕ := 64

namespace State

def goto (s : State W S) (i : ℕ) (pc : Pc) : State W S :=
  { s with pc := update s.pc i pc }

def wakerTo (s : State W S) (k : W) (pc : WakerPc) : State W S :=
  { s with waker := update s.waker k pc }

def setUse (s : State W S) (n : ℕ) (u : Use) : State W S :=
  { s with use := update s.use n u }

def own (s : State W S) (r w : ℕ) (o : Owner) : State W S :=
  (s.setUse r (.read o)).setUse w (.write o)

/-- `self.r, self.w = r, w`. -/
def setFds (s : State W S) (i r w : ℕ) : State W S :=
  { s with rfd := update s.rfd i r, wfd := update s.wfd i w }

end State

open State

def Call.start : Call → Pc
  | .submit => .popPool
  | .acquire .. => .lockFast
  | .get .. => .fastPop

def Call.afterNew : Call → Pc
  | .submit => .enqueue
  | .acquire .. => .lockAgain
  | .get .. => .register

/-- `_Parker._pool.pop()`; an `IndexError` leads to `os.pipe()`. -/
def popPool (c : Call) (s : State W S) (i : ℕ) : State W S :=
  match s.pool.getLast? with
  | some (r, w) =>
    (({ s with pool := s.pool.dropLast }.own r w (.parker i)).setFds i r w).goto i c.afterNew
  | none => s.goto i .pipe

/-- The pool section of `release`, with the lock held. -/
def pooling (s : State W S) (i : ℕ) : State W S :=
  if s.pool.length < poolCap then
    ({ s with pool := s.pool ++ [(s.rfd i, s.wfd i)] }.own (s.rfd i) (s.wfd i) .pool).goto i (.unlock true)
  else s.goto i (.unlock false)

/-- `self._items.popleft()`: on to `found`, or to `empty` after the `IndexError`. -/
def popItem (s : State W S) (i q : ℕ) (found empty : Pc) : State W S :=
  if 0 < s.items q then
    { s with items := update s.items q (s.items q - 1) }.goto i found
  else s.goto i empty

def tryTake (s : State W S) (i m : ℕ) (taken busy : Pc) : State W S :=
  if s.locked m then s.goto i busy
  else { s with locked := update s.locked m true }.goto i taken

/-- The second section of `acquire`: take the lock after all, or queue a record. -/
def lockAgain (s : State W S) (i m : ℕ) : State W S :=
  if s.locked m then
    { s with
      lockWaiters := update s.lockWaiters m (s.lockWaiters m ++ [i])
      active := update s.active i true
      granted := update s.granted i false }.goto i .checkGranted
  else { s with locked := update s.locked m true }.goto i .drain

/-- A step of `submit`. -/
def submitNext (s : State W S) (i : ℕ) : Pc → Option (State W S)
  | .checkDone => some (s.goto i (if s.finished i then .drain else .parkDone))
  | .parkDone => some (s.goto i .checkDone)
  | _ => none

/-- A step of `CoFMutex.acquire`. -/
def acquireNext (s : State W S) (i m : ℕ) (blocking timed : Bool) : Pc → Option (State W S)
  | .lockFast => some (tryTake s i m .done (if blocking then .popPool else .done))
  | .lockAgain => some (lockAgain s i m)
  | .checkGranted =>
    some (s.goto i (if s.granted i then .drain else if timed then .lockDeadline else .parkGranted))
  | .lockDeadline => some (s.goto i .parkGranted)
  | .parkGranted => some (s.goto i .checkGranted)
  | _ => none

/-- A step of `CoSimpleQueue.get`. -/
def getNext (s : State W S) (i q : ℕ) (timed : Bool) : Pc → Option (State W S)
  | .fastPop => some (popItem s i q .done .popPool)
  | .register =>
    some ({ s with
      itemWaiters := update s.itemWaiters q (s.itemWaiters q ++ [i])
      active := update s.active i true }.goto i .firstPop)
  | .firstPop => some (popItem s i q .deactivate .loopPop)
  | .loopPop =>
    some (popItem s i q .deactivate (if timed then .getDeadline else .checkRegistered))
  | .getDeadline => some (s.goto i .checkRegistered)
  | .checkRegistered =>
    some (s.goto i (if i ∈ s.itemWaiters q then .parkItem else .reRegister))
  | .reRegister =>
    some ({ s with
      itemWaiters := update s.itemWaiters q (s.itemWaiters q ++ [i]) }.goto i .rePop)
  | .rePop => some (popItem s i q .deactivate .parkItem)
  | .parkItem => some (s.goto i .loopPop)
  | .deactivate => some ({ s with active := update s.active i false }.goto i .remove)
  | .remove =>
    some ({ s with
      itemWaiters := update s.itemWaiters q ((s.itemWaiters q).erase i) }.goto i .drain)
  | _ => none

/-- A step of `_Parker.release`. -/
def releaseNext (s : State W S) (i : ℕ) : Pc → Option (State W S)
  | .drain => some (s.goto i .tryLock)
  | .tryLock =>
    some (if s.poolLock then s.goto i .closeR else { s with poolLock := true }.goto i .pooling)
  | .pooling => some (pooling s i)
  | .unlock pooled =>
    some ({ s with poolLock := false }.goto i (if pooled then .done else .closeR))
  | .closeR => some ((s.setUse (s.rfd i) .free).goto i .closeW)
  | .closeW => some ((s.setUse (s.wfd i) .free).goto i .done)
  | _ => none

def callNext (c : Call) (s : State W S) (i : ℕ) : Option (State W S) :=
  match c with
  | .submit => submitNext s i (s.pc i)
  | .acquire m blocking timed => acquireNext s i m blocking timed (s.pc i)
  | .get q timed => getNext s i q timed (s.pc i)

def next (c : Call) (s : State W S) (i : ℕ) : Option (State W S) :=
  if s.pc i = .popPool then some (popPool c s i)
  else (callNext c s i).or (releaseNext s i (s.pc i))

/-- The deadline has passed: `acquire` looks once more, and `get` stops waiting. -/
def expire (s : State W S) (i : ℕ) : Option (State W S) :=
  match s.pc i with
  | .lockDeadline =>
    some (if s.granted i then s.goto i .drain
      else { s with active := update s.active i false }.goto i .drain)
  | .getDeadline => some (s.goto i .deactivate)
  | _ => none

/-- `park` raises.  Only `submit` releases its parker then, in a `finally`. -/
def raise (s : State W S) (i : ℕ) : Option (State W S) :=
  match s.pc i with
  | .parkDone => some (s.goto i .drain)
  | .parkGranted => some (s.goto i .leaked)
  | .parkItem => some (s.goto i .leaked)
  | _ => none

/-- The loop of `CoFMutex.release`: skip the records that timed out. -/
def popActive (active : ℕ → Bool) : List ℕ → Option ℕ × List ℕ
  | [] => (none, [])
  | i :: rest => if active i then (some i, rest) else popActive active rest

/-- The section of `CoFMutex.release`: hand the lock to a waiter, or unlock. -/
def releaseLock (s : State W S) (k : W) (m : ℕ) : State W S :=
  match popActive s.active (s.lockWaiters m) with
  | (some i, rest) =>
    { s with
      lockWaiters := update s.lockWaiters m rest
      granted := update s.granted i true }.wakerTo k (.unpark i)
  | (none, rest) =>
    { s with
      lockWaiters := update s.lockWaiters m rest
      locked := update s.locked m false }

/-- `_raw_os_write(self.w, b"\x01")`; errors are swallowed. -/
def write (s : State W S) (p : ℕ) : State W S :=
  if (s.use (s.wfd p)).writable then { s with bytes := s.bytes ++ [(p, s.use (s.wfd p))] } else s

def wakerNext (s : State W S) (k : W) : Option (State W S) :=
  match s.waker k with
  | .idle => none
  | .run p => some (s.wakerTo k (.setDone p))
  | .setDone p =>
    some ({ s with finished := update s.finished p true }.wakerTo k (.unpark p))
  | .putTest q => some (s.wakerTo k (if s.itemWaiters q = [] then .idle else .popWaiter q))
  | .popWaiter q =>
    match s.itemWaiters q with
    | [] => some (s.wakerTo k .idle)
    | p :: rest =>
      some ({ s with itemWaiters := update s.itemWaiters q rest }.wakerTo k (.readActive q p))
  | .readActive q p => some (s.wakerTo k (if s.active p then .unpark p else .popWaiter q))
  | .unpark p => some ((write s p).wakerTo k .idle)

def step (calls : ℕ → Call) (s : State W S) : Action W S → Option (State W S)
  | .call i => if s.pc i = .idle then some (s.goto i (calls i).start) else none
  | .next i => next (calls i) s i
  | .pipe i r w =>
    if s.pc i = .pipe ∧ s.use r = .free ∧ s.use w = .free ∧ r ≠ w then
      some (((s.own r w (.parker i)).setFds i r w).goto i (calls i).afterNew)
    else none
  | .enqueue i shard =>
    if s.pc i = .enqueue then
      some ({ s with jobs := update s.jobs shard (s.jobs shard ++ [i]) }.goto i .checkDone)
    else none
  | .expire i => expire s i
  | .raise i => raise s i
  | .takeJob k shard =>
    match s.waker k, s.jobs shard with
    | .idle, p :: rest =>
      some ({ s with jobs := update s.jobs shard rest }.wakerTo k (.run p))
    | _, _ => none
  | .release k m =>
    if s.waker k = .idle ∧ s.locked m then some (releaseLock s k m) else none
  | .put k q =>
    if s.waker k = .idle then
      some ({ s with items := update s.items q (s.items q + 1) }.wakerTo k (.putTest q))
    else none
  | .wakerNext k => wakerNext s k
  | .openFd n => if s.use n = .free then some (s.setUse n .other) else none
  | .closeFd n => if s.use n = .other then some (s.setUse n .free) else none

/-- No call yet; the pool is empty, and no descriptor belongs to a parker. -/
structure Init (s : State W S) : Prop where
  use : ∀ n, s.use n = .free ∨ s.use n = .other
  pool : s.pool = []
  poolLock : s.poolLock = false
  pc : ∀ i, s.pc i = .idle
  jobs : ∀ shard, s.jobs shard = []
  finished : ∀ i, s.finished i = false
  lockWaiters : ∀ m, s.lockWaiters m = []
  itemWaiters : ∀ q, s.itemWaiters q = []
  active : ∀ i, s.active i = false
  waker : ∀ k, s.waker k = .idle
  bytes : s.bytes = []

variable (W S) in
def parkers (calls : ℕ → Call) : System (State W S) (Action W S) where
  init := Init
  step := step calls

end Runloom.Parker
