import Mathlib.Data.BitVec
import Runloom.Transition.System

/-!
# The parker pool

Model of one `runloom_parker_pool_t`: `runloom_parker_link` and `runloom_parker_unlink` with the deadline heap, the
per-fd index and the dispatch mask. The link fields of a parker are grouped by the structure they belong to: `next`
and `slot` for the list from `pool->head`, `next_by_fd` and `prev_by_fd` for the buckets, `heap_index` for the heap.

Both calls run under `pool->lock`, so that a call is one step.
-/

namespace Runloom.ParkerPool

open Transition

/-- A parker: the address of a `runloom_parked_t`. -/
abbrev Parker := ℕ

/-! ### The list -/

/-- What `slot` can point to: `&pool->head`, or the `next` field of a parker. -/
inductive Cell where
  | head
  | next (q : Parker)
deriving DecidableEq

structure ParkerList where
  head : Option Parker
  next : Parker → Option Parker
  slot : Parker → Option Cell

namespace ParkerList

/-- The check of a stale `pool->head` at the start of a link. -/
def clearStale (L : ParkerList) (p : Parker) : ParkerList :=
  if L.head = some p then { L with head := none } else L

def setSlot (L : ParkerList) (p : Parker) (c : Option Cell) : ParkerList :=
  { L with slot := update L.slot p c }

def setNext (L : ParkerList) (p : Parker) (q : Option Parker) : ParkerList :=
  { L with next := update L.next p q }

/-- `*c = q`. -/
def store (L : ParkerList) (c : Cell) (q : Option Parker) : ParkerList :=
  match c with
  | .head => { L with head := q }
  | .next z => L.setNext z q

/-- The successor of `p`, where there is one, is told of the cell that points to it. -/
def tellNext (L : ParkerList) (p : Parker) (c : Option Cell) : ParkerList :=
  match L.next p with
  | some y => L.setSlot y c
  | none => L

def push (L : ParkerList) (p : Parker) : ParkerList :=
  let L := L.setNext p L.head
  let L := L.tellNext p (some (.next p))
  let L := { L with head := some p }
  L.setSlot p (some .head)

def unlink (L : ParkerList) (p : Parker) : ParkerList × Bool :=
  match L.slot p with
  | none => (L, false)
  | some c =>
    let L := L.store c (L.next p)
    let L := L.tellNext p (L.slot p)
    ((L.setSlot p none).setNext p none, true)

end ParkerList

/-! ### The per-fd index -/

/-- `by_fd` has `cap` entries; those past `cap` are not there. -/
structure FdIndex where
  byFd : ℕ → Option Parker
  cap : ℕ
  nextByFd : Parker → Option Parker
  prevByFd : Parker → Option Parker

/-- The loop `while (newcap <= (size_t)fd) newcap *= 2`. -/
def doubleAbove (fd newcap : ℕ) : ℕ :=
  if 0 < newcap ∧ newcap ≤ fd then doubleAbove fd (newcap * 2) else newcap
termination_by fd + 1 - newcap
decreasing_by omega

namespace FdIndex

/-- `pool->by_fd[fd] == p`, with the bounds checked first. -/
def IsFirst (I : FdIndex) (fd : ℤ) (p : Parker) : Prop :=
  0 ≤ fd ∧ fd.toNat < I.cap ∧ I.byFd fd.toNat = some p

instance (I : FdIndex) (fd : ℤ) (p : Parker) : Decidable (I.IsFirst fd p) :=
  inferInstanceAs (Decidable (_ ∧ _ ∧ _))

def setBucket (I : FdIndex) (fd : ℤ) (p : Option Parker) : FdIndex :=
  { I with byFd := update I.byFd fd.toNat p }

def setNext (I : FdIndex) (p : Parker) (q : Option Parker) : FdIndex :=
  { I with nextByFd := update I.nextByFd p q }

def setPrev (I : FdIndex) (p : Parker) (q : Option Parker) : FdIndex :=
  { I with prevByFd := update I.prevByFd p q }

def clearStale (I : FdIndex) (fd : ℤ) (p : Parker) : FdIndex :=
  if I.IsFirst fd p then I.setBucket fd none else I

/-- `runloom_parker_fd_index_ensure`: `none` for -1. -/
def ensure (I : FdIndex) (fd : ℤ) ( realloc : Bool) : Option FdIndex :=
  if fd < 0 then none
  else if fd.toNat < I.cap then some I
  else if realloc then
    some { I with
      byFd := fun f => if f < I.cap then I.byFd f else none
      cap := doubleAbove fd.toNat (if I.cap = 0 then 256 else I.cap * 2) }
  else none

def push (I : FdIndex) (fd : ℤ) (p : Parker) : FdIndex :=
  let first := I.byFd fd.toNat
  let I := I.setNext p first
  let I := match first with
    | some q => I.setPrev q (some p)
    | none => I
  I.setBucket fd (some p)

/-- The removal, and whether there was anything to remove. -/
def unlink (I : FdIndex) (fd : ℤ) (p : Parker) : FdIndex × Bool :=
  let touched := (I.prevByFd p).isSome
  let I := match I.prevByFd p with
    | some z => I.setNext z (I.nextByFd p)
    | none => I
  let first : Bool := decide (I.IsFirst fd p)
  let I := if first then I.setBucket fd (I.nextByFd p) else I
  let I := match I.nextByFd p with
    | some y => I.setPrev y (I.prevByFd p)
    | none => I
  ((I.setPrev p none).setNext p none, touched || first)

/-- No parker of this pool is in the bucket of `fd`. -/
def IsEmpty (I : FdIndex) (fd : ℤ) : Prop := I.cap ≤ fd.toNat ∨ I.byFd fd.toNat = none

instance (I : FdIndex) (fd : ℤ) : Decidable (I.IsEmpty fd) := inferInstanceAs (Decidable (_ ∨ _))

end FdIndex

/-! ### The deadline heap -/

/-- `heapIndex p = none` is a `heap_index` of -1. -/
structure DeadlineHeap where
  arr : ℕ → Parker
  size : ℕ
  cap : ℕ
  heapIndex : Parker → Option ℕ

namespace DeadlineHeap

variable (less : Parker → Parker → Bool)

/-- `runloom_dh_grow`: `none` for -1. -/
def grow (H : DeadlineHeap) ( realloc : Bool) : Option DeadlineHeap :=
  if realloc then some { H with cap := if H.cap = 0 then 64 else H.cap * 2 } else none

/-- `runloom_dh_swap`. -/
def swap (H : DeadlineHeap) (i j : ℕ) : DeadlineHeap :=
  { H with
    arr := update (update H.arr i (H.arr j)) j (H.arr i)
    heapIndex := update (update H.heapIndex (H.arr j) (some i)) (H.arr i) (some j) }

/-- `runloom_dh_sift_up`. -/
def siftUp (H : DeadlineHeap) (i : ℕ) : DeadlineHeap :=
  if 0 < i then
    let parent := (i - 1) / 2
    if less (H.arr i) (H.arr parent) then (H.swap i parent).siftUp parent else H
  else H
termination_by i
decreasing_by omega

/-- The least of `i` and its children. -/
def best (H : DeadlineHeap) (i : ℕ) : ℕ :=
  let l := 2 * i + 1
  let r := 2 * i + 2
  let best := if l < H.size ∧ less (H.arr l) (H.arr i) then l else i
  if r < H.size ∧ less (H.arr r) (H.arr best) then r else best

theorem best_spec (H : DeadlineHeap) (i : ℕ) :
    H.best less i = i ∨ i < H.best less i ∧ H.best less i < H.size := by
  unfold best
  grind

/-- `runloom_dh_sift_down`. -/
def siftDown (H : DeadlineHeap) (i : ℕ) : DeadlineHeap :=
  if H.best less i = i then H else (H.swap i (H.best less i)).siftDown (H.best less i)
termination_by H.size - i
decreasing_by
  have := H.best_spec less i
  show H.size - _ < _
  omega

/-- The heap with room for one more entry, unless there is no memory for it. -/
def room (H : DeadlineHeap) ( realloc : Bool) : Option DeadlineHeap :=
  if H.cap ≤ H.size then H.grow realloc else some H

/-- `runloom_dh_insert`. -/
def insert (H : DeadlineHeap) (p : Parker) (deadlineNs : ℤ) ( realloc : Bool) : DeadlineHeap :=
  if deadlineNs < 0 ∨ (H.heapIndex p).isSome then H
  else
    match H.room realloc with
    | none => H
    | some H =>
      let H' := { H with
        arr := update H.arr H.size p
        heapIndex := update H.heapIndex p (some H.size)
        size := H.size + 1 }
      H'.siftUp less H.size

/-- `runloom_dh_remove`. -/
def remove (H : DeadlineHeap) (p : Parker) : DeadlineHeap :=
  match H.heapIndex p with
  | none => H
  | some i =>
    if H.size ≤ i then H
    else
      let n := H.size - 1
      let H := { H with heapIndex := update H.heapIndex p none, size := n }
      if i = n then H
      else
        let q := H.arr n
        let H := { H with arr := update H.arr i q, heapIndex := update H.heapIndex q (some i) }
        (H.siftUp less i).siftDown less i

end DeadlineHeap

/-! ### The dispatch mask -/

/-- `runloom_fd_poolmask` and its capacity, once published. -/
structure Poolmask where
  cap : ℕ
  words : ℕ → BitVec 64

/-- `ready` is a `runloom_fd_poolmask_state` of 2. -/
structure FdMask where
  table : Option Poolmask
  ready : Bool

/-- What the system answers during a link. -/
structure Answers where
  fdRealloc : Bool
  dhRealloc : Bool
  maskCalloc : Bool
  rlimit : Option ℕ

/-- The doubling of the capacity up to the limit, or to `1 << 21`. -/
def doubleToward (want : ℕ) : ℕ → ℕ → ℕ
  | 0, c => c
  | fuel + 1, c => if c < want ∧ c < 2 ^ 21 then doubleToward want fuel (c * 2) else c

/-- The capacity of the mask; `rlimit` is a finite limit on open descriptors. -/
def poolmaskCap (rlimit : Option ℕ) : ℕ :=
  match rlimit with
  | some want => if 0 < want then doubleToward want 8 (2 ^ 13) else 2 ^ 16
  | none => 2 ^ 16

namespace FdMask

/-- `runloom_fd_poolmask_init_once`, by a caller that no other one competes with. -/
def initOnce (M : FdMask) (o : Answers) : FdMask :=
  if M.ready then M
  else
    { ready := true
      table := if o.maskCalloc then some ⟨poolmaskCap o.rlimit, fun _ => 0⟩ else M.table }

def modify (M : FdMask) (fd : ℤ) (f : BitVec 64 → BitVec 64) : FdMask :=
  match M.table with
  | none => M
  | some m =>
    if fd.toNat < m.cap then
      { M with table := some { m with words := update m.words fd.toNat (f (m.words fd.toNat)) } }
    else M

/-- `runloom_fd_poolmask_set`. -/
def set (M : FdMask) (pidx : ℕ) (fd : ℤ) (o : Answers) : FdMask :=
  if 64 ≤ pidx ∨ fd < 0 then M
  else
    let M := if M.table.isNone then M.initOnce o else M
    M.modify fd (· ||| BitVec.twoPow 64 pidx)

/-- `runloom_fd_poolmask_clear`. -/
def clear (M : FdMask) (pidx : ℕ) (fd : ℤ) : FdMask :=
  if 64 ≤ pidx ∨ fd < 0 then M else M.modify fd (· &&& ~~~BitVec.twoPow 64 pidx)

end FdMask

/-! ### The pool -/

/-- `pidx` is the index of the pool, `owner g` is `g->owner`, `sim` is `runloom_sim_enabled`. -/
structure Config where
  pidx : ℕ
  owner : ℕ → Option ℕ
  goid : ℕ → ℤ
  sim : Bool

/-- What a parker waits for: the fields that `runloom_netpoll_wait_fd` fills in. -/
structure Request where
  fd : ℤ
  deadlineNs : ℤ
  g : Option ℕ
  hub : Option ℕ

/-- `parked` is `netpoll_parked`, `netpollParker` the back pointer of each fiber. -/
structure State where
  request : Parker → Request
  list : ParkerList
  index : FdIndex
  dh : DeadlineHeap
  mask : FdMask
  total : ℤ
  linkCount : ℕ
  parked : ℕ → ℤ
  netpollParker : ℕ → Option Parker

variable (cfg : Config)

/-- `runloom_dh_less`. -/
def dhLess (request : Parker → Request) (a b : Parker) : Bool :=
  if (request a).deadlineNs ≠ (request b).deadlineNs then
    decide ((request a).deadlineNs < (request b).deadlineNs)
  else if !cfg.sim then false
  else decide ((request a).g.elim 0 cfg.goid < (request b).g.elim 0 cfg.goid)

/-- The scheduler whose `netpoll_parked` a parker is counted in. -/
def countedOwner (r : Request) : Option ℕ := if r.hub = none then r.g.bind cfg.owner else none

/-- The counter of the owner of a parker, moved by `n`. -/
def addParked (parked : ℕ → ℤ) (r : Request) (n : ℤ) : ℕ → ℤ :=
  match countedOwner cfg r with
  | some o => update parked o (parked o + n)
  | none => parked

/-- The back pointer is cleared where it still points to `p`. -/
def dropParker (netpollParker : ℕ → Option Parker) (r : Request) (p : Parker) : ℕ → Option Parker :=
  match r.g with
  | some g => if netpollParker g = some p then update netpollParker g none else netpollParker
  | none => netpollParker

namespace State

/-- What `runloom_netpoll_wait_fd` writes before it links the parker it acquired. -/
def prepare (s : State) (p : Parker) (r : Request) : State :=
  { s with
    request := update s.request p r
    netpollParker := match r.g with
      | some g => update s.netpollParker g (some p)
      | none => s.netpollParker }

def clearStale (s : State) (p : Parker) : State :=
  { s with list := s.list.clearStale p, index := s.index.clearStale (s.request p).fd p }

/-- The push on the bucket: without room in the index the parker stays on the list alone. -/
def pushBucket (s : State) (p : Parker) (o : Answers) : State :=
  let fd := (s.request p).fd
  let I := (s.index.setPrev p none).setNext p none
  match I.ensure fd o.fdRealloc with
  | none => { s with index := I }
  | some I => { s with index := I.push fd p, mask := s.mask.set cfg.pidx fd o }

def dhInsert (s : State) (p : Parker) (o : Answers) : State :=
  { s with dh := s.dh.insert (dhLess cfg s.request) p (s.request p).deadlineNs o.dhRealloc }

/-- `runloom_parker_link`. -/
def parkerLink (s : State) (p : Parker) (o : Answers) : State :=
  let s := s.clearStale p
  let s := { s with list := s.list.push p }
  let s := s.pushBucket cfg p o
  let s := s.dhInsert cfg p o
  { s with
    total := s.total + 1
    parked := addParked cfg s.parked (s.request p) 1
    linkCount := s.linkCount + 1 }

def uncount (s : State) (p : Parker) : State :=
  { s with
    total := s.total - 1
    parked := addParked cfg s.parked (s.request p) (-1)
    netpollParker := dropParker s.netpollParker (s.request p) p }

/-- `runloom_parker_unlink`, with the value it returns. -/
def parkerUnlink (s : State) (p : Parker) : State × Bool :=
  let fd := (s.request p).fd
  let (L, onList) := s.list.unlink p
  let (I, inBucket) := s.index.unlink fd p
  -- The bit goes when the bucket of this pool is empty, also in a repeated unlink.
  let M := if 0 ≤ fd ∧ I.IsEmpty fd then s.mask.clear cfg.pidx fd else s.mask
  let inHeap := (s.dh.heapIndex p).isSome
  let H := if inHeap then s.dh.remove (dhLess cfg s.request) p else s.dh
  let touched := onList || inBucket || inHeap
  let s := { s with list := L, index := I, mask := M, dh := H }
  (if touched then s.uncount cfg p else s, touched)

end State

inductive Call where
  | link (p : Parker) (r : Request) (o : Answers)
  | unlink (p : Parker)

/-- `runloom_parker_pool_acquire` returns a parker that is on no list. -/
def step (s : State) : Call → Option State
  | .link p r o => if s.list.slot p = none then some ((s.prepare p r).parkerLink cfg p o) else none
  | .unlink p => some (s.parkerUnlink cfg p).1

/-- An empty pool.  The mask may have been set up by another pool. -/
structure Init (s : State) : Prop where
  head : s.list.head = none
  next (p : Parker) : s.list.next p = none
  slot (p : Parker) : s.list.slot p = none
  byFd (fd : ℕ) : s.index.byFd fd = none
  nextByFd (p : Parker) : s.index.nextByFd p = none
  prevByFd (p : Parker) : s.index.prevByFd p = none
  size : s.dh.size = 0
  heapIndex (p : Parker) : s.dh.heapIndex p = none
  bit : ∀ m ∈ s.mask.table, ∀ fd, (m.words fd).getLsbD cfg.pidx = false
  total : s.total = 0
  parked (o : ℕ) : s.parked o = 0

def system : System State Call where
  init := Init cfg
  step := step cfg

end Runloom.ParkerPool
