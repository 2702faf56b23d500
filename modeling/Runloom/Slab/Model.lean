import Mathlib.Data.Int.Notation
import Runloom.Transition.System

/-!
# The slabs of fiber structs

Model of `runloom_g_slab_alloc`, `runloom_g_slab_free`, `runloom_g_slab_thread_flush` and `runloom_g_slab_reclaim`.
Structs are addresses, 0 is NULL, and a pointer field holds an address.  Each list goes through the field `next` of
its structs.
-/

namespace Runloom.Slab

open Transition

/-- The fields of `runloom_g_t` in the order of their declaration. -/
inductive Field where
  | coro | adviceKey | reqStackSize | callable | cEntry | cArg | result | error | snap | tstate | wakeAt | sleepSeq
  | next | owner | done | refcount | noyield | pctPrio | pctFifo | sleepReal | sleepIo | sleepClaimed | wakePending
  | inSubQueue | wakeState | netpollParker | iouringOp | parkedSafe | parkHub | wakeNext | state
  | arena | batch | passIndex | waitReason | waitReasonHint | tstateOwnerTid
  | id | stateSinceNs | parkFd | parkEvents | limitCounted | regPrev | regNext
deriving DecidableEq

/-- `offsetof`, as the place in the order. -/
def Field.offset (f : Field) : ℕ := f.ctorIdx

def Field.introspection (f : Field) : Bool := Field.id.offset ≤ f.offset

def gstInit : ℕ := 0

def gstFreed : ℕ := 11

abbrev Mem := ℕ → Field → ℕ

def setField (m : Mem) (g : ℕ) (f : Field) (v : ℕ) : Mem := update m g (update (m g) f v)

/-- `memset` to 0 of the fields of `g` from offset `lo` up to `hi`. -/
def memset (m : Mem) (g lo hi : ℕ) : Mem :=
  update m g fun f => if lo ≤ f.offset ∧ f.offset < hi then 0 else m g f

/-- `live` is what `calloc` has returned, `inUse` what an alloc has, and neither was freed. -/
structure State (T : Type*) where
  mem : Mem
  slab : T → ℕ
  slabSize : T → ℤ
  globalSlab : ℕ
  globalSize : ℤ
  live : List ℕ
  inUse : List ℕ

variable {T : Type*} [DecidableEq T]

/-- The walk to the end of a batch: at most `k` more structs, `n` so far. -/
def batchEnd (m : Mem) : ℕ → ℕ → ℕ → ℕ × ℕ
  | 0, tail, n => (tail, n)
  | k + 1, tail, n => if m tail .next = 0 then (tail, n) else batchEnd m k (m tail .next) (n + 1)

/-- The walk to the end of a list, of at most `fuel` structs. -/
def listEnd (m : Mem) : ℕ → ℕ → ℕ → Option (ℕ × ℕ)
  | 0, tail, n => if m tail .next = 0 then some (tail, n) else none
  | fuel + 1, tail, n => if m tail .next = 0 then some (tail, n) else listEnd m fuel (m tail .next) (n + 1)

/-- The loop that frees a list; `none` when it has not ended after `fuel` structs. -/
def freeList (m : Mem) : ℕ → ℕ → List ℕ → Option (List ℕ)
  | 0, head, live => if head = 0 then some live else none
  | fuel + 1, head, live => if head = 0 then some live else freeList m fuel (m head .next) (live.erase head)

namespace State

-- `batch` and `cap` are fixed by the build: 256 and 4096, or 4 and 8 in the builds for tests.
variable (s : State T) (batch cap : ℕ) (t : T)

/-- `runloom_g_global_refill`: the head of the batch, or NULL. -/
def globalRefill : ℕ × State T :=
  let head := s.globalSlab
  if head = 0 then (0, s)
  else
    let (tail, n) := batchEnd s.mem (batch - 1) head 1
    (head, { s with
      globalSlab := s.mem tail .next
      globalSize := s.globalSize - n
      mem := setField s.mem tail .next (s.slab t)
      slab := update s.slab t head
      slabSize := update s.slabSize t (s.slabSize t + n) })

/-- `runloom_g_global_flush`. -/
def globalFlush : State T :=
  let head := s.slab t
  if head = 0 then s
  else
    let (tail, n) := batchEnd s.mem (batch - 1) head 1
    { s with
      slab := update s.slab t (s.mem tail .next)
      slabSize := update s.slabSize t (s.slabSize t - n)
      mem := setField s.mem tail .next s.globalSlab
      globalSlab := head
      globalSize := s.globalSize + n }

def scrub (m : Mem) (g : ℕ) : Mem :=
  let m := memset m g 0 Field.state.offset
  let m := setField m g .state gstInit
  memset m g Field.arena.offset Field.id.offset

def reuse (g : ℕ) : State T :=
  { s with
    slab := update s.slab t (s.mem g .next)
    slabSize := update s.slabSize t (s.slabSize t - 1)
    mem := scrub s.mem g
    inUse := g :: s.inUse }

/-- The cold path; `fresh` is what `calloc` returns. -/
def cold (fresh : ℕ) : ℕ × State T :=
  if fresh = 0 then (0, s)
  else
    (fresh, { s with
      mem := update s.mem fresh fun _ => 0
      live := fresh :: s.live
      inUse := fresh :: s.inUse })

/-- `runloom_g_slab_alloc`; `fault` is the injected failure. -/
def slabAlloc (fault : Bool) (fresh : ℕ) : ℕ × State T :=
  if fault then (0, s)
  else if s.slab t ≠ 0 then (s.slab t, s.reuse t (s.slab t))
  else
    let (g, s) := s.globalRefill batch t
    if g ≠ 0 then (g, s.reuse t g) else s.cold fresh

def put (g : ℕ) : State T :=
  { s with
    mem := setField (setField s.mem g .state gstFreed) g .next (s.slab t)
    slab := update s.slab t g
    slabSize := update s.slabSize t (s.slabSize t + 1)
    inUse := s.inUse.erase g }

/-- `runloom_g_slab_free`. -/
def slabFree (g : ℕ) : State T :=
  let s := s.put t g
  if (cap : ℤ) < s.slabSize t then s.globalFlush batch t else s

/-- `runloom_g_slab_thread_flush`. -/
def threadFlush : Option (State T) :=
  let head := s.slab t
  if head = 0 then some s
  else
    match listEnd s.mem s.live.length head 1 with
    | none => none
    | some (tail, n) =>
      some { s with
        slab := update s.slab t 0
        slabSize := update s.slabSize t 0
        mem := setField s.mem tail .next s.globalSlab
        globalSlab := head
        globalSize := s.globalSize + n }

/-- The second half of `runloom_g_slab_reclaim`. -/
def freePool : Option (State T) :=
  match freeList s.mem s.live.length s.globalSlab s.live with
  | none => none
  | some live => some { s with globalSlab := 0, globalSize := 0, live := live }

end State

/-- `write` is the rest of the program, on structs in use and on any introspection block. -/
inductive Action (T : Type*) where
  | alloc (t : T) (fault : Bool) (fresh : ℕ)
  | free (t : T) (g : ℕ)
  | threadFlush (t : T)
  | freePool
  | write (g : ℕ) (f : Field) (v : ℕ)

/-- `calloc` returns NULL or a struct that is not live. -/
def step (batch cap : ℕ) (s : State T) : Action T → Option (State T)
  | .alloc t fault fresh => if fresh ∈ s.live then none else some (s.slabAlloc batch t fault fresh).2
  | .free t g => if g ∈ s.inUse then some (s.slabFree batch cap t g) else none
  | .threadFlush t => s.threadFlush t
  | .freePool => s.freePool
  | .write g f v =>
    if g ∈ s.inUse ∨ f.introspection = true then some { s with mem := setField s.mem g f v } else none

structure Init (s : State T) : Prop where
  slab (t : T) : s.slab t = 0
  slabSize (t : T) : s.slabSize t = 0
  globalSlab : s.globalSlab = 0
  globalSize : s.globalSize = 0
  live : s.live = []
  inUse : s.inUse = []

def system (batch cap : ℕ) : System (State T) (Action T) where
  init := Init
  step := step batch cap

end Runloom.Slab
