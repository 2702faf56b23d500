import Mathlib.Algebra.BigOperators.Group.Finset.Basic
import Runloom.HandleTable.Model

/-!
# The slots of the handle table

Model of `rl_handle.c` with its memory: the segments are blocks that `calloc` hands out, the freelist runs through the
`next_free` fields of the slots, and `rl_handle_live` is counted.  Any thread may pass any handle to any operation; a
reference need not be dropped by whoever took it, nor only once.
-/

namespace Runloom.HandleTable.Slots

open Transition

structure Slot (α φ : Type*) where
  ptr : Option α
  freeFn : Option φ
  genref : Genref
  nextFree : ℕ

/-- A slot as `calloc` returns it. -/
def Slot.zero (α φ : Type*) : Slot α φ := ⟨none, none, ⟨0, 0⟩, 0⟩

/-- `RL_SLOT_NONE`. -/
def slotNone : ℕ := 0

/-- Where a thread is in one of the operations. -/
inductive Pc (α φ : Type*) where
  | idle
  /-- `rl_handle_register`, off the freelist, with the slot written. -/
  | regGot (idx : ℕ) (p : α) (fn : Option φ)
  | regGen (idx gen : ℕ) (p : α) (fn : Option φ)
  | regSet (idx gen : ℕ)
  | regLive (idx gen : ℕ)
  | regDone (h : Handle)
  /-- `RL_HANDLE_NULL` is returned. -/
  | regFail
  /-- `rl_handle_pin`. -/
  | pinLoad (h : Handle)
  | pinTest (h : Handle) (gr : Genref)
  | pinRead (h : Handle)
  | pinDone (r : Option α)
  /-- `rl_handle_deref`, for an unpin or a release. -/
  | derefLoad (h : Handle)
  | derefTest (h : Handle) (gr : Genref)
  /-- `rl_handle_reclaim`. -/
  | recRead (h : Handle)
  | recStore (h : Handle) (p : Option α) (fn : Option φ)
  | recFree (h : Handle) (p : Option α) (fn : Option φ)
  | recLive (h : Handle)
  | recPush (h : Handle)
deriving DecidableEq

/-- `mem b` is the block at address `b`; `segs` is `rl_handle_segs`. -/
structure State (α φ T : Type*) where
  mem : ℕ → ℕ → Slot α φ
  segs : ℕ → ℕ
  nsegs : ℕ
  freeHead : ℕ
  live : ℤ
  lockReady : Bool
  pc : T → Pc α φ

/-- `calloc` is the block that an allocation would return. -/
inductive Action (α φ T : Type*) where
  | register (t : T) (p : Option α) (fn : Option φ) (calloc : Option ℕ)
  | pin (t : T) (h : Handle)
  | unpin (t : T) (h : Handle)
  | release (t : T) (h : Handle)
  | step (t : T)

variable {α φ T : Type*} (cfg : Config)

/-- `RL_HANDLE_SEG_SLOTS`. -/
def segSlots : ℕ := 2 ^ cfg.segBits

namespace State

def size (s : State α φ T) : ℕ := s.nsegs * segSlots cfg

def addr (s : State α φ T) (idx : ℕ) : ℕ × ℕ := (s.segs (idx / segSlots cfg), idx % segSlots cfg)

def slot (s : State α φ T) (idx : ℕ) : Slot α φ := s.mem (s.addr cfg idx).1 (s.addr cfg idx).2

/-- `rl_handle_slot`. -/
def lookup (s : State α φ T) (idx : ℕ) : Option (Slot α φ) :=
  if s.nsegs ≤ idx / segSlots cfg then none else some (s.slot cfg idx)

def setSlot (s : State α φ T) (idx : ℕ) (x : Slot α φ) : State α φ T :=
  { s with
    mem := update s.mem (s.addr cfg idx).1 (update (s.mem (s.addr cfg idx).1) (s.addr cfg idx).2 x) }

def setGenref (s : State α φ T) (idx : ℕ) (gr : Genref) : State α φ T :=
  s.setSlot cfg idx { s.slot cfg idx with genref := gr }

def pushFree (s : State α φ T) (idx : ℕ) : State α φ T :=
  { s.setSlot cfg idx { s.slot cfg idx with nextFree := s.freeHead } with freeHead := idx }

/-- A new segment, at the address `b`. -/
def addSegment (s : State α φ T) (b : ℕ) : State α φ T :=
  { s with
    mem := update s.mem b fun _ => Slot.zero α φ
    segs := update s.segs s.nsegs b
    nsegs := s.nsegs + 1 }

/-- The indices that `rl_handle_grow_locked` puts on the freelist. -/
def freshSlots (s : State α φ T) : List ℕ :=
  let start := if s.nsegs = 0 then 1 else 0
  List.range' (s.nsegs * segSlots cfg + start) (segSlots cfg - start)

/-- `rl_handle_grow_locked`. -/
def grow (s : State α φ T) (calloc : Option ℕ) : Option (State α φ T) :=
  if cfg.maxSegs ≤ s.nsegs then none
  else calloc.map fun b => (s.freshSlots cfg).foldl (State.pushFree cfg) (s.addSegment b)

variable [DecidableEq T]

def goto (s : State α φ T) (t : T) (pc : Pc α φ) : State α φ T := { s with pc := update s.pc t pc }

/-- `rl_handle_register` up to the end of its locked section. -/
def takeSlot (s : State α φ T) (t : T) (p : Option α) (fn : Option φ) (calloc : Option ℕ) : State α φ T :=
  match p with
  | none => s.goto t .regFail
  | some p =>
    let s := { s with lockReady := true }
    match if s.freeHead = slotNone then s.grow cfg calloc else some s with
    | none => s.goto t .regFail
    | some s => { s with freeHead := (s.slot cfg s.freeHead).nextFree }.goto t (.regGot s.freeHead p fn)

/-- One turn of the loop of `rl_handle_pin`. -/
def pinTest (s : State α φ T) (t : T) (h : Handle) (gr : Genref) : State α φ T :=
  if gr.gen ≠ h.gen ∨ gr.rc = 0 then s.goto t (.pinDone none)
  else if (s.slot cfg h.idx).genref = gr then
    (s.setGenref cfg h.idx (pack h.gen (gr.rc + 1))).goto t (.pinRead h)
  else s.goto t (.pinTest h (s.slot cfg h.idx).genref)

/-- One turn of the loop of `rl_handle_deref`. -/
def derefTest (s : State α φ T) (t : T) (h : Handle) (gr : Genref) : State α φ T :=
  if gr.gen ≠ h.gen ∨ gr.rc = 0 then s.goto t .idle
  else if (s.slot cfg h.idx).genref = gr then
    (s.setGenref cfg h.idx (pack h.gen (gr.rc - 1))).goto t (if gr.rc - 1 = 0 then .recRead h else .idle)
  else s.goto t (.derefTest h (s.slot cfg h.idx).genref)

def next (s : State α φ T) (t : T) : Option (State α φ T) :=
  match s.pc t with
  | .idle => none
  | .regGot idx p fn => some (s.goto t (.regGen idx (s.slot cfg idx).genref.gen p fn))
  | .regGen idx gen p fn =>
    some ((s.setSlot cfg idx { s.slot cfg idx with ptr := some p, freeFn := fn }).goto t (.regSet idx gen))
  | .regSet idx gen => some ((s.setGenref cfg idx (pack gen 1)).goto t (.regLive idx gen))
  | .regLive idx gen => some ({ s with live := s.live + 1 }.goto t (.regDone ⟨gen, idx⟩))
  | .regDone _ | .regFail | .pinDone _ => some (s.goto t .idle)
  | .pinLoad h =>
    if h = handleNull then some (s.goto t (.pinDone none))
    else
      match s.lookup cfg h.idx with
      | none => some (s.goto t (.pinDone none))
      | some x => some (s.goto t (.pinTest h x.genref))
  | .pinTest h gr => some (s.pinTest cfg t h gr)
  | .pinRead h => some (s.goto t (.pinDone (s.slot cfg h.idx).ptr))
  | .derefLoad h =>
    if h = handleNull then some (s.goto t .idle)
    else
      match s.lookup cfg h.idx with
      | none => some (s.goto t .idle)
      | some x => some (s.goto t (.derefTest h x.genref))
  | .derefTest h gr => some (s.derefTest cfg t h gr)
  | .recRead h =>
    some ((s.setSlot cfg h.idx { s.slot cfg h.idx with ptr := none, freeFn := none }).goto t
      (.recStore h (s.slot cfg h.idx).ptr (s.slot cfg h.idx).freeFn))
  -- The generation is that of the handle; its bump wraps in 32 bits.
  | .recStore h p fn => some ((s.setGenref cfg h.idx (pack (h.gen + 1) 0)).goto t (.recFree h p fn))
  -- The call of `free_fn`, which is about the object and not about the table.
  | .recFree h _ _ => some (s.goto t (.recLive h))
  | .recLive h => some ({ s with live := s.live - 1 }.goto t (.recPush h))
  | .recPush h => some ((s.pushFree cfg h.idx).goto t .idle)

end State

def Fresh (s : State α φ T) (calloc : Option ℕ) : Prop := ∀ b ∈ calloc, ∀ seg < s.nsegs, s.segs seg ≠ b

instance (s : State α φ T) (calloc : Option ℕ) : Decidable (Fresh s calloc) :=
  match calloc with
  | none => .isTrue nofun
  | some b => decidable_of_iff (∀ seg < s.nsegs, s.segs seg ≠ b) (by simp [Fresh])

variable [DecidableEq T]

def step (s : State α φ T) : Action α φ T → Option (State α φ T)
  | .register t p fn calloc =>
    match s.pc t with
    | .idle => if Fresh s calloc then some (s.takeSlot cfg t p fn calloc) else none
    | _ => none
  | .pin t h =>
    match s.pc t with
    | .idle => some (s.goto t (.pinLoad h))
    | _ => none
  | .unpin t h | .release t h =>
    match s.pc t with
    | .idle => some (s.goto t (.derefLoad h))
    | _ => none
  | .step t => s.next cfg t

/-- The loop of `rl_handle_self_check`, over every slot but the reserved one. -/
def walk (s : State α φ T) (p : Slot α φ → Bool) : ℕ :=
  ∑ seg ∈ Finset.range s.nsegs, ∑ i ∈ Finset.range (segSlots cfg),
    if seg = 0 ∧ i = 0 then 0 else if p (s.mem (s.segs seg) i) then 1 else 0

/-- `rl_handle_self_check`: how many of its two invariants are violated. -/
def selfCheck (s : State α φ T) : ℕ :=
  if s.lockReady then
    (if ((walk cfg s fun x => 0 < x.genref.rc : ℕ) : ℤ) ≠ s.live then 1 else 0) +
      if 0 < walk cfg s fun x => 0 < x.genref.rc ∧ x.ptr.isNone then 1 else 0
  else 0

/-- The table before its first use. -/
structure Init (s : State α φ T) : Prop where
  nsegs : s.nsegs = 0
  freeHead : s.freeHead = slotNone
  live : s.live = 0
  pc : ∀ t, s.pc t = .idle

variable (α φ T) in
def slotTable : System (State α φ T) (Action α φ T) where
  init := Init
  step := step cfg

/-- No pin finds the count of its slot at the limit. -/
def RcInRange (s : State α φ T) : Action α φ T → Prop
  | .step t =>
    match s.pc t with
    | .pinTest h gr => gr.rc + 1 < 2 ^ 32 ∨ (s.slot cfg h.idx).genref ≠ gr
    | _ => True
  | _ => True

instance (s : State α φ T) (a : Action α φ T) : Decidable (RcInRange cfg s a) := by
  unfold RcInRange
  split
  · split <;> infer_instance
  · infer_instance

end Runloom.HandleTable.Slots
