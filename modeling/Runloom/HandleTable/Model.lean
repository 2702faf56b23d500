import Mathlib.Algebra.Group.Nat.Defs
import Mathlib.Data.List.Range
import Runloom.Transition.System

/-!
# The generation-stamped handle table

Model of `rl_handle.c`.  A handle names a slot and the generation it was issued in; a slot packs its generation and
its reference count in one atomic word, so that a pin is a single CAS.

One step of a thread is one atomic access, one section under the table lock, or one of the plain accesses that the
protocol makes exclusive.
-/

namespace Runloom.HandleTable

open Transition

/-- The word `genref`, generation and reference count of 32 bits each. -/
structure Genref where
  gen : ℕ
  rc : ℕ
deriving DecidableEq

/-- `RL_PACK`. -/
def pack (gen rc : ℕ) : Genref := ⟨gen % 2 ^ 32, rc % 2 ^ 32⟩

/-- `rl_handle_t`: the slot index and the generation. -/
structure Handle where
  gen : ℕ
  idx : ℕ
deriving DecidableEq

/-- `RL_HANDLE_NULL`; slot 0 is reserved, so no handle is equal to it. -/
def handleNull : Handle := ⟨0, 0⟩

structure Slot (α φ : Type*) where
  ptr : Option α
  freeFn : Option φ
  genref : Genref
deriving DecidableEq

/-- `RL_HANDLE_SEG_BITS` and `RL_HANDLE_MAX_SEGS`, with what the sources rely on. -/
structure Config where
  segBits : ℕ
  maxSegs : ℕ
  one_le_segBits : 1 ≤ segBits
  index_fits : maxSegs * 2 ^ segBits ≤ 2 ^ 32

/-- Where a thread is in one of the operations. -/
inductive Pc (α φ : Type*) where
  | idle
  /-- `rl_handle_register`, off the freelist. -/
  | regGot (idx : ℕ) (p : α) (fn : Option φ)
  | regGen (idx gen : ℕ) (p : α) (fn : Option φ)
  | regSet (idx gen : ℕ) (p : α) (fn : Option φ)
  /-- `rl_handle_pin`. -/
  | pinLoad (h : Handle)
  | pinTest (h : Handle) (gr : Genref)
  | pinRead (h : Handle)
  | pinDone (h : Handle) (r : Option α)
  /-- `rl_handle_deref`, for an unpin, a release, or a `rl_handle_release_wait`. -/
  | derefLoad (h : Handle) (wait : Bool)
  | derefTest (h : Handle) (gr : Genref) (wait : Bool)
  /-- `rl_handle_reclaim`. -/
  | recRead (h : Handle) (wait : Bool)
  | recStore (h : Handle) (p : Option α) (fn : Option φ) (wait : Bool)
  | recFree (h : Handle) (p : Option α) (fn : Option φ) (wait : Bool)
  | recPush (h : Handle) (wait : Bool)
  /-- The wait of `rl_handle_release_wait`. -/
  | spin (h : Handle)
deriving DecidableEq

/-- The last five fields are history: what each handle was issued for, the pins out, the owner's references, the
frees and the reclaims. -/
structure State (α φ T : Type*) where
  slot : ℕ → Slot α φ
  nsegs : ℕ
  free : List ℕ
  pc : T → Pc α φ
  issued : Handle → Option (α × Option φ)
  held : Handle → ℕ
  owner : Handle → Bool
  finalized : Handle → List (Option φ × Option α)
  reclaims : ℕ → ℕ

inductive Action (α φ T : Type*) where
  /-- `callocOk`: whether the allocation of a new segment would succeed. -/
  | register (t : T) (p : α) (fn : Option φ) (callocOk : Bool)
  | pin (t : T) (h : Handle)
  | unpin (t : T) (h : Handle)
  | release (t : T) (h : Handle) (wait : Bool)
  | step (t : T)

variable {α φ T : Type*} [DecidableEq T]

namespace State

def goto (s : State α φ T) (t : T) (pc : Pc α φ) : State α φ T :=
  { s with pc := update s.pc t pc }

def setSlot (s : State α φ T) (i : ℕ) (x : Slot α φ) : State α φ T :=
  { s with slot := update s.slot i x }

def setGenref (s : State α φ T) (i : ℕ) (gr : Genref) : State α φ T :=
  s.setSlot i { s.slot i with genref := gr }

/-- `rl_handle_slot`: the slot behind an index, if its segment exists. -/
def lookup (cfg : Config) (s : State α φ T) (idx : ℕ) : Option (Slot α φ) :=
  if s.nsegs ≤ idx / 2 ^ cfg.segBits then none else some (s.slot idx)

/-- `rl_handle_grow_locked`: a new segment, its slots pushed in index order. -/
def grow (cfg : Config) (s : State α φ T) (callocOk : Bool) : Option (State α φ T) :=
  if cfg.maxSegs ≤ s.nsegs ∨ callocOk = false then none
  else
    -- Slot 0 of the first segment stays reserved.
    let start := if s.nsegs = 0 then 1 else 0
    let fresh := (List.range' (s.nsegs * 2 ^ cfg.segBits + start) (2 ^ cfg.segBits - start))
    some { s with nsegs := s.nsegs + 1, free := fresh.reverse ++ s.free }

/-- The locked section of `rl_handle_register`. -/
def takeSlot (cfg : Config) (s : State α φ T) (t : T) (p : α) (fn : Option φ) (callocOk : Bool) :
    Option (State α φ T) :=
  let s' := match s.free with
    | [] => s.grow cfg callocOk
    | _ :: _ => some s
  match s' with
  | none => some s
  | some s' =>
    match s'.free with
    | [] => none
    | idx :: rest => some ({ s' with free := rest }.goto t (.regGot idx p fn))

/-- The release store of `rl_handle_register`, which issues the handle. -/
def issue (s : State α φ T) (idx gen : ℕ) (p : α) (fn : Option φ) : State α φ T :=
  { s.setGenref idx (pack gen 1) with
    issued := update s.issued ⟨gen, idx⟩ (some (p, fn))
    owner := update s.owner ⟨gen, idx⟩ true }

/-- One turn of the loop of `rl_handle_pin`. -/
def pinTest (s : State α φ T) (t : T) (h : Handle) (gr : Genref) : State α φ T :=
  if gr.gen ≠ h.gen ∨ gr.rc = 0 then s.goto t (.pinDone h none)
  else if (s.slot h.idx).genref = gr then
    (s.setGenref h.idx (pack h.gen (gr.rc + 1))).goto t (.pinRead h)
  else s.goto t (.pinTest h (s.slot h.idx).genref)

def derefDone (h : Handle) (wait : Bool) : Pc α φ := if wait then .spin h else .idle

/-- One turn of the loop of `rl_handle_deref`. -/
def derefTest (s : State α φ T) (t : T) (h : Handle) (gr : Genref) (wait : Bool) : State α φ T :=
  if gr.gen ≠ h.gen ∨ gr.rc = 0 then s.goto t (derefDone h wait)
  else if (s.slot h.idx).genref = gr then
    (s.setGenref h.idx (pack h.gen (gr.rc - 1))).goto t
      (if gr.rc - 1 = 0 then .recRead h wait else derefDone h wait)
  else s.goto t (.derefTest h (s.slot h.idx).genref wait)

/-- The store of `rl_handle_reclaim` that invalidates the handles. -/
def bumpGen (s : State α φ T) (h : Handle) : State α φ T :=
  { s.setGenref h.idx (pack (h.gen + 1) 0) with
    reclaims := update s.reclaims h.idx (s.reclaims h.idx + 1) }

end State

open State

def next (cfg : Config) (s : State α φ T) (t : T) : Option (State α φ T) :=
  match s.pc t with
  | .idle => none
  | .regGot idx p fn => some (s.goto t (.regGen idx (s.slot idx).genref.gen p fn))
  | .regGen idx gen p fn =>
    some ((s.setSlot idx { s.slot idx with ptr := some p, freeFn := fn }).goto t (.regSet idx gen p fn))
  | .regSet idx gen p fn => some ((s.issue idx gen p fn).goto t .idle)
  | .pinLoad h =>
    if h = handleNull then some (s.goto t (.pinDone h none))
    else
      match s.lookup cfg h.idx with
      | none => some (s.goto t (.pinDone h none))
      | some x => some (s.goto t (.pinTest h x.genref))
  | .pinTest h gr => some (s.pinTest t h gr)
  | .pinRead h => some (s.goto t (.pinDone h (s.slot h.idx).ptr))
  | .pinDone _ none => some (s.goto t .idle)
  | .pinDone h (some _) =>
    some ({ s with held := update s.held h (s.held h + 1) }.goto t .idle)
  | .derefLoad h wait =>
    match s.lookup cfg h.idx with
    | none => some (s.goto t .idle)
    | some x =>
      some (s.goto t (if h = handleNull then derefDone h wait else .derefTest h x.genref wait))
  | .derefTest h gr wait => some (s.derefTest t h gr wait)
  -- The count is 0, so no pin gets in, and the generation is still that of the handle.
  | .recRead h wait =>
    some ((s.setSlot h.idx { s.slot h.idx with ptr := none, freeFn := none }).goto t
      (.recStore h (s.slot h.idx).ptr (s.slot h.idx).freeFn wait))
  | .recStore h p fn wait => some ((s.bumpGen h).goto t (.recFree h p fn wait))
  | .recFree h p fn wait =>
    -- `if (free_fn != NULL && ptr != NULL) free_fn(ptr)`, see `freeCalls`
    some ({ s with
      finalized := update s.finalized h (s.finalized h ++ [(fn, p)]) }.goto t (.recPush h wait))
  -- The slot is on the freelist only after the free function has returned.
  | .recPush h wait => some ({ s with free := h.idx :: s.free }.goto t (derefDone h wait))
  | .spin h =>
    if (s.slot h.idx).genref.gen = h.gen then some s else some (s.goto t .idle)

def freeCalls (s : State α φ T) (h : Handle) : List (φ × α) :=
  (s.finalized h).filterMap fun
    | (some fn, some p) => some (fn, p)
    | _ => none

/-- An unpin needs a returned pin, a release the owner's reference. -/
def step (cfg : Config) (s : State α φ T) : Action α φ T → Option (State α φ T)
  | .register t p fn callocOk =>
    match s.pc t with
    | .idle => s.takeSlot cfg t p fn callocOk
    | _ => none
  | .pin t h =>
    match s.pc t with
    | .idle => some (s.goto t (.pinLoad h))
    | _ => none
  | .unpin t h =>
    match s.pc t with
    | .idle =>
      if 0 < s.held h then
        some ({ s with held := update s.held h (s.held h - 1) }.goto t (.derefLoad h false))
      else none
    | _ => none
  | .release t h wait =>
    match s.pc t with
    | .idle =>
      if s.owner h then
        some ({ s with owner := update s.owner h false }.goto t (.derefLoad h wait))
      else none
    | _ => none
  | .step t => next cfg s t

/-- The table before its first use. -/
structure Init (s : State α φ T) : Prop where
  slot : ∀ i, s.slot i = ⟨none, none, ⟨0, 0⟩⟩
  nsegs : s.nsegs = 0
  free : s.free = []
  pc : ∀ t, s.pc t = .idle
  issued : ∀ h, s.issued h = none
  held : ∀ h, s.held h = 0
  owner : ∀ h, s.owner h = false
  finalized : ∀ h, s.finalized h = []
  reclaims : ∀ i, s.reclaims i = 0

variable (α φ T) in
def handleTable (cfg : Config) : System (State α φ T) (Action α φ T) where
  init := Init
  step := step cfg

/-- Fewer than `2 ^ 32` references of one registration at a time and fewer than `2 ^ 32` reclaims of one slot. -/
def InRange (s : State α φ T) : Action α φ T → Prop
  | .step t =>
    match s.pc t with
    | .pinTest h gr => gr.rc + 1 < 2 ^ 32 ∨ (s.slot h.idx).genref ≠ gr
    | .recStore h _ _ _ => s.reclaims h.idx + 1 < 2 ^ 32
    | _ => True
  | _ => True

instance (s : State α φ T) (a : Action α φ T) : Decidable (InRange s a) := by
  unfold InRange
  split
  · split <;> infer_instance
  · infer_instance

/-- The generations alone stay in range: fewer than `2 ^ 32` reclaims of one slot. -/
def GenInRange (s : State α φ T) : Action α φ T → Prop
  | .step t =>
    match s.pc t with
    | .recStore h _ _ _ => s.reclaims h.idx + 1 < 2 ^ 32
    | _ => True
  | _ => True

instance (s : State α φ T) (a : Action α φ T) : Decidable (GenInRange s a) := by
  unfold GenInRange
  split
  · split <;> infer_instance
  · infer_instance

end Runloom.HandleTable
