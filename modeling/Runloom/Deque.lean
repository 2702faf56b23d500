import Mathlib.Data.List.Nodup
import Runloom.Ring
import Runloom.Transition.System

/-!
# The work-stealing deque

Model of `cldeque.c`: a fixed ring of `RUNLOOM_CLDEQUE_CAP` slots with two free-running indices.  The owner pushes and
pops at `bottom`, any number of thieves take from `top`.

The C indices are `long`; they are integers here, so the model says nothing about a deque that has seen `2 ^ 63`
pushes.
-/

namespace Runloom.Deque

open Transition

/-- `val` is the pointer; `tag`, a ghost, is the number of the push that wrote it. -/
structure Item (α : Type*) where
  tag : ℕ
  val : α
deriving DecidableEq

/-- Where the owner is in `runloom_cldeque_push` or `runloom_cldeque_pop`. -/
inductive OwnerPc (α : Type*) where
  | idle
  | pushLoadTop (v : α) (b : ℤ)
  | pushStore (v : α) (b : ℤ)
  | pushBottom (v : α) (b : ℤ)
  | popStore (b : ℤ)
  | popLoadTop (b : ℤ)
  | popReset (b t : ℤ)
  | popLoadItem (b t : ℤ)
  | popCas (t : ℤ) (x : Item α)
  | popRestore (t : ℤ) (won : Option (Item α))

/-- Where a thief is in `runloom_cldeque_steal`. -/
inductive ThiefPc (α : Type*) where
  | idle
  | loadBottom (t : ℤ)
  | loadItem (t : ℤ)
  | cas (t : ℤ) (x : Item α)

/-- The deque, the program counters, and the history: the values pushed and the items returned. -/
structure State (α : Type*) where
  top : ℤ
  bottom : ℤ
  buf : ℕ → Item α
  owner : OwnerPc α
  thief : ℕ → ThiefPc α
  pushed : List α
  returned : List (Item α)
  pushResult : Option ℤ

/-- The first access of a call, or the next one of a call in progress. -/
inductive Action (α : Type*) where
  | push (v : α)
  | pop
  | owner
  | thief (i : ℕ)

section
variable {α : Type*} (k : ℕ)

/-- `RUNLOOM_CLDEQUE_CAP`, a power of two. -/
def cap : ℤ := 2 ^ k

/-- `RUNLOOM_CLDEQUE_MASK`. -/
def mask : ℤ := cap k - 1

/-- The ring slot of an index, `i & RUNLOOM_CLDEQUE_MASK`. -/
def slot (i : ℤ) : ℕ := (Int.land i (mask k)).toNat

def ownerStep (s : State α) : OwnerPc α → Option (State α)
  | .idle => none
  | .pushLoadTop v b =>
    -- the only early return of push: the deque is full
    if cap k ≤ b - s.top then some { s with owner := .idle, pushResult := some (-1) }
    else some { s with owner := .pushStore v b }
  | .pushStore v b =>
    some { s with
      buf := update s.buf (slot k b) ⟨s.pushed.length, v⟩
      owner := .pushBottom v b }
  | .pushBottom v b =>
    some { s with
      bottom := b + 1
      owner := .idle
      pushed := s.pushed ++ [v]
      pushResult := some 0 }
  | .popStore b => some { s with bottom := b, owner := .popLoadTop b }
  | .popLoadTop b =>
    if b < s.top then some { s with owner := .popReset b s.top }
    else some { s with owner := .popLoadItem b s.top }
  | .popReset _ t => some { s with bottom := t, owner := .idle }
  | .popLoadItem b t =>
    -- More than one item: no thief can reach this one, and the owner needs no exchange.
    if t < b then
      some { s with owner := .idle, returned := s.buf (slot k b) :: s.returned }
    else some { s with owner := .popCas t (s.buf (slot k b)) }
  | .popCas t x =>
    if s.top = t then some { s with top := t + 1, owner := .popRestore t (some x) }
    else some { s with owner := .popRestore t none }
  -- Whoever won the last item, the deque is empty at `t + 1`.
  | .popRestore t won =>
    some { s with bottom := t + 1, owner := .idle, returned := won.toList ++ s.returned }

/-- The next access of thief `i`; from `idle` it begins a steal. -/
def thiefStep (s : State α) (i : ℕ) : ThiefPc α → State α
  | .idle => { s with thief := update s.thief i (.loadBottom s.top) }
  | .loadBottom t =>
    if s.bottom ≤ t then { s with thief := update s.thief i .idle }
    else { s with thief := update s.thief i (.loadItem t) }
  | .loadItem t => { s with thief := update s.thief i (.cas t (s.buf (slot k t))) }
  | .cas t x =>
    if s.top = t then
      { s with
        top := t + 1
        thief := update s.thief i .idle
        returned := x :: s.returned }
    else { s with thief := update s.thief i .idle }

def step (s : State α) : Action α → Option (State α)
  | .push v =>
    match s.owner with
    | .idle => some { s with owner := .pushLoadTop v s.bottom }
    | _ => none
  | .pop =>
    match s.owner with
    | .idle => some { s with owner := .popStore (s.bottom - 1) }
    | _ => none
  | .owner => ownerStep k s s.owner
  | .thief i => some (thiefStep k s i (s.thief i))

/-- `runloom_cldeque_init`: both indices zero, the slots uninitialised. -/
structure Init (s : State α) : Prop where
  top : s.top = 0
  bottom : s.bottom = 0
  owner : s.owner = .idle
  thief : ∀ i, s.thief i = .idle
  pushed : s.pushed = []
  returned : s.returned = []

variable (α) in
/-- One owner and any number of thieves on a deque of capacity `2 ^ k`. -/
def deque : System (State α) (Action α) where
  init := Init
  step := step k

/-! ## What the deque holds -/

/-- The end of the live indices: a pop in progress has already lowered `bottom`. -/
def State.hi (s : State α) : ℤ :=
  match s.owner with
  | .popLoadTop b | .popReset b _ | .popLoadItem b _ => b + 1
  | .popCas t _ | .popRestore t _ => t + 1
  | _ => s.bottom

/-- The items of the live indices `[top, hi)`, oldest first. -/
def State.live (s : State α) : List (Item α) :=
  (Int.range s.top s.hi).map fun i => s.buf (slot k i)

/-- The item a pop has claimed and is about to return. -/
def State.inHand (s : State α) : List (Item α) :=
  match s.owner with
  | .popRestore _ won => won.toList
  | _ => []

end

end Runloom.Deque

/-!
## Safety of the work-stealing deque

The invariant behind the deque: `top` never passes the live end, the live window never exceeds the
ring, and a thief that still sees the current `top` holds the item of that slot.  The contested
last element is covered by `lim`, the bound below which a thief may still win.
-/

namespace Runloom.Deque

open Transition List
open State (live hi inHand)

section
variable {α : Type*} {k : ℕ} {s t : State α}

theorem slot_ne {i j : ℤ} (hi : 0 ≤ i) (hij : i < j) (hj : j - i < cap k) : slot k i ≠ slot k j :=
  Ring.maskSlot_ne hi hij hj

/-- The indices a thief can still win: a pop that has read `top < b` owns index `b`. -/
def State.lim (s : State α) : ℤ :=
  match s.owner with
  | .popLoadItem b t => if t < b then b else b + 1
  | _ => s.hi

def OwnerInv (k : ℕ) (s : State α) : Prop :=
  match s.owner with
  | .idle => s.top ≤ s.bottom
  | .pushLoadTop _ b => s.bottom = b ∧ s.top ≤ b
  | .pushStore _ b => s.bottom = b ∧ s.top ≤ b ∧ b - s.top < cap k
  | .pushBottom v b =>
    s.bottom = b ∧ s.top ≤ b ∧ b - s.top < cap k ∧ s.buf (slot k b) = ⟨s.pushed.length, v⟩
  | .popStore b => s.bottom = b + 1 ∧ s.top ≤ b + 1
  | .popLoadTop b => s.bottom = b ∧ s.top ≤ b + 1
  | .popReset b t => s.bottom = b ∧ t = b + 1 ∧ s.top = t
  | .popLoadItem b t =>
    s.bottom = b ∧ t ≤ b ∧ t ≤ s.top ∧ s.top ≤ b + 1 ∧ (t < b → s.top ≤ b)
  | .popCas t x =>
    s.bottom = t ∧ t ≤ s.top ∧ s.top ≤ t + 1 ∧ (s.top = t → x = s.buf (slot k t))
  | .popRestore t _ => s.bottom = t ∧ s.top = t + 1

/-- A thief's `t` is at most `top`; while it equals `top`, the item was read from its slot. -/
def ThiefInv (k : ℕ) (s : State α) : ThiefPc α → Prop
  | .idle => True
  | .loadBottom t => t ≤ s.top
  | .loadItem t => t ≤ s.top ∧ (t = s.top → t < s.lim)
  | .cas t x => t ≤ s.top ∧ (t = s.top → t < s.lim ∧ x = s.buf (slot k t))

structure Inv (k : ℕ) (s : State α) : Prop where
  top_nonneg : 0 ≤ s.top
  room : s.hi - s.top ≤ cap k
  owner : OwnerInv k s
  thief : ∀ i, ThiefInv k s (s.thief i)
  conserved : (s.returned ++ s.inHand ++ s.live k).Perm (s.pushed.mapIdx Item.mk)

/-! ## Frame facts -/

theorem ThiefInv.of_top_lt {p : ThiefPc α} (h : ThiefInv k s p) (hlt : s.top < t.top) :
    ThiefInv k t p := by
  cases p with
  | idle => trivial
  | loadBottom u => exact (lt_of_le_of_lt h hlt).le
  | loadItem u | cas u x => exact ⟨(lt_of_le_of_lt h.1 hlt).le, fun he => absurd h.1 (by omega)⟩

theorem ThiefInv.of_top_eq {p : ThiefPc α} (h : ThiefInv k s p) (heq : t.top = s.top)
    (hlim : s.top < s.lim → s.top < t.lim)
    (hbuf : s.top < s.lim → t.buf (slot k s.top) = s.buf (slot k s.top)) : ThiefInv k t p := by
  cases p with
  | idle => trivial
  | loadBottom u => exact le_of_le_of_eq h heq.symm
  | loadItem u =>
    refine ⟨heq ▸ h.1, fun he => ?_⟩
    obtain rfl : u = s.top := he.trans heq
    exact hlim (h.2 rfl)
  | cas u x =>
    refine ⟨heq ▸ h.1, fun he => ?_⟩
    obtain rfl : u = s.top := he.trans heq
    obtain ⟨hlt, hx⟩ := h.2 rfl
    exact ⟨hlim hlt, hx.trans (hbuf hlt).symm⟩

theorem live_eq_of_eq (htop : t.top = s.top) (hhi : t.hi = s.hi) (hbuf : t.buf = s.buf) :
    t.live k = s.live k := by
  simp only [live, htop, hhi, hbuf]

theorem live_eq_cons (hlt : s.top < s.hi) (htop : t.top = s.top + 1) (hhi : t.hi = s.hi)
    (hbuf : t.buf = s.buf) : s.live k = s.buf (slot k s.top) :: t.live k := by
  simp only [live, Ring.range_eq_cons hlt, map_cons, htop, hhi, hbuf]

theorem live_eq_concat (hle : s.top ≤ t.hi) (htop : t.top = s.top) (hhi : s.hi = t.hi + 1)
    (hbuf : t.buf = s.buf) : s.live k = t.live k ++ [s.buf (slot k t.hi)] := by
  simp only [live, hhi, Ring.range_succ_eq_concat hle, map_append, map_cons, map_nil, htop, hbuf]

theorem live_eq_of_update {x : Item α} (h0 : 0 ≤ s.top) (hroom : s.hi - s.top < cap k)
    (htop : t.top = s.top) (hhi : t.hi = s.hi)
    (hbuf : t.buf = update s.buf (slot k s.hi) x) : t.live k = s.live k := by
  simp only [live, htop, hhi, hbuf]
  refine map_congr_left fun i hi => ?_
  obtain ⟨hlo, hlt⟩ := Int.mem_range_iff.mp hi
  exact update_of_ne (slot_ne (by omega) hlt (by omega)) _ _

/-! ## Thief steps -/

theorem lim_le_hi (s : State α) : s.lim ≤ s.hi := by
  cases hpc : s.owner <;> simp only [State.lim, hi, hpc] <;> omega

theorem Inv.bottom_le_lim (hI : Inv k s) : s.bottom ≤ s.lim := by
  have ho := hI.owner
  cases hpc : s.owner <;> simp only [OwnerInv, State.lim, hi, hpc] at ho ⊢ <;> omega

theorem Inv.set_thief (hI : Inv k s) (i : ℕ) {p : ThiefPc α} (hp : ThiefInv k s p) :
    Inv k { s with thief := update s.thief i p } where
  top_nonneg := hI.top_nonneg
  room := hI.room
  owner := hI.owner
  conserved := hI.conserved
  thief := by
    intro j
    refine ThiefInv.of_top_eq (s := s) ?_ rfl id fun _ => rfl
    by_cases hj : j = i
    · subst hj
      simpa only [update_self] using hp
    · simpa only [update_of_ne hj] using hI.thief j

theorem OwnerInv.take (ho : OwnerInv k s) (hlt : s.top < s.lim) {th : ℕ → ThiefPc α}
    {r : List (Item α)} : OwnerInv k { s with top := s.top + 1, thief := th, returned := r } := by
  cases hpc : s.owner <;> simp only [OwnerInv, State.lim, hi, hpc] at ho hlt ⊢ <;>
    first | omega | skip
  case pushBottom => exact ⟨ho.1, by omega, by omega, ho.2.2.2⟩

theorem Inv.steal (hI : Inv k s) {i : ℕ} {x : Item α} (hlt : s.top < s.lim) (hx : x = s.buf (slot k s.top)) :
    Inv k { s with
      top := s.top + 1
      thief := update s.thief i .idle
      returned := x :: s.returned } where
  top_nonneg := by
    have := hI.top_nonneg
    show 0 ≤ s.top + 1
    omega
  room := by
    have := hI.room
    show s.hi - (s.top + 1) ≤ cap k
    omega
  owner := hI.owner.take hlt
  thief := by
    intro j
    refine ThiefInv.of_top_lt (s := s) ?_ (lt_add_one s.top)
    by_cases hj : j = i
    · subst hj
      simp only [update_self, ThiefInv]
    · simpa only [update_of_ne hj] using hI.thief j
  conserved := by
    have hcons := hI.conserved
    have hlive := live_eq_cons (k := k) (lt_of_lt_of_le hlt (lim_le_hi s)) (t := { s with
      top := s.top + 1
      thief := update s.thief i .idle
      returned := x :: s.returned }) rfl rfl rfl
    rw [hlive, ← hx] at hcons
    exact perm_middle.symm.trans hcons

theorem Inv.thiefStep (hI : Inv k s) (i : ℕ) : Inv k (thiefStep k s i (s.thief i)) := by
  have hp := hI.thief i
  cases hpc : s.thief i with
  | idle => exact hI.set_thief i le_rfl
  | loadBottom u =>
    rw [hpc] at hp
    simp only [Deque.thiefStep]
    split
    · exact hI.set_thief i trivial
    · rename_i hb
      -- `bottom` may be lowered by a pop already, but never past what a thief can win.
      refine hI.set_thief i ⟨hp, fun _ => ?_⟩
      have := hI.bottom_le_lim
      omega
  | loadItem u =>
    rw [hpc] at hp
    exact hI.set_thief i ⟨hp.1, fun he => ⟨hp.2 he, rfl⟩⟩
  | cas u x =>
    rw [hpc] at hp
    simp only [Deque.thiefStep]
    split
    · rename_i he
      obtain ⟨hlt, hx⟩ := hp.2 he.symm
      subst he
      exact hI.steal hlt hx
    · exact hI.set_thief i trivial

/-! ## Owner steps -/

section

variable (hI : Inv k s)
include hI

/-- An owner step that writes neither `top` nor a slot. -/
theorem Inv.of_owner (htop : t.top = s.top) (hthief : t.thief = s.thief)
    (hbuf : t.buf = s.buf) (ho : OwnerInv k t) (hlim : s.top < s.lim → s.top < t.lim)
    (hroom : t.hi - s.top ≤ cap k)
    (hcons : (t.returned ++ t.inHand ++ t.live k).Perm (t.pushed.mapIdx Item.mk)) : Inv k t where
  top_nonneg := htop ▸ hI.top_nonneg
  room := htop ▸ hroom
  owner := ho
  thief := fun i => by
    rw [hthief]
    exact (hI.thief i).of_top_eq htop hlim fun _ => by rw [hbuf]
  conserved := hcons

theorem Inv.of_owner_quiet {b : ℤ} {pc : OwnerPc α} {r : Option ℤ}
    (ho : OwnerInv k { s with bottom := b, owner := pc, pushResult := r })
    (hlim : s.top < s.lim → s.top < State.lim { s with bottom := b, owner := pc, pushResult := r })
    (hhi : hi { s with bottom := b, owner := pc, pushResult := r } = s.hi)
    (hhand : inHand { s with bottom := b, owner := pc, pushResult := r } = s.inHand) :
    Inv k { s with bottom := b, owner := pc, pushResult := r } := by
  refine hI.of_owner rfl rfl rfl ho hlim (hhi ▸ hI.room) ?_
  have hlive := live_eq_of_eq (k := k) (s := s)
    (t := { s with bottom := b, owner := pc, pushResult := r }) rfl hhi rfl
  rw [hlive, hhand]
  exact hI.conserved

theorem Inv.pushStore {v : α} {b : ℤ} (hpc : s.owner = .pushStore v b) : Inv k { s with
      buf := update s.buf (slot k b) ⟨s.pushed.length, v⟩
      owner := .pushBottom v b } := by
  have ho := hI.owner
  simp only [OwnerInv, hpc] at ho
  have hhi : s.hi = b := by simp only [hi, hpc, ho.1]
  have hlim : s.lim = b := by simp only [State.lim, hpc, hhi]
  refine ⟨hI.top_nonneg, ?_, ?_, fun i => ?_, ?_⟩
  · simp only [hi]
    omega
  · exact ⟨ho.1, ho.2.1, ho.2.2, update_self _ _ _⟩
  · refine (hI.thief i).of_top_eq rfl (fun h => ?_) fun h => ?_
    · simp only [State.lim, hi]
      omega
    · exact update_of_ne (slot_ne hI.top_nonneg (by omega) ho.2.2) _ _
  · have hlive := live_eq_of_update (k := k) (s := s) (x := ⟨s.pushed.length, v⟩) hI.top_nonneg
      (by omega) (t := { s with
        buf := update s.buf (slot k b) ⟨s.pushed.length, v⟩
        owner := .pushBottom v b }) rfl (by simp only [hi, hpc]) (by rw [hhi])
    rw [hlive]
    simpa only [inHand, hpc] using hI.conserved

theorem Inv.pushBottom {v : α} {b : ℤ} (hpc : s.owner = .pushBottom v b) : Inv k { s with
      bottom := b + 1
      owner := .idle
      pushed := s.pushed ++ [v]
      pushResult := some 0 } := by
  have ho := hI.owner
  simp only [OwnerInv, hpc] at ho
  obtain ⟨hb, hle, hroom, hslot⟩ := ho
  have hhi : s.hi = b := by simp only [hi, hpc, hb]
  refine hI.of_owner rfl rfl rfl ?_ (fun h => ?_) ?_ ?_
  · simp only [OwnerInv]
    omega
  · simp only [State.lim, hi, hpc] at h ⊢
    omega
  · simp only [hi]
    omega
  · have hlive : live k { s with
        bottom := b + 1
        owner := .idle
        pushed := s.pushed ++ [v]
        pushResult := some 0 } = s.live k ++ [⟨s.pushed.length, v⟩] := by
      simp only [live, hhi]
      rw [← hslot, hi, Ring.range_succ_eq_concat hle, map_append]
      rfl
    have hcons := hI.conserved
    simp only [inHand, hpc] at hcons ⊢
    rw [hlive, mapIdx_concat, ← append_assoc]
    exact hcons.append_right _

theorem Inv.popTake {b t : ℤ} (hpc : s.owner = .popLoadItem b t) (hlt : t < b) :
    Inv k { s with owner := .idle, returned := s.buf (slot k b) :: s.returned } := by
  have ho := hI.owner
  simp only [OwnerInv, hpc] at ho
  obtain ⟨hb, -, -, -, htop⟩ := ho
  have hhi : s.hi = b + 1 := by simp only [hi, hpc]
  have hlim : s.lim = b := by simp only [State.lim, hpc, if_pos hlt]
  have hroom := hI.room
  refine hI.of_owner rfl rfl rfl ?_ (fun h => ?_) ?_ ?_
  · simp only [OwnerInv]
    have := htop hlt
    omega
  · simp only [State.lim, hi]
    omega
  · simp only [hi]
    omega
  · have hlive := live_eq_concat (k := k) (s := s)
      (t := { s with owner := .idle, returned := s.buf (slot k b) :: s.returned })
      (by simp only [hi, hb]; exact htop hlt) rfl (by simp only [hi, hpc, hb]) rfl
    have hcons := hI.conserved
    rw [hlive] at hcons
    simp only [inHand, hi, hpc, hb, append_nil] at hcons ⊢
    refine List.Perm.trans ?_ hcons
    rw [← append_assoc]
    exact perm_append_singleton _ _ |>.symm

theorem Inv.popWin {t : ℤ} {x : Item α} (hpc : s.owner = .popCas t x)
    (htop : s.top = t) : Inv k { s with top := t + 1, owner := .popRestore t (some x) } := by
  have ho := hI.owner
  simp only [OwnerInv, hpc] at ho
  obtain ⟨hb, -, -, hx⟩ := ho
  have hhi : s.hi = t + 1 := by simp only [hi, hpc]
  have h0 := hI.top_nonneg
  refine ⟨?_, ?_, ⟨hb, rfl⟩, fun i => (hI.thief i).of_top_lt ?_, ?_⟩
  · show 0 ≤ t + 1
    omega
  · have := hI.room
    simp only [hi]
    omega
  · show s.top < t + 1
    omega
  · have hcons := hI.conserved
    have hlive := live_eq_cons (k := k) (s := s)
      (t := { s with top := t + 1, owner := .popRestore t (some x) }) (by omega)
      (by rw [htop]) (by simp only [hi, hpc]) rfl
    rw [hlive, htop, ← hx htop] at hcons
    simp only [inHand, hpc, append_nil, Option.toList_some, append_assoc, singleton_append] at hcons ⊢
    exact hcons

theorem Inv.ownerStep (h : ownerStep k s s.owner = some t) : Inv k t := by
  have ho := hI.owner
  cases hpc : s.owner with
  | idle => simp only [hpc, Deque.ownerStep, reduceCtorEq] at h
  | pushLoadTop v b =>
    simp only [hpc, OwnerInv] at ho
    simp only [hpc, Deque.ownerStep] at h
    split at h <;> cases h
    · refine hI.of_owner_quiet (show s.top ≤ s.bottom by omega) ?_ ?_ (by simp only [inHand, hpc]) <;>
        simp only [State.lim, hi, hpc]
      omega
    · refine hI.of_owner_quiet ⟨ho.1, ho.2, show b - s.top < cap k by omega⟩ ?_ ?_ (by simp only [inHand, hpc]) <;>
        simp only [State.lim, hi, hpc]
      omega
  | pushStore v b =>
    simp only [hpc, Deque.ownerStep, Option.some.injEq] at h
    exact h ▸ hI.pushStore hpc
  | pushBottom v b =>
    simp only [hpc, Deque.ownerStep, Option.some.injEq] at h
    exact h ▸ hI.pushBottom hpc
  | popStore b =>
    simp only [hpc, OwnerInv] at ho
    simp only [hpc, Deque.ownerStep, Option.some.injEq] at h
    subst h
    refine hI.of_owner_quiet ⟨rfl, ho.2⟩ ?_ ?_ (by simp only [inHand, hpc]) <;>
      simp only [State.lim, hi, hpc] <;> omega
  | popLoadTop b =>
    simp only [hpc, OwnerInv] at ho
    simp only [hpc, Deque.ownerStep] at h
    split at h <;> cases h
    · refine hI.of_owner_quiet ⟨ho.1, show s.top = b + 1 by omega, rfl⟩ ?_ ?_ (by simp only [inHand, hpc]) <;>
        simp only [State.lim, hi, hpc]
      omega
    · refine hI.of_owner_quiet ⟨ho.1, show s.top ≤ b by omega, le_rfl, ho.2, fun h => h.le⟩ ?_ ?_ (by simp only [inHand, hpc]) <;>
        simp only [State.lim, hi, hpc]
      omega
  | popReset b u =>
    simp only [hpc, OwnerInv] at ho
    simp only [hpc, Deque.ownerStep, Option.some.injEq] at h
    subst h
    refine hI.of_owner_quiet (show s.top ≤ u by omega) ?_ ?_ (by simp only [inHand, hpc]) <;>
      simp only [State.lim, hi, hpc] <;> omega
  | popLoadItem b u =>
    simp only [hpc, OwnerInv] at ho
    simp only [hpc, Deque.ownerStep] at h
    split at h <;> cases h
    · exact hI.popTake hpc ‹_›
    -- One item is left, and owner and thieves race for it from here.
    · obtain rfl : u = b := by omega
      refine hI.of_owner_quiet ?_ ?_ ?_ (by simp only [inHand, hpc])
      · exact ⟨ho.1, ho.2.2.1, ho.2.2.2.1, fun _ => rfl⟩
      all_goals simp only [State.lim, hi, hpc] <;> omega
  | popCas u x =>
    simp only [hpc, OwnerInv] at ho
    simp only [hpc, Deque.ownerStep] at h
    split at h <;> cases h
    · exact hI.popWin hpc ‹_›
    · refine hI.of_owner_quiet ?_ ?_ ?_ (by simp only [inHand, hpc, Option.toList_none])
      · exact ⟨ho.1, show s.top = u + 1 by omega⟩
      all_goals simp only [State.lim, hi, hpc] <;> omega
  | popRestore u won =>
    simp only [hpc, OwnerInv] at ho
    simp only [hpc, Deque.ownerStep, Option.some.injEq] at h
    subst h
    refine hI.of_owner rfl rfl rfl ?_ ?_ ?_ ?_
    · simp only [OwnerInv]
      omega
    · simp only [State.lim, hi, hpc]
      omega
    · have := hI.room
      simp only [hi, hpc] at this ⊢
      omega
    · have hcons := hI.conserved
      have hlive := live_eq_of_eq (k := k) (s := s) (t := { s with
        bottom := u + 1, owner := .idle, returned := won.toList ++ s.returned })
        rfl (by simp only [hi, hpc]) rfl
      rw [hlive]
      simp only [inHand, hpc, append_nil] at hcons ⊢
      exact (perm_append_comm.append_right _).trans hcons

end

theorem Inv.init (h : Init s) : Inv k s := by
  have hcap : 0 < cap k := Int.pow_pos two_pos
  refine ⟨h.top.ge, ?_, ?_, fun i => ?_, ?_⟩
  · simp only [hi, h.owner, h.bottom, h.top]
    omega
  · simp only [OwnerInv, h.owner, h.bottom, h.top, le_refl]
  · simp only [ThiefInv, h.thief]
  · simp [live, hi, inHand, h.owner, h.bottom, h.top, h.returned, h.pushed, Ring.range_eq_nil]

theorem step_push {v : α} (h : step k s (.push v) = some t) :
    s.owner = .idle ∧ t = { s with owner := .pushLoadTop v s.bottom } := by
  simp only [step] at h
  split at h
  · exact ⟨‹_›, (Option.some.inj h).symm⟩
  · cases h

theorem step_pop (h : step k s .pop = some t) :
    s.owner = .idle ∧ t = { s with owner := .popStore (s.bottom - 1) } := by
  simp only [step] at h
  split at h
  · exact ⟨‹_›, (Option.some.inj h).symm⟩
  · cases h

theorem Inv.step {a : Action α} (hI : Inv k s) (h : step k s a = some t) : Inv k t := by
  have ho := hI.owner
  cases a with
  | push v =>
    obtain ⟨hpc, rfl⟩ := step_push h
    simp only [hpc, OwnerInv] at ho
    refine hI.of_owner_quiet ⟨rfl, ho⟩ ?_ ?_ (by simp only [inHand, hpc]) <;>
      simp only [State.lim, hi, hpc]
    omega
  | pop =>
    obtain ⟨hpc, rfl⟩ := step_pop h
    simp only [hpc, OwnerInv] at ho
    refine hI.of_owner_quiet ⟨show s.bottom = _ by omega, show s.top ≤ _ by omega⟩ ?_ ?_
      (by simp only [inHand, hpc]) <;> simp only [State.lim, hi, hpc]
    omega
  | owner => exact hI.ownerStep h
  | thief i =>
    simp only [Deque.step, Option.some.injEq] at h
    exact h ▸ hI.thiefStep i

theorem deque_inv (h : (deque α k).Reachable s) : Inv k s :=
  h.invariant (fun _ => Inv.init) fun _ _ _ hI _ ha => hI.step ha

/-! ## What a step can take -/

theorem nodup_mapIdx_mk (l : List α) : (l.mapIdx Item.mk).Nodup := by
  refine List.Nodup.of_map Item.tag ?_
  have : (l.mapIdx Item.mk).map Item.tag = List.range l.length := by
    refine ext_getElem (by simp) fun i _ _ => ?_
    simp
  rw [this]
  exact nodup_range

def State.taken (s : State α) : List (Item α) := s.inHand ++ s.returned

def TakesLive (k : ℕ) (s t : State α) : Prop :=
  t.taken = s.taken ∨ ∃ i, s.top ≤ i ∧ i < s.hi ∧ t.taken = s.buf (slot k i) :: s.taken

theorem Inv.thiefStep_takes (hI : Inv k s) (i : ℕ) : s.top ≤ (Deque.thiefStep k s i (s.thief i)).top ∧
      TakesLive k s (Deque.thiefStep k s i (s.thief i)) := by
  have hp := hI.thief i
  cases hpc : s.thief i with
  | idle | loadItem u => exact ⟨le_rfl, .inl rfl⟩
  | loadBottom u =>
    simp only [Deque.thiefStep]
    split <;> exact ⟨le_rfl, .inl rfl⟩
  | cas u x =>
    rw [hpc] at hp
    simp only [Deque.thiefStep]
    split
    · rename_i he
      obtain ⟨hlt, rfl⟩ := hp.2 he.symm
      subst he
      have hhi := lt_of_lt_of_le hlt (lim_le_hi s)
      have hhand : s.inHand = [] := by
        have ho := hI.owner
        cases hown : s.owner <;> simp only [inHand, hi, OwnerInv, hown] at ho hhi ⊢
        omega
      refine ⟨(lt_add_one s.top).le, .inr ⟨s.top, le_rfl, hhi, ?_⟩⟩
      have hhand' : inHand { s with
          top := s.top + 1
          thief := update s.thief i .idle
          returned := s.buf (slot k s.top) :: s.returned } = [] := hhand
      simp only [State.taken, hhand, hhand', nil_append]
    · exact ⟨le_rfl, .inl rfl⟩

theorem Inv.ownerStep_takes (hI : Inv k s) (h : Deque.ownerStep k s s.owner = some t) :
    s.top ≤ t.top ∧ TakesLive k s t := by
  have ho := hI.owner
  cases hpc : s.owner <;> simp only [hpc, Deque.ownerStep, OwnerInv, reduceCtorEq] at h ho <;>
    try split at h
  all_goals cases h
  case popLoadItem.isTrue b u hlt =>
    have htop := ho.2.2.2.2 hlt
    refine ⟨le_rfl, .inr ⟨b, htop, ?_, ?_⟩⟩
    · simp only [hi, hpc, lt_add_one]
    · simp only [State.taken, inHand, hpc, nil_append]
  case popCas.isTrue u x he =>
    obtain rfl := he
    refine ⟨(lt_add_one s.top).le, .inr ⟨s.top, le_rfl, ?_, ?_⟩⟩
    · simp only [hi, hpc, lt_add_one]
    · simp only [State.taken, inHand, hpc, ← ho.2.2.2 rfl, Option.toList_some, nil_append, singleton_append]
  all_goals exact ⟨le_rfl, .inl (by simp [State.taken, inHand, hpc])⟩

theorem Inv.step_takes {a : Action α} (hI : Inv k s) (h : Deque.step k s a = some t) :
    s.top ≤ t.top ∧ TakesLive k s t := by
  cases a with
  | push v =>
    obtain ⟨hpc, rfl⟩ := step_push h
    exact ⟨le_rfl, .inl (by simp only [State.taken, inHand, hpc])⟩
  | pop =>
    obtain ⟨hpc, rfl⟩ := step_pop h
    exact ⟨le_rfl, .inl (by simp only [State.taken, inHand, hpc])⟩
  | owner => exact hI.ownerStep_takes h
  | thief i =>
    simp only [Deque.step, Option.some.injEq] at h
    exact h ▸ hI.thiefStep_takes i

/-- Each push is accounted for once among the returned items, the item in hand and the live indices; a step claims
at most one. -/
theorem deque_items_conserved (h : (deque α k).Reachable s) : (s.returned ++ s.inHand ++ s.live k).Nodup ∧
      (s.returned ++ s.inHand ++ s.live k).Perm (s.pushed.mapIdx Item.mk) ∧
      ∀ a t, step k s a = some t → s.top ≤ t.top ∧ TakesLive k s t ∧
        (∀ v, a = .push v → t = { s with owner := .pushLoadTop v s.bottom }) ∧
        ∀ v b, s.owner = .pushLoadTop v b → a = .owner → cap k ≤ s.bottom - s.top →
          t = { s with owner := .idle, pushResult := some (-1) } := by
  have hI := deque_inv h
  refine ⟨hI.conserved.nodup_iff.mpr (nodup_mapIdx_mk _), hI.conserved, fun a t ha => ?_⟩
  obtain ⟨htop, htakes⟩ := hI.step_takes ha
  refine ⟨htop, htakes, ?_, ?_⟩
  · rintro v rfl
    exact (step_push ha).2
  · rintro v b hpc rfl hfull
    have hb := hI.owner
    simp only [OwnerInv, hpc] at hb
    simp only [step, hpc, ownerStep, hb.1 ▸ hfull, if_true, Option.some.injEq] at ha
    exact ha.symm

end

def emptyDeque : State ℕ where
  top := 0
  bottom := 0
  buf := fun _ => ⟨99, 99⟩
  owner := .idle
  thief := fun _ => .idle
  pushed := []
  returned := []
  pushResult := none

/-- Two pushes, a third that finds the ring full, and a steal. -/
def fillAndSteal : List (Action ℕ) :=
  [.push 7, .owner, .owner, .owner, .push 8, .owner, .owner, .owner, .push 9, .owner,
    .thief 0, .thief 0, .thief 0, .thief 0]

theorem deque_items_conserved_fillAndSteal : ∃ s, (deque ℕ 1).run emptyDeque fillAndSteal = some s ∧
      s.returned = [⟨0, 7⟩] ∧ s.live 1 = [⟨1, 8⟩] ∧ s.pushResult = some (-1) ∧
      (s.returned ++ s.inHand ++ s.live 1).Perm [⟨0, 7⟩, ⟨1, 8⟩] := by
  obtain ⟨s, hr, hs, hp⟩ := System.exists_reachable_of_run (M := deque ℕ 1) (s := emptyDeque)
    (p := fun s => decide (s.returned = [⟨0, 7⟩] ∧ s.live 1 = [⟨1, 8⟩] ∧
      s.pushResult = some (-1) ∧ s.pushed = [7, 8]))
    fillAndSteal ⟨rfl, rfl, rfl, fun _ => rfl, rfl, rfl⟩ (by decide +kernel)
  obtain ⟨hret, hlive, hres, hpushed⟩ := of_decide_eq_true hp
  refine ⟨s, hr, hret, hlive, hres, ?_⟩
  have hperm := (deque_items_conserved hs).2.1
  rwa [hpushed] at hperm

end Runloom.Deque
