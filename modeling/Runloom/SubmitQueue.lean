import Mathlib.Data.List.Nodup
import Runloom.Transition.System

/-!
# The submission queue of an io_uring

Model of `runloom_iouring_submit_sqe`, on the global ring, and of `runloom_iouring_ring_submit_sqe`, on the ring of a
hub. On the global ring a call holds `sub_lock`, which it gives up while it drains a full ring; a hub's ring has one
issuer, and gets its tail back when `io_uring_enter` fails.

The kernel takes entries by position: an `io_uring_enter` gets the one at the head, whoever wrote it.
-/

namespace Runloom.SubmitQueue

open Transition

inductive Kind where
  | global
  | hub
deriving DecidableEq

inductive Pc where
  | idle
  /-- Before `sub_lock`, or before the issuer's turn. -/
  | enqueued
  | loadTail
  | loadHead (tail : BitVec 32)
  | drain
  | fill (tail : BitVec 32)
  | publish (tail : BitVec 32)
  /-- In `sys_io_uring_submit_eintr`. -/
  | enter (tail : BitVec 32)
  | rollBack (tail : BitVec 32)
  | leave (ok : Bool)
  | returned (ok : Bool)
deriving DecidableEq

/-- What one `io_uring_enter` does. -/
inductive Outcome where
  | consumed
  /-- `EINTR`, with nothing taken. -/
  | interrupted
  | failed

/-- An entry is known by the call that wrote it. -/
structure Ring (C : Type*) where
  head : BitVec 32
  tail : BitVec 32
  /-- `sq_array`. -/
  array : BitVec 32 → BitVec 32
  sqes : BitVec 32 → Option C

structure State (C : Type*) where
  ring : Ring C
  holder : Option C
  pc : C → Pc
  consumed : List C
  overwritten : List C

inductive Action (C : Type*) where
  | start (c : C)
  | run (c : C)
  | enter (c : C) (o : Outcome)

variable {C : Type*}

namespace Ring

variable (entries : BitVec 32)

/-- `position & sq_mask`. -/
def slot (position : BitVec 32) : BitVec 32 := position &&& (entries - 1)

def queued (x : Ring C) : List (BitVec 32) :=
  (List.range (x.tail - x.head).toNat).map fun j => slot entries (x.head + BitVec.ofNat 32 j)

/-- The call `c` fills in the entry for `tail`. -/
def fill (x : Ring C) (tail : BitVec 32) (c : C) : Ring C :=
  { x with
    sqes := update x.sqes (slot entries tail) (some c)
    array := update x.array (slot entries tail) (slot entries tail) }

/-- The entry that a fill for `tail` writes over, if that is still queued. -/
def lost (x : Ring C) (tail : BitVec 32) : List C :=
  if slot entries tail ∈ x.queued entries then (x.sqes (slot entries tail)).toList else []

def take (x : Ring C) : Ring C × List C :=
  if x.tail = x.head then (x, [])
  else ({ x with head := x.head + 1 }, (x.sqes (x.array (slot entries x.head))).toList)

end Ring

variable [DecidableEq C]

def State.goto (s : State C) (c : C) (pc : Pc) : State C := { s with pc := update s.pc c pc }

def State.run (entries : BitVec 32) (s : State C) (c : C) : Option (State C) :=
  match s.pc c with
  | .enqueued => if s.holder = none then some ({ s with holder := some c }.goto c .loadTail) else none
  | .loadTail => some (s.goto c (.loadHead s.ring.tail))
  | .loadHead tail =>
    -- The difference wraps as the two positions do.
    if tail - s.ring.head < entries then some (s.goto c (.fill tail))
    else some ({ s with holder := none }.goto c .drain)
  | .drain => some (s.goto c .enqueued)
  | .fill tail =>
    some ({ s with
      ring := s.ring.fill entries tail c
      overwritten := s.overwritten ++ s.ring.lost entries tail }.goto c (.publish tail))
  | .publish tail => some ({ s with ring := { s.ring with tail := tail + 1 } }.goto c (.enter tail))
  | .rollBack tail => some ({ s with ring := { s.ring with tail := tail } }.goto c (.leave false))
  | .leave ok => some ({ s with holder := none }.goto c (.returned ok))
  | _ => none

/-- An `io_uring_enter` of the call, which is made again after `EINTR`. -/
def State.enter (kind : Kind) (entries : BitVec 32) (s : State C) (c : C) (o : Outcome) : Option (State C) :=
  match s.pc c with
  | .enter tail =>
    match o with
    -- What goes is the entry at the head, and that need not be the one of `c`.
    | .consumed =>
      let (ring, taken) := s.ring.take entries
      some ({ s with ring := ring, consumed := s.consumed ++ taken }.goto c (.leave true))
    | .interrupted => some s
    | .failed =>
      match kind with
      -- The tail stays, and with it the entry.
      | .global => some (s.goto c (.leave false))
      | .hub => some (s.goto c (.rollBack tail))
  | _ => none

def step (kind : Kind) (entries : BitVec 32) (s : State C) : Action C → Option (State C)
  | .start c => if s.pc c = .idle then some (s.goto c .enqueued) else none
  | .run c => s.run entries c
  | .enter c o => s.enter kind entries c o

structure Init (s : State C) : Prop where
  ring : s.ring.tail = s.ring.head
  holder : s.holder = none
  pc : ∀ c, s.pc c = .idle
  consumed : s.consumed = []
  overwritten : s.overwritten = []

/-- A ring with `entries` slots, and its submissions. -/
def submitQueue (C : Type*) [DecidableEq C] (kind : Kind) (entries : BitVec 32) :
    System (State C) (Action C) where
  init := Init
  step := step kind entries

end Runloom.SubmitQueue

/-!
## A submission that failed stays in the ring

Every submission queues one entry and asks for one.  As long as every call leaves the ring empty, that is the same
entry.  A call on the global ring that fails leaves its entry behind, and from then on every call that succeeds has
the kernel take the entry of another one.
-/

namespace Runloom.SubmitQueue

open Transition List

variable {C : Type*}

/-- On the global ring no `io_uring_enter` fails, other than by `EINTR`. -/
def NoFailure (kind : Kind) (_ : State C) : Action C → Prop
  | .enter _ .failed => kind = .hub
  | _ => True

def Pc.inside : Pc → Bool
  | .loadTail | .loadHead _ | .fill _ | .publish _ | .enter _ | .rollBack _ | .leave _ => true
  | _ => false

def Pc.taken : Pc → Bool
  | .leave ok | .returned ok => ok
  | _ => false

def Pc.Knows (entries : BitVec 32) (x : Ring C) (c : C) : Pc → Prop
  | .loadTail | .leave _ => x.tail = x.head
  | .loadHead tail | .fill tail => x.tail = tail ∧ x.head = tail
  | .publish tail =>
    x.tail = tail ∧ x.head = tail ∧ x.sqes (x.array (Ring.slot entries tail)) = some c
  | .enter tail =>
    x.tail = tail + 1 ∧ x.head = tail ∧ x.sqes (x.array (Ring.slot entries tail)) = some c
  | .rollBack tail => x.tail = tail + 1 ∧ x.head = tail
  | _ => True

structure Inv (entries : BitVec 32) (s : State C) : Prop where
  inside : ∀ c, (s.pc c).inside = true ↔ s.holder = some c
  knows : ∀ c, (s.pc c).Knows entries s.ring c
  empty : s.holder = none → s.ring.tail = s.ring.head
  taken : ∀ c, c ∈ s.consumed ↔ (s.pc c).taken = true
  once : s.consumed.Nodup
  kept : s.overwritten = []

variable {entries : BitVec 32} {kind : Kind} {s s' : State C} {c d : C} {pc pc₀ : Pc}

theorem Inv.init (h : Init s) : Inv entries s where
  inside c := by
    rw [h.pc, h.holder]
    exact iff_of_false (fun h => by cases h) fun h => by cases h
  knows c := by
    rw [h.pc]
    trivial
  empty _ := h.ring
  taken c := by
    rw [h.pc, h.consumed]
    exact iff_of_false not_mem_nil fun h => by cases h
  once := by
    rw [h.consumed]
    exact nodup_nil
  kept := h.overwritten

theorem knows_of_not_inside (h : pc.inside = false) (x : Ring C) : pc.Knows entries x c := by
  cases pc with
  | idle | enqueued | drain | returned ok => trivial
  | _ => cases h

theorem Inv.eq_of_inside (hI : Inv entries s) (hc : s.holder = some c) (hd : (s.pc d).inside = true) : d = c :=
  Option.some.inj (((hI.inside d).mp hd).symm.trans hc)

theorem take_of_knows {tail : BitVec 32} {x : Ring C} (h : (Pc.enter tail).Knows entries x c) :
    x.take entries = ({ x with head := tail + 1 }, [c]) := by
  obtain ⟨htail, hhead, hentry⟩ := h
  have hne : ¬x.tail = x.head := by
    rw [htail, hhead]
    intro h
    bv_omega
  rw [Ring.take, if_neg hne, hhead, hentry]
  rfl

variable [DecidableEq C]

theorem Inv.outside (hI : Inv entries s) (hpc₀ : s.pc c = pc₀) (hin₀ : pc₀.inside = false)
    (hin : pc.inside = false) (htaken : pc.taken = pc₀.taken) : Inv entries (s.goto c pc) where
  inside d := by
    by_cases hdc : d = c
    · subst hdc
      simp only [State.goto, update_self]
      refine iff_of_false (fun h => ?_) fun h => ?_
      · rw [hin] at h
        cases h
      · rw [← hI.inside, hpc₀, hin₀] at h
        cases h
    · simp only [State.goto, update_of_ne hdc]
      exact hI.inside d
  knows d := by
    by_cases hdc : d = c
    · subst hdc
      simp only [State.goto, update_self]
      exact knows_of_not_inside hin _
    · simp only [State.goto, update_of_ne hdc]
      exact hI.knows d
  empty := hI.empty
  taken d := by
    by_cases hdc : d = c
    · subst hdc
      simp only [State.goto, update_self]
      rw [hI.taken, hpc₀, htaken]
    · simp only [State.goto, update_of_ne hdc]
      exact hI.taken d
  once := hI.once
  kept := hI.kept

theorem Inv.guarded (hI : Inv entries s) {ring : Ring C} {holder : Option C} {consumed overwritten : List C}
    (hpc₀ : s.pc c = pc₀) (hmine : s.holder = none ∨ s.holder = some c)
    (hholder : holder = if pc.inside then some c else none)
    (hknows : pc.Knows entries ring c) (hempty : holder = none → ring.tail = ring.head)
    (htaken : pc.taken = true ∧ pc₀.taken = false ∧ consumed = s.consumed ++ [c] ∨
      pc.taken = pc₀.taken ∧ consumed = s.consumed)
    (hkept : overwritten = []) :
    Inv entries ({ s with
      ring := ring, holder := holder, consumed := consumed, overwritten := overwritten }.goto c pc) where
  inside d := by
    by_cases hdc : d = c
    · subst hdc
      simp only [State.goto, update_self, hholder]
      cases pc.inside
      · exact iff_of_false (fun h => by cases h) fun h => by cases h
      · exact iff_of_true rfl rfl
    · simp only [State.goto, update_of_ne hdc, hholder]
      refine iff_of_false (fun h => ?_) fun h => ?_
      · rw [hI.inside] at h
        rcases hmine with hmine | hmine
        · rw [hmine] at h
          cases h
        · rw [hmine] at h
          exact hdc (Option.some.inj h).symm
      · split at h
        · exact hdc (Option.some.inj h).symm
        · cases h
  knows d := by
    by_cases hdc : d = c
    · subst hdc
      simp only [State.goto, update_self]
      exact hknows
    · simp only [State.goto, update_of_ne hdc]
      apply knows_of_not_inside
      rw [Bool.eq_false_iff]
      intro h
      rcases hmine with hmine | hmine
      · rw [hI.inside, hmine] at h
        cases h
      · exact hdc (hI.eq_of_inside hmine h)
  empty := hempty
  taken d := by
    by_cases hdc : d = c
    · subst hdc
      simp only [State.goto, update_self]
      rcases htaken with ⟨hpc, -, rfl⟩ | ⟨hpc, rfl⟩
      · exact iff_of_true (mem_append_right _ (mem_singleton.mpr rfl)) hpc
      · rw [hI.taken, hpc₀, hpc]
    · simp only [State.goto, update_of_ne hdc]
      rw [← hI.taken]
      rcases htaken with ⟨-, -, rfl⟩ | ⟨-, rfl⟩
      · rw [mem_append, mem_singleton, or_iff_left hdc]
      · rfl
  once := by
    rcases htaken with ⟨-, hpc, hcons⟩ | ⟨-, hcons⟩
    · show consumed.Nodup
      rw [hcons]
      refine nodup_append'.mpr ⟨hI.once, nodup_singleton c, fun d hd hdc => ?_⟩
      rw [mem_singleton.mp hdc, hI.taken, hpc₀, hpc] at hd
      cases hd
    · show consumed.Nodup
      rw [hcons]
      exact hI.once
  kept := hkept

/-! ## Steps -/

theorem Inv.run (hI : Inv entries s) (h : s.run entries c = some s') : Inv entries s' := by
  have hknows := hI.knows c
  have hmine : ∀ pc, s.pc c = pc → pc.inside = true → s.holder = some c := by
    rintro pc rfl hin
    exact (hI.inside c).mp hin
  unfold State.run at h
  cases hpc : s.pc c with
  | idle | enter tail | returned ok =>
    rw [hpc] at h
    cases h
  | enqueued =>
    rw [hpc] at h
    simp only at h
    split at h <;> cases h
    next hnone =>
      -- Who finds the guard free finds the ring empty.
      exact hI.guarded hpc (.inl hnone) rfl (hI.empty hnone) (fun h => by cases h) (.inr ⟨rfl, rfl⟩) hI.kept
  | loadTail =>
    rw [hpc] at h hknows
    have hholder := hmine _ hpc rfl
    cases h
    refine hI.guarded hpc (.inr hholder) hholder ⟨rfl, ?_⟩ hI.empty (.inr ⟨rfl, rfl⟩) hI.kept
    exact Eq.symm hknows
  | loadHead tail =>
    rw [hpc] at h hknows
    have hholder := hmine _ hpc rfl
    simp only at h
    split at h <;> cases h
    · exact hI.guarded hpc (.inr hholder) hholder hknows hI.empty (.inr ⟨rfl, rfl⟩) hI.kept
    · exact hI.guarded hpc (.inr hholder) rfl trivial (fun _ => hknows.1.trans hknows.2.symm)
        (.inr ⟨rfl, rfl⟩) hI.kept
  | drain =>
    rw [hpc] at h
    cases h
    exact hI.outside hpc rfl rfl rfl
  | fill tail =>
    rw [hpc] at h hknows
    obtain ⟨htail, hhead⟩ := hknows
    have hholder := hmine _ hpc rfl
    cases h
    refine hI.guarded hpc (.inr hholder) hholder ⟨htail, hhead, ?_⟩ ?_ (.inr ⟨rfl, rfl⟩) ?_
    · simp only [Ring.fill, update_self]
    · exact fun _ => htail.trans hhead.symm
    -- Nothing is queued, so the fill writes over nothing.
    · have hqueued : s.ring.queued entries = [] := by
        rw [Ring.queued, htail, hhead, BitVec.sub_self]
        rfl
      rw [hI.kept, Ring.lost, hqueued, if_neg not_mem_nil]
      rfl
  | publish tail =>
    rw [hpc] at h hknows
    have hholder := hmine _ hpc rfl
    cases h
    refine hI.guarded hpc (.inr hholder) hholder ⟨rfl, hknows.2⟩ (fun hnone => ?_) (.inr ⟨rfl, rfl⟩) hI.kept
    rw [hholder] at hnone
    cases hnone
  | rollBack tail =>
    rw [hpc] at h hknows
    have hholder := hmine _ hpc rfl
    cases h
    exact hI.guarded hpc (.inr hholder) hholder hknows.2.symm (fun _ => hknows.2.symm) (.inr ⟨rfl, rfl⟩) hI.kept
  | leave ok =>
    rw [hpc] at h hknows
    have hholder := hmine _ hpc rfl
    cases h
    exact hI.guarded hpc (.inr hholder) rfl trivial (fun _ => hknows) (.inr ⟨rfl, rfl⟩) hI.kept

theorem Inv.enter (hI : Inv entries s) {o : Outcome} (hC : NoFailure kind s (.enter c o))
    (h : s.enter kind entries c o = some s') : Inv entries s' := by
  have hknows := hI.knows c
  unfold State.enter at h
  split at h
  next tail hpc =>
    rw [hpc] at hknows
    have hholder : s.holder = some c := by
      rw [← hI.inside, hpc]
      rfl
    have hbusy : s.holder = none → s.ring.tail = s.ring.head := by
      intro hnone
      rw [hholder] at hnone
      cases hnone
    cases o with
    | consumed =>
      simp only [take_of_knows hknows] at h
      cases h
      refine hI.guarded hpc (.inr hholder) hholder hknows.1 (fun _ => hknows.1) (.inl ⟨rfl, rfl, rfl⟩) hI.kept
    | interrupted =>
      cases h
      exact hI
    | failed =>
      -- The entry is still queued here, and the guard is held until the tail is back.
      rw [show kind = .hub from hC] at h
      cases h
      exact hI.guarded hpc (.inr hholder) hholder ⟨hknows.1, hknows.2.1⟩ hbusy (.inr ⟨rfl, rfl⟩) hI.kept
  next => cases h

theorem Inv.step (hI : Inv entries s) {a : Action C} (hC : NoFailure kind s a)
    (h : step kind entries s a = some s') : Inv entries s' := by
  cases a with
  | start c =>
    simp only [SubmitQueue.step] at h
    split at h <;> cases h
    next hpc => exact hI.outside hpc rfl rfl rfl
  | run c => exact hI.run h
  | enter c o => exact hI.enter hC h

theorem inv_of_reachable (h : (submitQueue C kind entries).ReachableWith (NoFailure kind) s) :
    Inv entries s :=
  h.invariant (fun _ => Inv.init) fun _ _ _ hI hC hs => hI.step hC hs

/-- As long as no `io_uring_enter` fails on the global ring, a failed submission is never taken, and any other once.
-/
theorem failed_submit_leaves_nothing (h : (submitQueue C kind entries).ReachableWith (NoFailure kind) s) :
    (∀ c, s.pc c = .returned false → c ∉ s.consumed) ∧
    (∀ c, s.pc c = .returned true → s.consumed.count c = 1) ∧ s.overwritten = [] := by
  have hI := inv_of_reachable h
  refine ⟨fun c hc => ?_, fun c hc => ?_, hI.kept⟩
  · rw [hI.taken, hc]
    exact fun h => by cases h
  · apply count_eq_one_of_mem hI.once
    rw [hI.taken, hc]
    rfl

/-! ## Two submissions -/

def emptyRing : State Bool :=
  ⟨⟨0, 0, fun _ => 0, fun _ => none⟩, none, fun _ => .idle, [], []⟩

theorem init_emptyRing : Init emptyRing := ⟨rfl, rfl, fun _ => rfl, rfl, rfl⟩

/-- The first submission fails, and the second succeeds: the kernel has taken the entry of the first. -/
theorem failed_submit_is_consumed : ¬∀ s, (submitQueue Bool .global 64).Reachable s →
      (∀ c, s.pc c = .returned false → c ∉ s.consumed) ∧
      (∀ c, s.pc c = .returned true → s.consumed.count c = 1) ∧ s.overwritten = [] := by
  intro hall
  obtain ⟨s, hr, hf, -, hcons⟩ := (submitQueue Bool .global 64).reaches
    (fun s => s.pc false = .returned false ∧ s.pc true = .returned true ∧ s.consumed = [false])
    [.start false, .run false, .run false, .run false, .run false, .run false, .enter false .failed,
      .run false, .start true, .run true, .run true, .run true, .run true, .run true,
      .enter true .consumed, .run true]
    (s := emptyRing) init_emptyRing (by decide +kernel)
  apply (hall s hr).1 false hf
  rw [hcons]
  exact mem_singleton.mpr rfl

instance (kind : Kind) (s : State C) : ∀ a, Decidable (NoFailure kind s a)
  | .enter _ .failed => inferInstanceAs (Decidable (kind = .hub))
  | .enter _ .consumed | .enter _ .interrupted | .start _ | .run _ => .isTrue trivial

/-- The same on the ring of a hub. -/
theorem failed_submit_leaves_nothing_hub :
    ∃ s, (submitQueue Bool .hub 64).ReachableWith (NoFailure .hub) s ∧ s.pc false = .returned false ∧
      s.pc true = .returned true ∧ false ∉ s.consumed ∧ s.consumed.count true = 1 := by
  obtain ⟨s, hr, hf, ht⟩ := (submitQueue Bool .hub 64).reachesWith (NoFailure .hub)
    (fun s => s.pc false = .returned false ∧ s.pc true = .returned true)
    [.start false, .run false, .run false, .run false, .run false, .run false, .enter false .failed,
      .run false, .run false, .start true, .run true, .run true, .run true, .run true, .run true,
      .enter true .interrupted, .enter true .consumed, .run true]
    (s := emptyRing) init_emptyRing (by decide +kernel)
  obtain ⟨hfailed, hdone, -⟩ := failed_submit_leaves_nothing hr
  exact ⟨s, hr, hf, ht, hfailed false hf, hdone true ht⟩

end Runloom.SubmitQueue
