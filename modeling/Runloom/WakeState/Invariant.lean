import Runloom.Transition.Update
import Runloom.WakeState.Model

/-!
# One place per fiber

The invariant of the wake state machine.  At any moment a fiber is at exactly one place: parked,
linked on the global run queue, on one hub's local queue, or in the hand of one actor.  The place
decides which values `wake_state` may have, how many entries there are and who owns a queue
reference.
-/

namespace Runloom.WakeState

open Transition

variable {n : ℕ} {s t : State n}

/-! ## What a program counter says -/

def Pc.hand : Pc → Option ℕ
  | .push g _ .incref | .push g _ .acquire | .push g _ .link => some g
  | .sweep g | .sweepStore g | .pullLen g | .claim g | .running g _ | .parkCas g _
  | .parkStore g _ | .readyPush g => some g
  | .pullUnlock g => g
  | .yieldStore g _ selfQueued | .yieldDecref g selfQueued => if selfQueued then none else some g
  | _ => none

def Pc.wsOk : Pc → Ws → Prop
  | .push _ _ _, w | .pullLen _, w | .pullUnlock _, w | .claim _, w => w = .queued
  | .sweep _, w => w = .sweeping ∨ w = .sweepingWoken
  | .sweepStore _, w => w = .sweepingWoken
  | .parkStore _ _, w => w = .runningWoken
  | .running _ _, w | .parkCas _ _, w | .yieldStore _ _ _, w | .yieldDecref _ _, w
  | .readyPush _, w => w = .running ∨ w = .runningWoken
  | _, _ => True

def Pc.locked : Pc → Prop
  | .push _ _ .link | .push _ _ .len | .push _ _ .unlock => True
  | .pullTake | .pullLen _ | .pullUnlock _ => True
  | _ => False

/-- By how much the length counter runs ahead of the list inside the lock. -/
def Pc.lenAhead : Pc → ℤ
  | .push _ _ .len => -1
  | .pullLen _ => 1
  | _ => 0

/-- The queue references on `g` that the actor owns. -/
def Pc.queueRefs (g : ℕ) : Pc → ℤ
  | .pullLen g' | .pullUnlock (some g') | .claim g' | .decref g' | .yieldDecref g' _ =>
    if g' = g then 1 else 0
  | .running g' q | .parkCas g' q | .parkStore g' q | .yieldStore g' q _ | .push g' q .incref
  | .push g' q .len | .push g' q .unlock => if g' = g ∧ q = true then 1 else 0
  | .push g' q .acquire | .push g' q .link =>
    if g' = g then (if q = true then 2 else 1) else 0
  | _ => 0

/-- A helper wakes, pushes or sweeps, and never owns a pulled entry. -/
def Pc.ofHelper : Pc → Prop
  | .idle | .wake _ _ | .push _ false _ | .sweep _ | .sweepStore _ => True
  | _ => False

theorem Pc.ofHelper.queueRefs_eq_zero {c : Pc} {g : ℕ} (hc : c.ofHelper) (hg : c.hand ≠ some g) :
    c.queueRefs g = 0 := by
  cases c with
  | push g' q stage =>
    cases q with
    | false =>
      cases stage with
      | acquire | link => exact if_neg fun h => hg (congrArg some h)
      | incref | len | unlock => exact if_neg nofun
    | true => cases hc
  | idle | wake | sweep | sweepStore => rfl
  | _ => cases hc

/-! ## Places -/

inductive Place (n : ℕ) where
  | parked
  | listed
  | fifo (h : Fin n)
  | held (a : Actor n)
deriving DecidableEq

def PlaceWs (pc : Actor n → Pc) : Place n → Ws → Prop
  | .parked, w => w = .parked
  | .listed, w => w = .queued
  | .fifo _, w => w = .running ∨ w = .runningWoken
  | .held a, w => (pc a).wsOk w

/-- The queue reference on `g` owned by the helper that has `g` in hand. -/
def helperRefs (pc : Actor n → Pc) (g : ℕ) : Place n → ℤ
  | .held (.helper i) => (pc (.helper i)).queueRefs g
  | _ => 0

/-- The queue references on `g` owned by actors. -/
def heldRefs (pc : Actor n → Pc) (p : Place n) (g : ℕ) : ℤ :=
  ∑ h, (pc (.hub h)).queueRefs g + helperRefs pc g p

def lenAhead (s : State n) : ℤ :=
  match s.lock with
  | some a => (s.pc a).lenAhead
  | none => 0

structure PInv (s : State n) (P : ℕ → Place n) : Prop where
  hand : ∀ a g, P g = .held a ↔ (s.pc a).hand = some g
  ws : ∀ g, PlaceWs s.pc (P g) (s.ws g)
  runq : ∀ g, s.runq.count g = if P g = .listed then 1 else 0
  fifo : ∀ h g, (s.fifo h).count g = if P g = .fifo h then 1 else 0
  lock : ∀ a, s.lock = some a ↔ (s.pc a).locked
  len : s.len = s.runq.length + lenAhead s
  refs : ∀ g, s.refs g = 1 + s.runq.count g + heldRefs s.pc (P g) g
  yielding : ∀ h g q, s.pc (.hub h) = .yieldStore g q true → P g = .fifo h
  helper : ∀ i, (s.pc (.helper i)).ofHelper

def Inv (s : State n) : Prop := ∃ P, PInv s P

/-! ## Frame facts -/

section
variable {P : ℕ → Place n} {a : Actor n} {g : ℕ} {c : Pc} {p : Place n} {w : Ws}

/-- What every step has in common: one actor `a` moves to `c`, with at most one fiber `g`. -/
structure Move (s : State n) (P : ℕ → Place n) (a : Actor n) (g : ℕ) (c : Pc) (p : Place n) : Prop where
  old : ∀ x, (s.pc a).hand = some x → x = g
  new : ∀ x, c.hand = some x → x = g
  fromPlace : ∀ b, P g = .held b → b = a
  toPlace : p = .held a ↔ c.hand = some g
  notOther : ∀ b, p = .held b → b = a

theorem Move.hand (hM : Move s P a g c p) (hP : PInv s P) (b : Actor n) (x : ℕ) :
    update P g p x = .held b ↔ (update s.pc a c b).hand = some x := by
  by_cases hx : x = g
  · subst hx
    rw [update_self]
    by_cases hb : b = a
    · subst hb
      rw [update_self]
      exact hM.toPlace
    · rw [update_of_ne hb, ← hP.hand b x]
      exact iff_of_false (fun h => hb (hM.notOther b h)) fun h => hb (hM.fromPlace b h)
  · rw [update_of_ne hx]
    by_cases hb : b = a
    · subst hb
      rw [update_self, hP.hand b x]
      exact iff_of_false (fun h => hx (hM.old x h)) fun h => hx (hM.new x h)
    · rw [update_of_ne hb]
      exact hP.hand b x

theorem Move.ws (hM : Move s P a g c p) (hP : PInv s P) (hw : PlaceWs (update s.pc a c) p w) (x : ℕ) :
    PlaceWs (update s.pc a c) (update P g p x) (update s.ws g w x) := by
  by_cases hx : x = g
  · subst hx
    simpa only [update_self] using hw
  · rw [update_of_ne hx, update_of_ne hx]
    have hold := hP.ws x
    cases hPx : P x with
    | held b =>
      have hb : b ≠ a := by
        rintro rfl
        exact hx (hM.old x ((hP.hand b x).mp hPx))
      rw [hPx] at hold
      simpa only [PlaceWs, update_of_ne hb] using hold
    | _ => simpa only [hPx, PlaceWs] using hold

theorem sum_hub_update (pc : Actor n → Pc) (h : Fin n) (c : Pc) (x : ℕ) :
    ∑ h', (update pc (.hub h) c (.hub h')).queueRefs x =
      ∑ h', (pc (.hub h')).queueRefs x - (pc (.hub h)).queueRefs x + c.queueRefs x := by
  have hcomp : ∀ h', update pc (.hub h) c (.hub h') = update (fun h' => pc (.hub h')) h c h' := by
    intro h'
    by_cases hh : h' = h
    · subst hh
      rw [update_self, update_self]
    · rw [update_of_ne (by simpa using hh), update_of_ne hh]
  simp only [hcomp]
  exact sum_comp_update (Finset.mem_univ h) (Pc.queueRefs x) (fun h' => pc (.hub h')) c

theorem sum_hub_update_helper (pc : Actor n → Pc) (i : ℕ) (c : Pc) (x : ℕ) :
    ∑ h', (update pc (.helper i) c (.hub h')).queueRefs x = ∑ h', (pc (.hub h')).queueRefs x := by
  apply Finset.sum_congr rfl
  intro h' _
  rw [update_of_ne (by simp)]

theorem helperRefs_eq_zero (pc : Actor n → Pc) (x : ℕ) (h : ∀ i, p ≠ .held (.helper i)) :
    helperRefs pc x p = 0 := by
  unfold helperRefs
  split
  · exact absurd rfl (h _)
  · rfl

theorem helperRefs_update (pc : Actor n → Pc) (x : ℕ) (h : p ≠ .held a) :
    helperRefs (update pc a c) x p = helperRefs pc x p := by
  unfold helperRefs
  split
  · rename_i i
    rw [update_of_ne fun hi => h (by rw [hi])]
  · rfl

theorem Move.heldRefs (hM : Move s P a g c p) (hP : PInv s P)
    (hne : ∀ x, x ≠ g → c.queueRefs x = (s.pc a).queueRefs x)
    (hhelper : ∀ i, a = .helper i → c.ofHelper) (x : ℕ) :
    heldRefs (update s.pc a c) (update P g p x) x =
      heldRefs s.pc (P x) x + c.queueRefs x - (s.pc a).queueRefs x := by
  have hkeep : x ≠ g → P x ≠ .held a := fun hx hPx => hx (hM.old x ((hP.hand a x).mp hPx))
  unfold WakeState.heldRefs
  cases a with
  | hub h =>
    -- no helper moves, and `g` neither was nor is in a helper's hand
    rw [sum_hub_update]
    by_cases hx : x = g
    · subst hx
      have hnew : ∀ i, p ≠ .held (.helper i) := fun i hi => by cases hM.notOther _ hi
      have hold : ∀ i, P x ≠ .held (.helper i) := fun i hi => by cases hM.fromPlace _ hi
      rw [update_self, helperRefs_eq_zero _ _ hnew, helperRefs_eq_zero _ _ hold]
      omega
    · rw [update_of_ne hx, helperRefs_update _ _ (hkeep hx)]
      omega
  | helper i =>
    rw [sum_hub_update_helper]
    by_cases hx : x = g
    · subst hx
      have hold : helperRefs s.pc x (P x) = (s.pc (.helper i)).queueRefs x := by
        by_cases hPx : P x = .held (.helper i)
        · rw [hPx]
          rfl
        · rw [(hP.helper i).queueRefs_eq_zero fun hh => hPx ((hP.hand _ x).mpr hh)]
          exact helperRefs_eq_zero _ _ fun j hj => hPx (hM.fromPlace _ hj ▸ hj)
      have hnew : helperRefs (update s.pc (.helper i) c) x p = c.queueRefs x := by
        by_cases hp : p = .held (.helper i)
        · rw [hp]
          simp only [helperRefs, update_self]
        · rw [(hhelper i rfl).queueRefs_eq_zero fun hh => hp (hM.toPlace.mpr hh)]
          exact helperRefs_eq_zero _ _ fun j hj => hp (hM.notOther _ hj ▸ hj)
      rw [update_self, hold, hnew]
      omega
    · rw [update_of_ne hx, helperRefs_update _ _ (hkeep hx), hne x hx]
      omega

theorem PInv.move (hP : PInv s P) (hM : Move s P a g c p)
    (hpc : t.pc = update s.pc a c) (hws : t.ws = update s.ws g w)
    (hw : PlaceWs (update s.pc a c) p w)
    (hrunq : ∀ x, t.runq.count x = if update P g p x = .listed then 1 else 0)
    (hfifo : ∀ h x, (t.fifo h).count x = if update P g p x = .fifo h then 1 else 0)
    (hlock : ∀ b, t.lock = some b ↔ (update s.pc a c b).locked)
    (hlen : t.len = t.runq.length + lenAhead t)
    (hne : ∀ x, x ≠ g → c.queueRefs x = (s.pc a).queueRefs x)
    (hhelper : ∀ i, a = .helper i → c.ofHelper)
    (hrefs : ∀ x, t.refs x - t.runq.count x = s.refs x - s.runq.count x + c.queueRefs x - (s.pc a).queueRefs x)
    (hyield : ∀ h q, a = .hub h → c = .yieldStore g q true → p = .fifo h)
    (hyield' : ∀ x q, c = .yieldStore x q true → x = g)
    (hfrom : ∀ h, P g = .fifo h → p = .fifo h ∨ a = .hub h) :
    PInv t (update P g p) where
  hand := by
    rw [hpc]
    exact hM.hand hP
  ws := by
    rw [hpc, hws]
    exact hM.ws hP hw
  runq := hrunq
  fifo := hfifo
  lock := by
    rw [hpc]
    exact hlock
  len := hlen
  refs := by
    intro x
    have hold := hP.refs x
    have hnew := hrefs x
    rw [hpc, hM.heldRefs hP hne hhelper x]
    omega
  yielding := by
    intro h x q hx
    rw [hpc] at hx
    by_cases ha : Actor.hub h = a
    · subst ha
      rw [update_self] at hx
      obtain rfl := hyield' x q hx
      rw [update_self]
      exact hyield h q rfl hx
    · rw [update_of_ne ha] at hx
      have hPx := hP.yielding h x q hx
      by_cases hxg : x = g
      · subst hxg
        rw [update_self]
        exact (hfrom h hPx).resolve_right fun h' => ha h'.symm
      · rwa [update_of_ne hxg]
  helper := by
    intro i
    rw [hpc]
    by_cases ha : Actor.helper i = a
    · subst ha
      rw [update_self]
      exact hhelper i rfl
    · rw [update_of_ne ha]
      exact hP.helper i

theorem heldRefs_update_aside (hP : PInv s P) (hold : (s.pc a).hand = none)
    (hnew : c.hand = none) (hhelper : ∀ i, a = .helper i → c.ofHelper) (x : ℕ) :
    heldRefs (update s.pc a c) (P x) x = heldRefs s.pc (P x) x + c.queueRefs x - (s.pc a).queueRefs x := by
  have hkeep : P x ≠ .held a := by
    intro hPx
    have := (hP.hand a x).mp hPx
    rw [hold] at this
    cases this
  unfold heldRefs
  cases a with
  | hub h =>
    rw [sum_hub_update, helperRefs_update _ _ hkeep]
    omega
  | helper i =>
    rw [sum_hub_update_helper, helperRefs_update _ _ hkeep, (hhelper i rfl).queueRefs_eq_zero (by simp [hnew]),
      (hP.helper i).queueRefs_eq_zero (by simp [hold])]
    omega

theorem PInv.aside (hP : PInv s P) (hold : (s.pc a).hand = none) (hnew : c.hand = none)
    (hpc : t.pc = update s.pc a c) (hws : t.ws = s.ws) (hrunq : t.runq = s.runq)
    (hfifo : t.fifo = s.fifo)
    (hlock : ∀ b, t.lock = some b ↔ (update s.pc a c b).locked)
    (hlen : t.len = t.runq.length + lenAhead t)
    (hhelper : ∀ i, a = .helper i → c.ofHelper)
    (hrefs : ∀ x, t.refs x = s.refs x + c.queueRefs x - (s.pc a).queueRefs x)
    (hyield : ∀ x q, c ≠ .yieldStore x q true) : PInv t P where
  hand := by
    intro b x
    rw [hpc, hP.hand b x]
    by_cases hb : b = a
    · subst hb
      rw [update_self, hold, hnew]
    · rw [update_of_ne hb]
  ws := by
    intro x
    have hx := hP.ws x
    rw [hpc, hws]
    cases hPx : P x with
    | held b =>
      have hb : b ≠ a := by
        rintro rfl
        have := (hP.hand b x).mp hPx
        rw [hold] at this
        cases this
      rw [hPx] at hx
      simpa only [PlaceWs, update_of_ne hb] using hx
    | _ => simpa only [hPx, PlaceWs] using hx
  runq := by
    rw [hrunq]
    exact hP.runq
  fifo := by
    rw [hfifo]
    exact hP.fifo
  lock := by
    rw [hpc]
    exact hlock
  len := hlen
  refs := by
    intro x
    have hx := hP.refs x
    rw [hpc, heldRefs_update_aside hP hold hnew hhelper x, hrefs x, hrunq]
    omega
  yielding := by
    intro h x q hx
    rw [hpc] at hx
    by_cases ha : Actor.hub h = a
    · subst ha
      rw [update_self] at hx
      exact absurd hx (hyield x q)
    · rw [update_of_ne ha] at hx
      exact hP.yielding h x q hx
  helper := by
    intro i
    rw [hpc]
    by_cases ha : Actor.helper i = a
    · subst ha
      rw [update_self]
      exact hhelper i rfl
    · rw [update_of_ne ha]
      exact hP.helper i

theorem PInv.setWs (hP : PInv s P) (hw : PlaceWs s.pc (P g) w) : PInv (s.setWs g w) P where
  hand := hP.hand
  ws := by
    intro x
    by_cases hx : x = g
    · subst hx
      simpa only [State.setWs, update_self] using hw
    · simpa only [State.setWs, update_of_ne hx] using hP.ws x
  runq := hP.runq
  fifo := hP.fifo
  lock := hP.lock
  len := hP.len
  refs := hP.refs
  yielding := hP.yielding
  helper := hP.helper

/-! ## The queue lock -/

theorem PInv.lock_keep (hP : PInv s P) (hc : c.locked ↔ (s.pc a).locked) (b : Actor n) :
    s.lock = some b ↔ (update s.pc a c b).locked := by
  rw [hP.lock b]
  by_cases hb : b = a
  · subst hb
    rw [update_self, hc]
  · rw [update_of_ne hb]

theorem PInv.lock_take (hP : PInv s P) (hfree : s.lock = none) (hc : c.locked) (b : Actor n) :
    some a = some b ↔ (update s.pc a c b).locked := by
  by_cases hb : b = a
  · subst hb
    simpa only [update_self, true_iff] using hc
  · have hnot : ¬(s.pc b).locked := by
      rw [← hP.lock b, hfree]
      simp
    simpa only [update_of_ne hb, Option.some.injEq, hnot, iff_false] using Ne.symm hb

theorem PInv.lock_drop (hP : PInv s P) (hold : (s.pc a).locked) (hc : ¬c.locked) (b : Actor n) :
    none = some b ↔ (update s.pc a c b).locked := by
  have hheld := (hP.lock a).mpr hold
  by_cases hb : b = a
  · subst hb
    simpa only [update_self, reduceCtorEq, false_iff] using hc
  · have hnot : ¬(s.pc b).locked := by
      rw [← hP.lock b, hheld]
      simpa using Ne.symm hb
    simpa only [update_of_ne hb, reduceCtorEq, false_iff] using hnot

theorem lenAhead_keep (hpc : t.pc = update s.pc a c) (hlock : t.lock = s.lock)
    (hc : c.lenAhead = (s.pc a).lenAhead) : lenAhead t = lenAhead s := by
  unfold lenAhead
  rw [hlock, hpc]
  cases s.lock with
  | none => rfl
  | some b =>
    by_cases hb : b = a
    · subst hb
      simpa only [update_self] using hc
    · simp only [update_of_ne hb]

theorem lenAhead_of_lock (hlock : s.lock = some a) : lenAhead s = (s.pc a).lenAhead := by
  unfold lenAhead
  rw [hlock]

theorem lenAhead_of_unlocked (hlock : s.lock = none) : lenAhead s = 0 := by
  unfold lenAhead
  rw [hlock]

end

end Runloom.WakeState
