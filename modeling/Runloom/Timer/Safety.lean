import Runloom.Timer.Model

/-!
# A stopped timer's fiber does not sleep on

A fiber that is parked, or on its way to the park, is the cancel target of its object as long as its generation is
live; the call that ends its generation takes the target with it.  If it is not linked yet, nothing wakes the fiber
once it is.
-/

namespace Runloom.Timer

open Transition

variable {T : Type*} {s s' : State T} {kind : Kind}

namespace Pc

def committed : Pc → Bool
  | .published | .parked => true
  | _ => false

end Pc

def Call.target : Call → Option Nat
  | .stopping g | .resetting g _ => some g
  | _ => none

def Call.next : Call → Option Nat
  | .resetting _ gen | .spawning gen => some gen
  | _ => none

structure Inv (s : State T) : Prop where
  born : ∀ n, s.fiber n ≠ .unborn → n ≤ s.gen
  next : ∀ t n, (s.call t).next = some n → n ≤ s.gen
  covered : ∀ n, (s.fiber n).committed = true →
    s.live n = true ∧ s.fireG = some n ∨ ∃ t, (s.call t).target = some n

/-- `cancel_wait_fd` does not come between the publication of the handle and the link of the parker. -/
def Linked (s : State T) : Action T → Prop
  | .cancelWait t => ∀ g, (s.call t).target = some g → s.fiber g ≠ .published
  | _ => True

theorem Inv.init (h : Init s) : Inv s where
  born n hn := by
    by_contra hlt
    refine hn (h.fiber n ?_)
    rintro rfl
    exact hlt (Nat.zero_le _)
  next t n ht := by
    rw [h.call] at ht
    cases ht
  covered n hn := by
    by_cases h0 : n = 0
    · rw [h0, h.first] at hn
      cases hn
    · rw [h.fiber n h0] at hn
      cases hn

theorem Inv.setFiber (hI : Inv s) {n : Nat} {pc : Pc} (hborn : s.fiber n ≠ .unborn)
    (hpc : pc.committed = true → (s.fiber n).committed = true) : Inv (s.setFiber n pc) where
  born m hm := by
    simp only [State.setFiber] at hm
    by_cases hmn : m = n
    · exact hmn ▸ hI.born n hborn
    · rw [update_of_ne hmn] at hm
      exact hI.born m hm
  next := hI.next
  covered m hm := by
    simp only [State.setFiber] at hm
    by_cases hmn : m = n
    · rw [hmn, update_self] at hm
      exact hmn ▸ hI.covered n (hpc hm)
    · rw [update_of_ne hmn] at hm
      exact hI.covered m hm

theorem Inv.publish (hI : Inv s) {n : Nat} (hn : s.fiber n = .start) : Inv (s.publish n) := by
  have hborn : s.fiber n ≠ .unborn := by
    rw [hn]
    nofun
  unfold State.publish
  split
  next hlive =>
    refine ⟨fun m hm => ?_, hI.next, fun m hm => ?_⟩
    · simp only [State.setFiber] at hm
      by_cases hmn : m = n
      · exact hmn ▸ hI.born n hborn
      · rw [update_of_ne hmn] at hm
        exact hI.born m hm
    · by_cases hmn : m = n
      · exact .inl ⟨hmn ▸ hlive, congrArg some hmn.symm⟩
      · simp only [State.setFiber, update_of_ne hmn] at hm
        rcases hI.covered m hm with ⟨hl, -⟩ | h
        · -- Only one generation is live.
          simp only [State.live, Bool.and_eq_true, beq_iff_eq] at hl hlive
          exact absurd (hl.2.symm.trans hlive.2) hmn
        · exact .inr h
  next => exact hI.setFiber hborn nofun

theorem Inv.recheck (hI : Inv s) {n : Nat} (hn : s.fiber n = .woken) : Inv (s.recheck kind n) := by
  have hborn : s.fiber n ≠ .unborn := by
    rw [hn]
    nofun
  unfold State.recheck
  split
  next h =>
    have hlive := (Bool.and_eq_true_iff.mp h).1
    refine ⟨fun m hm => ?_, hI.next, fun m hm => ?_⟩
    · simp only [State.setFiber] at hm
      by_cases hmn : m = n
      · exact hmn ▸ hI.born n hborn
      · rw [update_of_ne hmn] at hm
        exact hI.born m hm
    · have hmn : m ≠ n := by
        rintro rfl
        simp only [State.setFiber, update_self] at hm
        cases hm
      simp only [State.setFiber, update_of_ne hmn] at hm
      rcases hI.covered m hm with ⟨hl, -⟩ | h
      · simp only [State.live, Bool.and_eq_true, beq_iff_eq] at hl hlive
        exact absurd (hl.2.symm.trans hlive.2) hmn
      · exact .inr h
  next => exact hI.setFiber hborn nofun

variable [DecidableEq T]

section

variable (hI : Inv s)
include hI

theorem Inv.supersede {t : T} {c : Call} (hgen : s'.gen = s.gen + 1)
    (hfiber : s'.fiber = s.fiber) (hcall : s'.call = Function.update s.call t c)
    (hold : s.call t = .idle) (htarget : c.target = s.fireG)
    (hnext : ∀ n, c.next = some n → n ≤ s.gen + 1) : Inv s' where
  born n hn := by
    rw [hfiber] at hn
    have := hI.born n hn
    omega
  next u n hu := by
    rw [hcall] at hu
    rw [hgen]
    by_cases hut : u = t
    · subst hut
      rw [update_self] at hu
      exact hnext n hu
    · rw [update_of_ne hut] at hu
      have := hI.next u n hu
      omega
  covered n hn := by
    rw [hfiber] at hn
    rw [hcall]
    rcases hI.covered n hn with ⟨-, hg⟩ | ⟨u, hu⟩
    · refine .inr ⟨t, ?_⟩
      rw [update_self, htarget, hg]
    · refine .inr ⟨u, ?_⟩
      have hut : u ≠ t := by
        rintro rfl
        rw [hold] at hu
        cases hu
      rw [update_of_ne hut]
      exact hu

theorem Inv.stop {t : T} (ht : s.call t = .idle) : Inv (s.stop kind t) := by
  unfold State.stop
  split
  · exact hI
  · split
    next hg =>
      refine hI.supersede (t := t) (c := .idle) rfl rfl ?_ ht hg.symm nofun
      rw [← ht]
      exact (update_eq_self t s.call).symm
    next g hg => exact hI.supersede rfl rfl rfl ht hg.symm nofun

theorem Inv.reset {t : T} (ht : s.call t = .idle) : Inv (s.reset t) := by
  have hnext : ∀ n, some (s.gen + 1) = some n → n ≤ s.gen + 1 := by
    intro n hn
    cases hn
    exact Nat.le_refl _
  unfold State.reset
  split
  next hg => exact hI.supersede rfl rfl rfl ht hg.symm hnext
  next g hg => exact hI.supersede rfl rfl rfl ht hg.symm hnext

theorem Inv.cancelWait {t : T} {g : Nat} {c : Call} (ht : (s.call t).target = some g)
    (hg : s.fiber g ≠ .published)
    (hnext : ∀ n, c.next = some n → (s.call t).next = some n) :
    Inv ((s.cancelWaitFd g).setCall t c) := by
  have hpast : ((s.cancelWaitFd g).fiber g).committed = false := by
    unfold State.cancelWaitFd
    split
    next => simp only [State.setFiber, update_self, Pc.committed]
    next hne =>
      cases hpc : s.fiber g with
      | published => exact absurd hpc hg
      | parked => exact absurd hpc hne
      | _ => rfl
  have hI' : Inv (s.cancelWaitFd g) := by
    unfold State.cancelWaitFd
    split
    next hp =>
      refine hI.setFiber ?_ nofun
      rw [hp]
      nofun
    next => exact hI
  have hcall : (s.cancelWaitFd g).call = s.call := by
    unfold State.cancelWaitFd
    split <;> rfl
  refine ⟨hI'.born, fun u n hu => ?_, fun n hn => ?_⟩
  · simp only [State.setCall] at hu
    by_cases hut : u = t
    · subst hut
      rw [update_self] at hu
      apply hI'.next u n
      rw [hcall]
      exact hnext n hu
    · rw [update_of_ne hut] at hu
      exact hI'.next u n hu
  · rcases hI'.covered n hn with h | ⟨u, hu⟩
    · exact .inl h
    · refine .inr ⟨u, ?_⟩
      have hut : u ≠ t := by
        rintro rfl
        rw [hcall, ht] at hu
        cases hu
        rw [show ((s.cancelWaitFd g).fiber g).committed = true from hn] at hpast
        cases hpast
      simp only [State.setCall, update_of_ne hut]
      exact hu

theorem Inv.spawn {t : T} {gen : Nat} {instant : Nat → Bool} (ht : s.call t = .spawning gen) :
    Inv ({ s with fiber := Function.update s.fiber gen .start, instant := instant }.setCall t .idle) := by
  refine ⟨fun n hn => ?_, fun u n hu => ?_, fun n hn => ?_⟩
  · simp only [State.setCall] at hn
    by_cases hng : n = gen
    · subst hng
      apply hI.next t n
      rw [ht]
      rfl
    · rw [update_of_ne hng] at hn
      exact hI.born n hn
  · simp only [State.setCall] at hu
    by_cases hut : u = t
    · rw [hut, update_self] at hu
      cases hu
    · rw [update_of_ne hut] at hu
      exact hI.next u n hu
  · simp only [State.setCall] at hn ⊢
    have hng : n ≠ gen := by
      rintro rfl
      rw [update_self] at hn
      cases hn
    rw [update_of_ne hng] at hn
    rcases hI.covered n hn with h | ⟨u, hu⟩
    · exact .inl h
    · refine .inr ⟨u, ?_⟩
      have hut : u ≠ t := by
        rintro rfl
        rw [ht] at hu
        cases hu
      rw [update_of_ne hut]
      exact hu

theorem Inv.step {a : Action T} (hC : Linked s a) (h : step kind s a = some s') :
    Inv s' := by
  have hborn : ∀ {n pc}, s.fiber n = pc → pc ≠ .unborn → s.fiber n ≠ .unborn :=
    fun hpc hne h => hne (hpc.symm.trans h)
  unfold Timer.step at h
  split at h
  next t =>
    split at h <;> cases h
    next ht => exact hI.stop ht
  next t =>
    split at h <;> cases h
    next ht => exact hI.reset ht
  next t =>
    have hlinked : ∀ g, (s.call t).target = some g → s.fiber g ≠ .published := hC
    split at h <;> cases h
    next g ht =>
      rw [ht] at hlinked
      refine hI.cancelWait ?_ (hlinked g rfl) nofun
      rw [ht]
      rfl
    next g gen ht =>
      rw [ht] at hlinked
      apply hI.cancelWait _ (hlinked g rfl)
      · intro n hn
        rw [ht]
        exact hn
      · rw [ht]
        rfl
  next t instant =>
    split at h <;> cases h
    next gen ht => exact hI.spawn ht
  next n =>
    split at h <;> cases h
    next hn => exact hI.publish hn
  next n =>
    split at h <;> cases h
    next hn =>
      apply hI.setFiber (hborn hn nofun)
      rw [hn]
      exact fun _ => rfl
  next n =>
    split at h <;> cases h
    next hn => exact hI.setFiber (hborn hn nofun) nofun
  next n =>
    split at h <;> cases h
    next hn => exact hI.recheck hn
  next n =>
    split at h <;> cases h
    next hn =>
      have hI' : Inv { s with sent := s.sent + 1 } := ⟨hI.born, hI.next, hI.covered⟩
      have hne : s.fiber n ≠ .unborn := hborn hn nofun
      refine hI'.setFiber hne fun hc => ?_
      cases kind <;> cases hc

end

theorem inv_of_reachable (h : (timer kind).ReachableWith Linked s) : Inv s :=
  h.invariant (fun _ => Inv.init) fun _ _ _ hI hC hs => hI.step hC hs

/-- A fiber whose generation is over is parked only while the call that ended it is still to cancel it. -/
def Released (s : State T) : Prop :=
  ∀ n, s.fiber n = .parked → s.live n = true ∨ ∃ t, (s.call t).target = some n

end Runloom.Timer

namespace Runloom.Deadline

open Transition

variable {T : Type*} {s s' : State T}

namespace Pc

/-- The waker will park before its next test of `_err`, or is parked. -/
def committed : Pc → Bool
  | .arming | .parked => true
  | _ => false

def awake : Pc → Bool
  | .testing | .arming | .parked => true
  | _ => false

end Pc

structure Inv (s : State T) : Prop where
  handle : s.waker.awake = true → s.err = false → s.deadlineG = true
  covered : s.waker.committed = true → s.err = false ∨ ∃ t, s.waking t = true

/-- `cancel_wait_fd` does not come between the waker's test of `_err` and the link of its parker. -/
def Linked (s : State T) : Action T → Prop
  | .cancelWait _ => s.waker ≠ .arming
  | _ => True

theorem Inv.init (h : Init s) : Inv s where
  handle hw := by
    rw [h.waker] at hw
    cases hw
  covered hw := by
    rw [h.waker] at hw
    cases hw

/-- A cancelled context is parked only while the call that cancelled it is still to wake the waker. -/
def Released (s : State T) : Prop :=
  s.waker = .parked → s.err = false ∨ ∃ t, s.waking t = true

theorem Inv.move (hI : Inv s) {pc : Pc} (hawake : pc.awake = true → s.waker.awake = true)
    (hcommit : pc.committed = true → s.waker.committed = true ∨ s.err = false) :
    Inv { s with waker := pc } where
  handle hw he := hI.handle (hawake hw) he
  covered hw := by
    rcases hcommit hw with h | h
    · exact hI.covered h
    · exact .inl h

variable [DecidableEq T]

theorem Inv.step (hI : Inv s) {a : Action T} (hC : Linked s a) (h : step s a = some s') :
    Inv s' := by
  unfold Deadline.step at h
  split at h
  next t =>
    split at h
    next => cases h
    next ht =>
      split at h <;> cases h
      next => exact hI
      next he =>
        refine ⟨nofun, fun hw => .inr ⟨t, ?_⟩⟩
        have hawake : s.waker.awake = true := by
          cases hpc : s.waker with
          | arming | parked => rfl
          | _ =>
            simp only [hpc] at hw
            cases hw
        simp only [Function.update_self]
        exact hI.handle hawake (Bool.eq_false_iff.mpr he)
  next t =>
    split at h <;> cases h
    next ht =>
      have hlinked : s.waker ≠ .arming := hC
      -- The waker is no longer parked, and was not on its way there.
      cases hpc : s.waker with
      | arming => exact absurd hpc hlinked
      | parked =>
        exact ⟨fun _ he => hI.handle (by rw [hpc]; rfl) he, nofun⟩
      | _ =>
        have hhandle := hI.handle
        rw [hpc] at hhandle
        exact ⟨hhandle, nofun⟩
  next =>
    split at h <;> cases h
    exact ⟨fun _ _ => rfl, nofun⟩
  next expired =>
    split at h <;> cases h
    next hpc =>
      apply hI.move
      · rw [hpc]
        exact fun _ => rfl
      · intro hw
        cases he : s.err with
        | false => exact .inr rfl
        | true =>
          rw [he] at hw
          cases hw
  next =>
    split at h <;> cases h
    next hpc =>
      apply hI.move <;> rw [hpc]
      · exact fun _ => rfl
      · exact fun _ => .inl rfl
  next =>
    split at h <;> cases h
    next hpc =>
      apply hI.move
      · rw [hpc]
        exact fun _ => rfl
      · nofun
  next =>
    split at h <;> cases h
    next hpc =>
      apply hI.move
      · cases s.err <;> nofun
      · cases s.err <;> nofun
  next =>
    split at h <;> cases h
    exact ⟨nofun, nofun⟩

theorem inv_of_reachable (h : deadline.ReachableWith Linked s) : Inv s :=
  h.invariant (fun _ => Inv.init) fun _ _ _ hI hC hs => hI.step hC hs

end Runloom.Deadline

namespace Runloom.Timer

open Transition

variable {T : Type*} [DecidableEq T]

/-- When `cancel_wait_fd` is never called in the gap before the link, no fiber is left parked after the call that
stopped it. -/
theorem stopped_fiber_not_left_parked :
    (∀ (kind : Kind) (s : State T), (timer kind).ReachableWith Linked s → Released s) ∧
    ∀ s : Deadline.State T, Deadline.deadline.ReachableWith Deadline.Linked s → Deadline.Released s := by
  refine ⟨fun kind s h n hn => ?_, fun s h hw => ?_⟩
  · rcases (inv_of_reachable h).covered n (by rw [hn]; rfl) with h | h
    · exact .inl h.1
    · exact .inr h
  · exact (Deadline.inv_of_reachable h).covered (by rw [hw]; rfl)

instance (s : State T) : ∀ a, Decidable (Linked s a)
  | .cancelWait t =>
    match h : (s.call t).target with
    | none => .isTrue (fun g hg => by rw [h] at hg; cases hg)
    | some g =>
      decidable_of_iff (s.fiber g ≠ .published)
        ⟨fun hne g' hg' => by rw [h] at hg'; cases hg'; exact hne, fun hC => hC g h⟩
  | .stop _ | .reset _ | .spawn .. | .publish _ | .link _ | .wake _ | .recheck _ | .send _ =>
    .isTrue trivial

/-- A timer that is stopped after it has parked. -/
theorem stopped_fiber_not_left_parked_timer :
    ∃ s : State Unit, (timer .timer).ReachableWith Linked s ∧ Released s ∧ s.stopped = true ∧
      s.call () = .idle ∧ s.fiber 0 = .woken := by
  obtain ⟨s, hr, hp⟩ := (timer (T := Unit) .timer).reachesWith Linked
    (fun s => s.stopped = true ∧ s.call () = .idle ∧ s.fiber 0 = .woken)
    [.publish 0, .link 0, .stop (), .cancelWait ()]
    ⟨rfl, rfl, rfl, rfl, rfl, fun n hn => if_neg hn, fun _ => rfl⟩
    (s := ⟨0, false, false, none, fun n => if n = 0 then .start else .unborn, fun _ => false,
      fun _ => .idle, 0⟩) (by decide +kernel)
  exact ⟨s, hr, stopped_fiber_not_left_parked.1 _ _ hr, hp⟩

/-- `cancel_wait_fd` comes before the link, and nothing wakes the fiber before its timeout. -/
theorem cancel_before_link_is_lost : (∀ kind, ¬∀ s : State Unit, (timer kind).Reachable s → Released s) ∧
    ¬∀ s : Deadline.State Unit, Deadline.deadline.Reachable s → Deadline.Released s := by
  constructor
  · intro kind hclaim
    obtain ⟨s, hr, hstop, hcall, hpark⟩ := (timer (T := Unit) kind).reaches
      (fun s => s.stopped = true ∧ s.call () = .idle ∧ s.fiber 0 = .parked)
      [.publish 0, .stop (), .cancelWait (), .link 0]
      ⟨rfl, rfl, rfl, rfl, rfl, fun n hn => if_neg hn, fun _ => rfl⟩
      (s := ⟨0, false, false, none, fun n => if n = 0 then .start else .unborn, fun _ => false,
        fun _ => .idle, 0⟩) (by cases kind <;> decide)
    rcases hclaim s hr 0 hpark with h | ⟨t, ht⟩
    · simp only [State.live, hstop] at h
      cases h
    · rw [show s.call t = .idle from hcall] at ht
      cases ht
  · intro hclaim
    obtain ⟨s, hr, herr, hwaking, hpark⟩ := (Deadline.deadline (T := Unit)).reaches
      (fun s => s.err = true ∧ s.waking () = false ∧ s.waker = .parked)
      [.publish, .test false, .cancel (), .cancelWait (), .link]
      ⟨rfl, rfl, rfl, fun _ => rfl⟩ (s := ⟨false, false, .start, fun _ => false⟩) (by decide +kernel)
    rcases hclaim s hr hpark with h | ⟨t, ht⟩
    · rw [herr] at h
      cases h
    · rw [show s.waking t = false from hwaking] at ht
      cases ht

end Runloom.Timer
