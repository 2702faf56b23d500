import Runloom.Timer.Generations

/-!
# No value after a `Stop`

The fiber decides under the lock whether it fires, and sends after the lock is released.  A `Stop` that comes between
the two does not call the value back: the fiber of a ticker sends it after the `Stop` has returned, and so does the
fiber of a timer whose arming was replaced by a `Reset` before the `Stop`.
-/

namespace Runloom.Timer

open Transition

variable {T : Type*} {s s' : State T} {kind : Kind}

/-! ## The record -/

/-- What the calls of `Stop` have promised. -/
structure Hush (T : Type*) where
  /-- The call has stopped the object and has not returned; no `Reset` since. -/
  inStop : T → Bool
  /-- A `Stop` that counts has returned; no `Reset` since. -/
  hushed : Bool
  late : Nat

namespace Hush

def first : Hush T := ⟨fun _ => false, false, 0⟩

variable [DecidableEq T]

/-- A `Stop` returns and promises silence: for a timer with `True`, for a ticker always. -/
def returns (r : Hush T) (kind : Kind) (s : State T) : Action T → Bool
  | .stop _ => if s.active kind then s.fireG.isNone else !kind.oneShot
  | .cancelWait t => r.inStop t
  | _ => false

/-- The record after a step from `s`. -/
def next (r : Hush T) (kind : Kind) (s : State T) : Action T → Hush T
  | .stop t =>
    { r with
      hushed := r.hushed || r.returns kind s (.stop t),
      inStop := update r.inStop t (s.active kind && s.fireG.isSome) }
  | .cancelWait t => { r with hushed := r.hushed || r.inStop t, inStop := update r.inStop t false }
  | .reset _ => { r with hushed := false, inStop := fun _ => false }
  | .send _ => { r with late := r.late + if r.hushed then 1 else 0 }
  | _ => r

end Hush

variable [DecidableEq T]

def hushing (kind : Kind) : System (State T × Hush T) (Action T) :=
  (timer kind).withHistory .first fun r s a _ => r.next kind s a

/-- No fiber is between its decision and its send when a `Stop` returns. -/
def Settled (kind : Kind) (p : State T × Hush T) (a : Action T) : Prop :=
  p.2.returns kind p.1 a = true → ∀ n, p.1.fiber n ≠ .sending

/-! ## Steps of a stopped object -/

section

omit [DecidableEq T]

theorem fiber_setFiber_sending {n m : Nat} {pc : Pc} (hpc : pc ≠ .sending)
    (h : (s.setFiber n pc).fiber m = .sending) : s.fiber m = .sending := by
  simp only [State.setFiber, update_apply] at h
  split at h
  · exact absurd h hpc
  · exact h

theorem cancelWaitFd_sending {g m : Nat} (h : (s.cancelWaitFd g).fiber m = .sending) : s.fiber m = .sending := by
  unfold State.cancelWaitFd at h
  split at h
  · exact fiber_setFiber_sending (by decide) h
  · exact h

theorem cancelWaitFd_stopped (s : State T) (g : Nat) : (s.cancelWaitFd g).stopped = s.stopped := by
  unfold State.cancelWaitFd
  split <;> rfl

end

theorem stop_fiber (t : T) : (s.stop kind t).fiber = s.fiber := by
  unfold State.stop
  split
  · rfl
  · cases s.fireG <;> rfl

theorem stop_stopped (t : T) (h : s.active kind = true) : (s.stop kind t).stopped = true := by
  rw [State.active, Bool.not_eq_true'] at h
  rw [State.stop, h]
  cases s.fireG <;> rfl

theorem stop_of_stopped (t : T) (h : s.stopped = true) : s.stop kind t = s := by
  simp [State.stop, h]

theorem step_of_stopped {a : Action T} (h : step kind s a = some s') (hs : s.stopped = true)
    (ha : ∀ t, a ≠ .reset t) : s'.stopped = true ∧ ∀ n, s'.fiber n = .sending → s.fiber n = .sending := by
  cases a with
  | stop t =>
    simp only [step] at h
    split at h <;> cases h
    rw [stop_of_stopped t hs]
    exact ⟨hs, fun _ hn => hn⟩
  | reset t => exact absurd rfl (ha t)
  | cancelWait t =>
    simp only [step] at h
    split at h <;> cases h
    · exact ⟨(cancelWaitFd_stopped s _).trans hs, fun _ hn => cancelWaitFd_sending hn⟩
    · exact ⟨(cancelWaitFd_stopped s _).trans hs, fun _ hn => cancelWaitFd_sending hn⟩
  | spawn t instant =>
    simp only [step] at h
    split at h <;> cases h
    exact ⟨hs, fun _ hn => fiber_setFiber_sending (by decide : Pc.start ≠ .sending) hn⟩
  | publish n =>
    simp only [step] at h
    split at h <;> cases h
    have hdead : s.live n = false := by simp [State.live, hs]
    rw [State.publish, hdead]
    exact ⟨hs, fun _ hn => fiber_setFiber_sending (by decide) hn⟩
  | link n | wake n =>
    simp only [step] at h
    split at h <;> cases h
    exact ⟨hs, fun _ hn => fiber_setFiber_sending (by decide) hn⟩
  | recheck n =>
    simp only [step] at h
    split at h <;> cases h
    -- the section finds the object stopped, and the fiber ends
    have hdead : s.live n = false := by simp [State.live, hs]
    rw [State.recheck, hdead]
    exact ⟨hs, fun _ hn => fiber_setFiber_sending (by decide) hn⟩
  | send n =>
    simp only [step] at h
    split at h <;> cases h
    have hpc : (if kind.oneShot then Pc.finished else .start) ≠ .sending := by cases kind <;> decide
    exact ⟨hs, fun _ hn => fiber_setFiber_sending hpc hn⟩

/-! ## The invariant -/

structure Silent (s : State T) (r : Hush T) : Prop where
  inStop (t : T) (ht : r.inStop t = true) : s.stopped = true
  hushed (hr : r.hushed = true) : s.stopped = true ∧ ∀ n, s.fiber n ≠ .sending
  late : r.late = 0

variable {r : Hush T}

omit [DecidableEq T] in
theorem Silent.init (s : State T) : Silent s .first := ⟨nofun, nofun, rfl⟩

section

variable (hS : Silent s r)
include hS

theorem Silent.keep {a : Action T} (h : step kind s a = some s') (ha : ∀ t, a ≠ .reset t) : Silent s' r where
  inStop t ht := (step_of_stopped h (hS.inStop t ht) ha).1
  hushed hr := by
    obtain ⟨hs, hn⟩ := hS.hushed hr
    obtain ⟨hs', hback⟩ := step_of_stopped h hs ha
    exact ⟨hs', fun n h' => hn n (hback n h')⟩
  late := hS.late

theorem Silent.stop {t : T} (hC : Settled kind (s, r) (.stop t))
    (h : step kind s (.stop t) = some s') : Silent s' (r.next kind s (.stop t)) := by
  have hK := hS.keep h nofun
  have hs' : s' = s.stop kind t := by
    simp only [step] at h
    split at h
    · exact (Option.some_inj.mp h).symm
    · cases h
  -- a `Stop` of an object that is not active is one of a stopped ticker, or promises nothing
  have hstopped : s.active kind = true ∨ kind.oneShot = false → s'.stopped = true := by
    intro hor
    by_cases ha : s.active kind = true
    · rw [hs', stop_stopped t ha]
    · obtain ho := hor.resolve_left ha
      have hst : s.stopped = true := by simpa [State.active, ho] using ha
      rw [hs', stop_of_stopped t hst, hst]
  refine ⟨fun u hu => ?_, fun hr => ?_, hS.late⟩
  · simp only [Hush.next, update_apply] at hu
    split at hu
    · exact hstopped (.inl (Bool.and_eq_true_iff.mp hu).1)
    · exact hK.inStop u hu
  · simp only [Hush.next, Bool.or_eq_true] at hr
    rcases hr with hr | hr
    · exact hK.hushed hr
    · refine ⟨hstopped ?_, fun n => ?_⟩
      · by_cases ha : s.active kind = true
        · exact .inl ha
        · simp only [Hush.returns, ha, Bool.false_eq_true, if_false] at hr
          exact .inr (by simpa using hr)
      · rw [hs', stop_fiber]
        exact hC hr n

theorem Silent.cancelWait {t : T} (hC : Settled kind (s, r) (.cancelWait t))
    (h : step kind s (.cancelWait t) = some s') : Silent s' (r.next kind s (.cancelWait t)) := by
  have hK := hS.keep h nofun
  refine ⟨fun u hu => ?_, fun hr => ?_, hS.late⟩
  · simp only [Hush.next, update_apply] at hu
    split at hu
    · cases hu
    · exact hK.inStop u hu
  · simp only [Hush.next, Bool.or_eq_true] at hr
    rcases hr with hr | hr
    · exact hK.hushed hr
    · obtain ⟨hs', hback⟩ := step_of_stopped h (hS.inStop t hr) nofun
      exact ⟨hs', fun n h' => hC hr n (hback n h')⟩

theorem Silent.send {n : Nat} (h : step kind s (.send n) = some s') : Silent s' (r.next kind s (.send n)) := by
  have hn : s.fiber n = .sending := by
    simp only [step] at h
    split at h
    next hn => exact hn
    next => cases h
  have hr : r.hushed = false := by
    by_contra hr
    exact (hS.hushed (by simpa using hr)).2 n hn
  have hK := hS.keep h nofun
  refine ⟨hK.inStop, hK.hushed, ?_⟩
  simp only [Hush.next, hr, Bool.false_eq_true, if_false, Nat.add_zero]
  exact hS.late

theorem Silent.step {a : Action T} (hC : Settled kind (s, r) a)
    (h : Timer.step kind s a = some s') : Silent s' (r.next kind s a) := by
  cases a with
  | stop t => exact hS.stop hC h
  | reset t => exact ⟨nofun, nofun, hS.late⟩
  | cancelWait t => exact hS.cancelWait hC h
  | spawn t instant | publish n | link n | wake n | recheck n => exact hS.keep h nofun
  | send n => exact hS.send h

end

/-! ## Silence -/

/-- When no fiber is between its decision and its send at the return of a `Stop`, no value is sent until the next
`Reset`. -/
theorem no_tick_after_stop {p : State T × Hush T} (h : (hushing kind).ReachableWith (Settled kind) p) :
    p.2.late = 0 := by
  have hS : Silent p.1 p.2 := by
    refine h.invariant (P := fun p => Silent p.1 p.2) (fun p hp => ?_) fun p a q hS hC ha => ?_
    · rw [hp.2]
      exact .init p.1
    · obtain ⟨hs, hr⟩ := System.withHistory_step ha
      rw [hr]
      exact hS.step hC hs
  exact hS.late

/-- The fiber of a timer is parked when the timer is stopped. -/
theorem no_tick_after_stop_parked :
    ∃ p : State Unit × Hush Unit, (hushing .timer).ReachableWith (Settled .timer) p ∧ p.2.hushed = true ∧
      p.1.fiber 0 = .finished ∧ p.2.late = 0 := by
  -- the only step by which a `Stop` returns is `cancelWait`, with the one fiber parked
  have hr := (System.ReachableWith.init (M := hushing (T := Unit) .timer) (C := Settled .timer)
      (s := (newTimer, .first)) ⟨newTimer_init, rfl⟩)
    |>.step (a := .publish 0) nofun rfl |>.step (a := .link 0) nofun rfl |>.step (a := .stop ()) nofun rfl
    |>.step (a := .cancelWait ()) (fun _ n => by rcases n with _ | n <;> nofun) rfl
    |>.step (a := .recheck 0) nofun rfl
  exact ⟨_, hr, rfl, rfl, no_tick_after_stop hr⟩

/-- A ticker that has decided to tick sends after its `Stop`, and so does an arming that was reset. -/
theorem tick_after_stop : (∃ p : State Unit × Hush Unit, (hushing .ticker).Reachable p ∧ p.2.late = 1) ∧
    ∃ p : State Unit × Hush Unit, (hushing .timer).Reachable p ∧ p.2.late = 1 := by
  constructor
  · exact (hushing (T := Unit) .ticker).reaches (fun p => p.2.late = 1)
      [.publish 0, .link 0, .wake 0, .recheck 0, .stop (), .send 0]
      (s := (newTimer, .first)) ⟨newTimer_init, rfl⟩ (by decide +kernel)
  · exact (hushing (T := Unit) .timer).reaches (fun p => p.2.late = 1)
      [.publish 0, .link 0, .wake 0, .recheck 0, .reset (), .spawn () false, .stop (), .send 0]
      (s := (newTimer, .first)) ⟨newTimer_init, rfl⟩ (by decide +kernel)

end Runloom.Timer
