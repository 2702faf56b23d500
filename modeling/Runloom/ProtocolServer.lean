import Mathlib.Data.Finset.Basic
import Runloom.Transition.System

/-!
# The server of `create_server`

Model of `_ProtocolServer`: `_accept_loop`, `_setup_tls_conn`, `close`, `_detach`, `_wakeup` and `wait_closed`, with
the end of a connection as `_deliver_connection_lost` schedules it.  A step is a stretch of code between two places
where a fiber can park: the accept, the end of a handshake, the callbacks of the protocol.

A connection gets into `_conns` at the end of its set-up.  With TLS the set-up runs in a fiber of its own, and has the
handshake in it; without, it has only the callbacks `_factory` and `connection_made`.
-/

namespace Runloom.ProtocolServer

open Transition

inductive Phase where
  | unseen
  | accepted
  | shaken
  | built
  | endedEarly
  /-- In `_conns`. -/
  | live
  | ended
deriving DecidableEq

/-- A call of `wait_closed`. -/
inductive Waiter where
  | notCalled
  | waiting
  | completed
  | cancelled
deriving DecidableEq

structure State (C W : Type*) where
  closed : Bool
  conns : Finset C
  /-- `_waiters`, which is `None` after `_wakeup`. -/
  waiters : Option (List W)
  phase : C → Phase
  waiter : W → Waiter

inductive Action (C W : Type*) where
  | accept (c : C)
  | handshake (c : C) (ok : Bool)
  /-- `_factory` and the transport; a factory may raise. -/
  | build (c : C) (ok : Bool)
  | record (c : C)
  /-- `_deliver` runs: `connection_lost`, the socket, `_detach`. -/
  | lost (c : C)
  | close
  | waitClosed (w : W)
  | cancel (w : W)

variable {C W : Type*}

namespace State

variable [DecidableEq C] [DecidableEq W]

def setPhase (s : State C W) (c : C) (p : Phase) : State C W :=
  { s with phase := update s.phase c p }

def wakeup (s : State C W) : State C W :=
  match s.waiters with
  | none => s
  | some ws =>
    { s with
      waiters := none
      -- A future that is done, by a cancel, is passed over.
      waiter := fun w => if w ∈ ws ∧ s.waiter w = .waiting then .completed else s.waiter w }

/-- The end of `close` and of `_detach`. -/
def wakeIfDrained (s : State C W) : State C W :=
  if s.closed ∧ s.conns = ∅ then s.wakeup else s

def detach (s : State C W) (c : C) : State C W := { s with conns := s.conns.erase c }.wakeIfDrained

def close (s : State C W) : State C W :=
  if s.closed then s else { s with closed := true }.wakeIfDrained

def waitClosed (s : State C W) (w : W) : State C W :=
  match s.waiters with
  | none => { s with waiter := update s.waiter w .completed }
  | some ws =>
    { s with waiters := some (ws ++ [w]), waiter := update s.waiter w .waiting }

end State

variable [DecidableEq C] [DecidableEq W]

def step (tls : Bool) (s : State C W) : Action C W → Option (State C W)
  | .accept c => if s.closed = false ∧ s.phase c = .unseen then some (s.setPhase c .accepted) else none
  | .handshake c ok =>
    if tls ∧ s.phase c = .accepted then some (s.setPhase c (if ok then .shaken else .ended)) else none
  | .build c ok =>
    if s.phase c = (if tls then .shaken else .accepted) then
      some (s.setPhase c (if ok then .built else .ended))
    else none
  | .record c =>
    match s.phase c with
    | .built => some ({ s with conns := insert c s.conns }.setPhase c .live)
    -- Its `_detach` has been, and there is no other.
    | .endedEarly => some ({ s with conns := insert c s.conns }.setPhase c .ended)
    | _ => none
  | .lost c =>
    match s.phase c with
    -- `_detach` finds nothing to take out, and may still wake the waiters.
    | .built => some ((s.setPhase c .endedEarly).detach c)
    | .live => some ((s.setPhase c .ended).detach c)
    | _ => none
  | .close => some s.close
  | .waitClosed w => if s.waiter w = .notCalled then some (s.waitClosed w) else none
  | .cancel w =>
    if s.waiter w = .waiting then some { s with waiter := update s.waiter w .cancelled } else none

structure Init (s : State C W) : Prop where
  closed : s.closed = false
  conns : s.conns = ∅
  waiters : s.waiters = some []
  phase : ∀ c, s.phase c = .unseen
  waiter : ∀ w, s.waiter w = .notCalled

def protocolServer (C W : Type*) [DecidableEq C] [DecidableEq W] (tls : Bool) :
    System (State C W) (Action C W) where
  init := Init
  step := step tls

end Runloom.ProtocolServer

/-!
## Who is waited for

`_wakeup` goes by `_conns`, which does not have the connections that are being set up.  A server that is closed while
a handshake runs, and has no other connection, lets `wait_closed` return at once.
-/

namespace Runloom.ProtocolServer

open Transition

variable {C W : Type*}

def Phase.settingUp : Phase → Bool
  | .accepted | .shaken | .built => true
  | _ => false

def Phase.over : Phase → Bool
  | .unseen | .ended => true
  | _ => false

theorem Phase.over_of {p : Phase} (hsetUp : p.settingUp = false) (hlive : p ≠ .live)
    (hearly : p ≠ .endedEarly) : p.over = true := by
  cases p with
  | unseen | ended => rfl
  | live => exact absurd rfl hlive
  | endedEarly => exact absurd rfl hearly
  | _ => cases hsetUp

/-- No wakeup happens while a connection is being set up, and none ends unrecorded. -/
def Recorded [DecidableEq C] (s : State C W) : Action C W → Prop
  | .close => s.closed = false → s.conns = ∅ → ∀ c, (s.phase c).settingUp = false
  | .lost c =>
    s.phase c ≠ .built ∧ (s.closed = true → s.conns.erase c = ∅ → ∀ d, (s.phase d).settingUp = false)
  | _ => True

structure Inv (s : State C W) : Prop where
  conns : ∀ c, c ∈ s.conns ↔ s.phase c = .live
  early : ∀ c, s.phase c ≠ .endedEarly
  registered : ∀ w, s.waiter w = .waiting → ∃ ws, s.waiters = some ws ∧ w ∈ ws
  completed : ∀ w, s.waiter w = .completed → s.waiters = none
  woken : s.waiters = none → s.closed = true ∧ ∀ c, (s.phase c).over = true
  drained : s.closed = true → s.conns = ∅ → s.waiters = none

variable {s s' : State C W} {c : C} {w : W} {p : Phase}

theorem Inv.init (h : Init s) : Inv s where
  conns c := by
    rw [h.conns, h.phase]
    exact iff_of_false (Finset.notMem_empty c) fun h => by cases h
  early c := by
    rw [h.phase]
    exact fun h => by cases h
  registered w hw := by
    rw [h.waiter] at hw
    cases hw
  completed w hw := by
    rw [h.waiter] at hw
    cases hw
  woken hnone := by
    rw [h.waiters] at hnone
    cases hnone
  drained hclosed := by
    rw [h.closed] at hclosed
    cases hclosed

/-! ## The calls of `wait_closed` -/

section Waiters

variable [DecidableEq W]

theorem Inv.waitClosed (hI : Inv s) : Inv (s.waitClosed w) := by
  unfold State.waitClosed
  split
  next hnone =>
    refine { hI with registered := fun v hv => ?_, completed := fun _ _ => hnone }
    by_cases hvw : v = w
    · subst hvw
      simp only [update_self] at hv
      cases hv
    · simp only [update_of_ne hvw] at hv
      exact hI.registered v hv
  next ws hsome =>
    have hnever : s.waiters = none → False := by
      intro hnone
      rw [hsome] at hnone
      cases hnone
    refine ⟨hI.conns, hI.early, fun v hv => ⟨_, rfl, ?_⟩, fun v hv => ?_, fun h => (by cases h),
      fun hclosed hempty => (hnever (hI.drained hclosed hempty)).elim⟩
    · by_cases hvw : v = w
      · exact List.mem_append_right _ (List.mem_singleton.mpr hvw)
      · simp only [update_of_ne hvw] at hv
        obtain ⟨ws', hws, hmem⟩ := hI.registered v hv
        rw [hsome] at hws
        cases hws
        exact List.mem_append_left _ hmem
    · by_cases hvw : v = w
      · subst hvw
        simp only [update_self] at hv
        cases hv
      · simp only [update_of_ne hvw] at hv
        exact (hnever (hI.completed v hv)).elim

theorem Inv.cancel (hI : Inv s) : Inv { s with waiter := Function.update s.waiter w .cancelled } := by
  refine { hI with registered := fun v hv => ?_, completed := fun v hv => ?_ }
  · by_cases hvw : v = w
    · subst hvw
      simp only [update_self] at hv
      cases hv
    · simp only [update_of_ne hvw] at hv
      exact hI.registered v hv
  · by_cases hvw : v = w
    · subst hvw
      simp only [update_self] at hv
      cases hv
    · simp only [update_of_ne hvw] at hv
      exact hI.completed v hv

end Waiters

/-! ## The connections -/

variable [DecidableEq C]

theorem Inv.setUp (hI : Inv s) (hold : s.phase c ≠ .live) (hnew : p ≠ .live) (hearly : p ≠ .endedEarly)
    (hover : s.waiters = none → p.over = true) : Inv (s.setPhase c p) where
  conns d := by
    by_cases hdc : d = c
    · subst hdc
      simp only [State.setPhase, update_self]
      rw [hI.conns]
      exact iff_of_false hold hnew
    · simp only [State.setPhase, update_of_ne hdc]
      exact hI.conns d
  early d := by
    by_cases hdc : d = c
    · subst hdc
      simp only [State.setPhase, update_self]
      exact hearly
    · simp only [State.setPhase, update_of_ne hdc]
      exact hI.early d
  registered := hI.registered
  completed := hI.completed
  woken hnone := by
    refine ⟨(hI.woken hnone).1, fun d => ?_⟩
    by_cases hdc : d = c
    · subst hdc
      simp only [State.setPhase, update_self]
      exact hover hnone
    · simp only [State.setPhase, update_of_ne hdc]
      exact (hI.woken hnone).2 d
  drained := hI.drained

theorem Inv.record (hI : Inv s) (hpc : s.phase c = .built) :
    Inv ({ s with conns := insert c s.conns }.setPhase c .live) where
  conns d := by
    simp only [State.setPhase, Finset.mem_insert, hI.conns]
    by_cases hdc : d = c
    · subst hdc
      rw [update_self]
      exact iff_of_true (.inl rfl) rfl
    · rw [update_of_ne hdc]
      exact or_iff_right hdc
  early d := by
    simp only [State.setPhase]
    by_cases hdc : d = c
    · subst hdc
      rw [update_self]
      exact fun h => by cases h
    · rw [update_of_ne hdc]
      exact hI.early d
  registered := hI.registered
  completed := hI.completed
  woken hnone := by
    have := (hI.woken hnone).2 c
    rw [hpc] at this
    cases this
  drained _ hempty := absurd hempty (Finset.insert_ne_empty c s.conns)

variable [DecidableEq W]

theorem Inv.wakeIfDrained (hconns : ∀ c, c ∈ s.conns ↔ s.phase c = .live) (hearly : ∀ c, s.phase c ≠ .endedEarly)
    (hregistered : ∀ w, s.waiter w = .waiting → ∃ ws, s.waiters = some ws ∧ w ∈ ws)
    (hcompleted : ∀ w, s.waiter w = .completed → s.waiters = none)
    (hwoken : s.waiters = none → s.closed = true ∧ ∀ c, (s.phase c).over = true)
    (hover : s.closed = true → s.conns = ∅ → ∀ c, (s.phase c).over = true) : Inv s.wakeIfDrained := by
  unfold State.wakeIfDrained
  split
  next hdrained =>
    unfold State.wakeup
    split
    next hnone =>
      exact ⟨hconns, hearly, hregistered, hcompleted, hwoken, fun _ _ => hnone⟩
    next ws hsome =>
      refine ⟨hconns, hearly, fun w hw => ?_, fun _ _ => rfl, fun _ => ⟨hdrained.1, ?_⟩, fun _ _ => rfl⟩
      · simp only at hw
        split at hw
        next => cases hw
        next hnot =>
          obtain ⟨ws', hws, hmem⟩ := hregistered w hw
          rw [hsome] at hws
          cases hws
          exact absurd ⟨hmem, hw⟩ hnot
      · exact hover hdrained.1 hdrained.2
  next hnot =>
    refine ⟨hconns, hearly, hregistered, hcompleted, hwoken, fun hclosed hempty => ?_⟩
    exact absurd ⟨hclosed, hempty⟩ hnot

theorem Inv.close (hI : Inv s) (hC : Recorded s .close) : Inv s.close := by
  unfold State.close
  split
  next => exact hI
  next hopen =>
    have hopen := Bool.eq_false_iff.mpr hopen
    refine Inv.wakeIfDrained hI.conns hI.early hI.registered hI.completed (fun hnone => ?_) fun _ hempty d => ?_
    · exact ⟨rfl, (hI.woken hnone).2⟩
    · refine Phase.over_of (hC hopen hempty d) (fun hlive => ?_) (hI.early d)
      rw [← hI.conns, show s.conns = ∅ from hempty] at hlive
      exact Finset.notMem_empty d hlive

theorem Inv.lost (hI : Inv s) (hpc : s.phase c = .live) (hC : Recorded s (.lost c)) :
    Inv ((s.setPhase c .ended).detach c) := by
  have hwaiters : s.waiters = none → False := by
    intro hnone
    have := (hI.woken hnone).2 c
    rw [hpc] at this
    cases this
  refine Inv.wakeIfDrained (fun d => ?_) (fun d => ?_) hI.registered hI.completed
    (fun hnone => (hwaiters hnone).elim) fun hclosed hempty d => ?_
  · simp only [State.setPhase, Finset.mem_erase, hI.conns]
    by_cases hdc : d = c
    · subst hdc
      rw [update_self]
      exact iff_of_false (fun h => h.1 rfl) fun h => by cases h
    · rw [update_of_ne hdc]
      exact and_iff_right hdc
  · simp only [State.setPhase]
    by_cases hdc : d = c
    · subst hdc
      rw [update_self]
      exact fun h => by cases h
    · rw [update_of_ne hdc]
      exact hI.early d
  · simp only [State.setPhase]
    by_cases hdc : d = c
    · subst hdc
      rw [update_self]
      rfl
    · rw [update_of_ne hdc]
      refine Phase.over_of (hC.2 hclosed hempty d) (fun hlive => ?_) (hI.early d)
      have hmem : d ∈ s.conns.erase c := Finset.mem_erase.mpr ⟨hdc, (hI.conns d).mpr hlive⟩
      rw [show s.conns.erase c = ∅ from hempty] at hmem
      exact Finset.notMem_empty d hmem

theorem Inv.step (hI : Inv s) {tls : Bool} {a : Action C W} (hC : Recorded s a)
    (h : step tls s a = some s') : Inv s' := by
  -- A connection that is being set up shows that no wakeup has happened.
  have hpending : ∀ c p, s.phase c = p → p.over = false → s.waiters = none → False := by
    rintro c p rfl hp hnone
    rw [(hI.woken hnone).2 c] at hp
    cases hp
  cases a with
  | accept c =>
    simp only [ProtocolServer.step] at h
    split at h <;> cases h
    next hopen =>
      refine hI.setUp ?_ (by decide) (by decide) fun hnone => ?_
      · rw [hopen.2]
        decide
      · rw [(hI.woken hnone).1] at hopen
        cases hopen.1
  | handshake c ok =>
    simp only [ProtocolServer.step] at h
    split at h <;> cases h
    next hpc =>
      refine hI.setUp ?_ ?_ ?_ fun hnone => (hpending c _ hpc.2 rfl hnone).elim
      · rw [hpc.2]
        decide
      · cases ok <;> decide
      · cases ok <;> decide
  | build c ok =>
    simp only [ProtocolServer.step] at h
    by_cases hpc : s.phase c = if tls then .shaken else .accepted
    · rw [if_pos hpc] at h
      cases h
      refine hI.setUp ?_ ?_ ?_ fun hnone => (hpending c _ hpc ?_ hnone).elim
      · rw [hpc]
        cases tls <;> decide
      · cases ok <;> decide
      · cases ok <;> decide
      · cases tls <;> rfl
    · rw [if_neg hpc] at h
      cases h
  | record c =>
    simp only [ProtocolServer.step] at h
    split at h
    next hpc =>
      cases h
      exact hI.record hpc
    next hpc => exact absurd hpc (hI.early c)
    next => cases h
  | lost c =>
    simp only [ProtocolServer.step] at h
    split at h
    next hpc => exact absurd hpc hC.1
    next hpc =>
      cases h
      exact hI.lost hpc hC
    next => cases h
  | close =>
    cases h
    exact hI.close hC
  | waitClosed w =>
    simp only [ProtocolServer.step] at h
    split at h <;> cases h
    exact hI.waitClosed
  | cancel w =>
    simp only [ProtocolServer.step] at h
    split at h <;> cases h
    exact hI.cancel

theorem inv_of_reachable {tls : Bool} (h : (protocolServer C W tls).ReachableWith Recorded s) : Inv s :=
  h.invariant (fun _ => Inv.init) fun _ _ _ hI hC hs => hI.step hC hs

/-- A call of `wait_closed` has completed only if the server is closed and every accepted connection has ended; and
then no call waits. -/
theorem waits_for_accepted {tls : Bool} (h : (protocolServer C W tls).ReachableWith Recorded s) :
    (∀ w, s.waiter w = .completed → s.closed = true ∧ ∀ c, s.phase c = .unseen ∨ s.phase c = .ended) ∧
    (s.closed = true → (∀ c, s.phase c = .unseen ∨ s.phase c = .ended) → ∀ w, s.waiter w ≠ .waiting) := by
  have hI := inv_of_reachable h
  refine ⟨fun w hw => ?_, fun hclosed hover w hw => ?_⟩
  · obtain ⟨hclosed, hover⟩ := hI.woken (hI.completed w hw)
    refine ⟨hclosed, fun c => ?_⟩
    have hc := hover c
    cases hpc : s.phase c with
    | unseen => exact .inl rfl
    | ended => exact .inr rfl
    | _ =>
      rw [hpc] at hc
      cases hc
  · have hempty : s.conns = ∅ := by
      rw [Finset.eq_empty_iff_forall_notMem]
      intro c hc
      rw [hI.conns] at hc
      rcases hover c with h | h
      · rw [hc] at h
        cases h
      · rw [hc] at h
        cases h
    obtain ⟨ws, hws, -⟩ := hI.registered w hw
    rw [hI.drained hclosed hempty] at hws
    cases hws

/-! ## One handshake -/

def fresh : State Bool Unit := ⟨false, ∅, some [], fun _ => .unseen, fun _ => .notCalled⟩

theorem init_fresh : Init fresh := ⟨rfl, rfl, rfl, fun _ => rfl, fun _ => rfl⟩

instance (s : State Bool Unit) : ∀ a, Decidable (Recorded s a)
  | .close =>
    inferInstanceAs (Decidable (s.closed = false → s.conns = ∅ → ∀ c, (s.phase c).settingUp = false))
  | .lost c =>
    inferInstanceAs (Decidable (s.phase c ≠ .built ∧
      (s.closed = true → s.conns.erase c = ∅ → ∀ d, (s.phase d).settingUp = false)))
  | .accept _ | .handshake _ _ | .build _ _ | .record _ | .waitClosed _ | .cancel _ => .isTrue trivial

/-- The server is closed while the handshake of its only connection runs. -/
theorem handshake_not_waited_for : ¬∀ s : State Bool Unit, (protocolServer Bool Unit true).Reachable s →
      ∀ w, s.waiter w = .completed → s.closed = true ∧ ∀ c, s.phase c = .unseen ∨ s.phase c = .ended := by
  intro hall
  obtain ⟨s, hr, hw, hc⟩ := (protocolServer Bool Unit true).reaches
    (fun s => s.waiter () = .completed ∧ s.phase true = .accepted)
    [.accept true, .waitClosed (), .close] (s := fresh) init_fresh (by decide +kernel)
  rcases (hall s hr () hw).2 true with h | h
  · rw [hc] at h
    cases h
  · rw [hc] at h
    cases h

/-- A recorded connection keeps the waiter waiting. -/
theorem waits_for_accepted_tls : ∃ s : State Bool Unit, (protocolServer Bool Unit true).ReachableWith Recorded s ∧
      s.waiter () = .completed ∧ s.closed = true ∧ ∀ c, s.phase c = .unseen ∨ s.phase c = .ended := by
  obtain ⟨s, hr, hw⟩ := (protocolServer Bool Unit true).reachesWith Recorded (fun s => s.waiter () = .completed)
    [.accept true, .accept false, .handshake true true, .build true true, .record true, .waitClosed (), .close,
      .handshake false true, .build false true, .record false, .lost true, .lost false]
    (s := fresh) init_fresh (by decide +kernel)
  obtain ⟨hclosed, hover⟩ := (waits_for_accepted hr).1 () hw
  exact ⟨s, hr, hw, hclosed, hover⟩

end Runloom.ProtocolServer
