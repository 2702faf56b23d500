import Mathlib.Algebra.Group.Nat.Defs
import Runloom.Transition.System

/-!
# The kick of an idle hub

Model of `runloom_mn_hub_submit` with `runloom_netpoll_wake_pump`, and of the loop of one hub with
`runloom_netpoll_pump`, on the epoll backend with an epoll and a wake eventfd of the hub's own.  A step is one section
under `sub_lock`, one atomic access, or one system call.
-/

namespace Runloom.PumpKick

open Transition

def efdMax : ℕ := 2 ^ 64 - 2

/-- Where the loop of `runloom_hub_main` is. -/
inductive HubPc (F : Type*) where
  | top
  | run (gs : List F)
  | idle
  /-- In `epoll_wait`. -/
  | blocked
  /-- `epoll_wait` has reported the wake eventfd; `gs` is left to run after the pump. -/
  | woken (gs : List F)
  /-- The eventfd is read; before `wake_pending` is cleared. -/
  | drained (gs : List F)
deriving DecidableEq

/-- Where a call of `runloom_mn_hub_submit` is. -/
inductive ProducerPc (F : Type*) where
  | idle
  /-- Before the exchange of `in_sub_queue`. -/
  | flag (f : F)
  | push (f : F)
  /-- In `runloom_netpoll_wake_pump`, before the exchange of `wake_pending`. -/
  | kick
  | write
deriving DecidableEq

/-- `sub` is the list at `sub_head`; `efd` is the count of `wake_efd`. -/
structure State (F P : Type*) where
  sub : List F
  inSubQueue : F → Bool
  wakePending : Bool
  efd : ℕ
  hub : HubPc F
  producer : P → ProducerPc F

inductive Action (F P : Type*) where
  | submit (p : P) (f : F)
  | producer (p : P)
  | hub
  | poll
  /-- `epoll_wait` returns without the wake eventfd: a timeout, a signal, or other events. -/
  | other

variable {F P : Type*} [DecidableEq F] [DecidableEq P]

namespace State

def goto (s : State F P) (p : P) (pc : ProducerPc F) : State F P :=
  { s with producer := update s.producer p pc }

/-- A `write` of one to the eventfd; at its limit it fails with `EAGAIN`. -/
def efdWrite (s : State F P) : State F P := { s with efd := if s.efd < efdMax then s.efd + 1 else s.efd }

def producerNext (dedup : Bool) (s : State F P) (p : P) : Option (State F P) :=
  match s.producer p with
  | .idle => none
  -- A fiber that is queued already is not queued again.
  | .flag f =>
    some (if s.inSubQueue f then s.goto p .idle
      else { s with inSubQueue := update s.inSubQueue f true }.goto p (.push f))
  | .push f => some ({ s with sub := s.sub ++ [f] }.goto p .kick)
  | .kick =>
    some (if dedup then { s with wakePending := true }.goto p (if s.wakePending then .idle else .write)
      else s.goto p .write)
  | .write => some (s.efdWrite.goto p .idle)

def hubNext (dedup : Bool) (s : State F P) : Option (State F P) :=
  match s.hub with
  | .top => some (if s.sub = [] then { s with hub := .idle } else { s with sub := [], hub := .run s.sub })
  | .run [] => some { s with hub := .top }
  -- The flag goes down just before the fiber is resumed.
  | .run (g :: gs) => some { s with inSubQueue := update s.inSubQueue g false, hub := .run gs }
  | .idle => some { s with hub := .blocked }
  | .blocked => if 0 < s.efd then some { s with hub := .woken [] } else none
  | .woken gs => some { s with efd := 0, hub := .drained gs }
  | .drained gs => some { s with wakePending := if dedup then false else s.wakePending, hub := .run gs }

end State

/-- `dedup` is `runloom_wake_dedup_enabled`. -/
def step (dedup : Bool) (s : State F P) : Action F P → Option (State F P)
  | .submit p f =>
    match s.producer p with
    | .idle => some (s.goto p (.flag f))
    | _ => none
  | .producer p => s.producerNext dedup p
  | .hub => s.hubNext dedup
  | .poll =>
    match s.hub with
    | .run gs => if 0 < s.efd then some { s with hub := .woken gs } else none
    | _ => none
  | .other =>
    match s.hub with
    | .blocked => some { s with hub := .top }
    | _ => none

structure Init (s : State F P) : Prop where
  sub : s.sub = []
  wakePending : s.wakePending = false
  efd : s.efd = 0
  hub : s.hub = .top
  producer : ∀ p, s.producer p = .idle

def hubPump (F P : Type*) [DecidableEq F] [DecidableEq P] (dedup : Bool) : System (State F P) (Action F P) where
  init := Init
  step := step dedup

end Runloom.PumpKick

/-!
## The kick is not lost

A submit leaves its kick out when it finds `wake_pending` set.  The flag stands for a kick that is on its way: a
producer is at its write, the eventfd has a count, or the hub has read it and is about to clear the flag.
-/

namespace Runloom.PumpKick

open Transition

variable {F P : Type*} [DecidableEq P] {dedup : Bool} {s t : State F P} {p : P}

namespace State

@[simp] theorem goto_self (s : State F P) (p : P) (pc : ProducerPc F) : (s.goto p pc).producer p = pc :=
  Function.update_self ..

theorem goto_of_ne (s : State F P) (pc : ProducerPc F) {p q : P} (h : q ≠ p) :
    (s.goto p pc).producer q = s.producer q := Function.update_of_ne h ..

end State

def ProducerPc.owes : ProducerPc F → Bool
  | .kick | .write => true
  | _ => false

/-- The hub will be in `epoll_wait` before it looks at its list again. -/
def HubPc.commits : HubPc F → Bool
  | .idle | .blocked => true
  | _ => false

def HubPc.clears : HubPc F → Bool
  | .drained _ => true
  | _ => false

structure Inv (dedup : Bool) (s : State F P) : Prop where
  pending : dedup = true → s.wakePending = true → 0 < s.efd ∨ (∃ p, s.producer p = .write) ∨ s.hub.clears = true
  kicked : s.hub.commits = true → s.sub ≠ [] → 0 < s.efd ∨ ∃ p, (s.producer p).owes = true

section

omit [DecidableEq P]

theorem Inv.init (h : Init s) : Inv dedup s where
  pending _ hp := by
    rw [h.wakePending] at hp
    cases hp
  kicked _ hs := absurd h.sub hs

theorem Inv.pending_hub (hI : Inv dedup s) (hc : s.hub.clears = false) (hd : dedup = true)
    (hp : s.wakePending = true) (pc : HubPc F) :
    0 < s.efd ∨ (∃ p, s.producer p = .write) ∨ pc.clears = true := by
  rcases hI.pending hd hp with he | hw | hh
  · exact .inl he
  · exact .inr (.inl hw)
  · rw [hc] at hh
    cases hh

theorem efdWrite_pos (s : State F P) : 0 < s.efdWrite.efd := by
  show 0 < if s.efd < efdMax then s.efd + 1 else s.efd
  have hmax : 0 < efdMax := by decide
  split <;> omega

end

theorem Inv.goto (hI : Inv dedup s) {pc : ProducerPc F} {inSub : F → Bool}
    (hpc : (s.producer p).owes = false) : Inv dedup ({ s with inSubQueue := inSub }.goto p pc) := by
  have hne : ∀ q, (s.producer q).owes = true → q ≠ p := by
    rintro q hq rfl
    rw [hpc] at hq
    cases hq
  refine ⟨fun hd hp => ?_, fun hc hs => ?_⟩
  · rcases hI.pending hd hp with he | ⟨q, hq⟩ | hh
    · exact .inl he
    · refine .inr (.inl ⟨q, ?_⟩)
      rw [State.goto_of_ne _ _ (hne q (by rw [hq]; rfl))]
      exact hq
    · exact .inr (.inr hh)
  · rcases hI.kicked hc hs with he | ⟨q, hq⟩
    · exact .inl he
    · refine .inr ⟨q, ?_⟩
      rw [State.goto_of_ne _ _ (hne q hq)]
      exact hq

theorem Inv.push (hI : Inv dedup s) {f : F} (hpc : s.producer p = .push f) :
    Inv dedup ({ s with sub := s.sub ++ [f] }.goto p .kick) := by
  refine ⟨fun hd hp => ?_, fun _ _ => .inr ⟨p, by rw [State.goto_self]; rfl⟩⟩
  rcases hI.pending hd hp with he | ⟨q, hq⟩ | hh
  · exact .inl he
  · refine .inr (.inl ⟨q, ?_⟩)
    rw [State.goto_of_ne]
    · exact hq
    · rintro rfl
      rw [hpc] at hq
      cases hq
  · exact .inr (.inr hh)

theorem Inv.kick (hI : Inv dedup s) (hd : dedup = true) (hpc : s.producer p = .kick) :
    Inv dedup ({ s with wakePending := true }.goto p (if s.wakePending then .idle else .write)) := by
  cases hflag : s.wakePending with
  | false =>
    simp only [Bool.false_eq_true, if_false]
    refine ⟨fun _ _ => .inr (.inl ⟨p, State.goto_self ..⟩), fun _ _ => .inr ⟨p, ?_⟩⟩
    rw [State.goto_self]
    rfl
  | true =>
    simp only [if_true]
    have hne : ∀ q, s.producer q = .write → q ≠ p := by
      rintro q hq rfl
      rw [hpc] at hq
      cases hq
    have hpending := hI.pending hd hflag
    refine ⟨fun _ _ => ?_, fun hc _ => ?_⟩
    · rcases hpending with he | ⟨q, hq⟩ | hh
      · exact .inl he
      · exact .inr (.inl ⟨q, by rw [State.goto_of_ne _ _ (hne q hq)]; exact hq⟩)
      · exact .inr (.inr hh)
    · rcases hpending with he | ⟨q, hq⟩ | hh
      · exact .inl he
      · exact .inr ⟨q, by rw [State.goto_of_ne _ _ (hne q hq)]; exact congrArg ProducerPc.owes hq⟩
      -- The hub that clears the flag is not on its way into `epoll_wait`.
      · have hc : s.hub.commits = true := hc
        cases hhub : s.hub with
        | drained gs =>
          rw [hhub] at hc
          cases hc
        | _ =>
          have hh : s.hub.clears = true := hh
          rw [hhub] at hh
          cases hh

variable [DecidableEq F]

theorem Inv.producerNext (hI : Inv dedup s) (h : s.producerNext dedup p = some t) : Inv dedup t := by
  unfold State.producerNext at h
  split at h <;> cases h
  next f hpc =>
    split <;> (exact hI.goto (by rw [hpc]; rfl))
  next f hpc => exact hI.push hpc
  next hpc =>
    split
    next hd => exact hI.kick hd hpc
    next hd =>
      refine ⟨fun hd' => absurd hd' hd, fun _ _ => .inr ⟨p, ?_⟩⟩
      rw [State.goto_self]
      rfl
  next hpc => exact ⟨fun _ _ => .inl (efdWrite_pos s), fun _ _ => .inl (efdWrite_pos s)⟩

omit [DecidableEq P] in
theorem Inv.hubNext (hI : Inv dedup s) (h : s.hubNext dedup = some t) : Inv dedup t := by
  unfold State.hubNext at h
  split at h
  -- The look at the list: whoever goes on to `epoll_wait` has found it empty.
  next hpc =>
    cases h
    split
    next hsub =>
      exact ⟨fun hd hp => hI.pending_hub (by rw [hpc]; rfl) hd hp _, fun _ hs => absurd hsub hs⟩
    next => exact ⟨fun hd hp => hI.pending_hub (by rw [hpc]; rfl) hd hp _, nofun⟩
  next hpc =>
    cases h
    exact ⟨fun hd hp => hI.pending_hub (by rw [hpc]; rfl) hd hp _, nofun⟩
  next g gs hpc =>
    cases h
    exact ⟨fun hd hp => hI.pending_hub (by rw [hpc]; rfl) hd hp _, nofun⟩
  next hpc =>
    cases h
    exact ⟨fun hd hp => hI.pending_hub (by rw [hpc]; rfl) hd hp _, fun _ hs => hI.kicked (by rw [hpc]; rfl) hs⟩
  next hpc =>
    split at h <;> cases h
    next he => exact ⟨fun _ _ => .inl he, nofun⟩
  -- The read takes the kick, and the flag is still up: the hub is about to clear it.
  next gs hpc =>
    cases h
    exact ⟨fun _ _ => .inr (.inr rfl), nofun⟩
  next gs hpc =>
    cases h
    refine ⟨fun hd hp => ?_, nofun⟩
    rw [if_pos hd] at hp
    cases hp

theorem Inv.step {a : Action F P} (hI : Inv dedup s) (h : PumpKick.step dedup s a = some t) : Inv dedup t := by
  cases a with
  | submit p f =>
    simp only [PumpKick.step] at h
    split at h <;> cases h
    next hpc => exact hI.goto (by rw [hpc]; rfl)
  | producer p => exact hI.producerNext h
  | hub => exact hI.hubNext h
  | poll =>
    simp only [PumpKick.step] at h
    split at h
    next gs hpc =>
      split at h <;> cases h
      next he => exact ⟨fun _ _ => .inl he, nofun⟩
    next => cases h
  | other =>
    simp only [PumpKick.step] at h
    split at h <;> cases h
    next hpc =>
      exact ⟨fun hd hp => hI.pending_hub (by rw [hpc]; rfl) hd hp _, nofun⟩

theorem inv_of_reachable (h : (hubPump F P dedup).Reachable s) : Inv dedup s :=
  h.invariant (fun _ hs => Inv.init hs) fun _ _ _ hI _ hs => hI.step hs

/-- A hub that is blocked with a fiber in its list has a kick to come: its eventfd has a count. -/
theorem kick_not_lost (h : (hubPump F P dedup).Reachable s) (hhub : s.hub = .blocked) (hsub : s.sub ≠ [])
    (hret : ∀ p, s.producer p = .idle) : 0 < s.efd := by
  rcases (inv_of_reachable h).kicked (by rw [hhub]; rfl) hsub with he | ⟨p, hp⟩
  · exact he
  · rw [hret] at hp
    cases hp

def quiet : State (Fin 2) (Fin 2) := ⟨[], fun _ => false, false, 0, .top, fun _ => .idle⟩

/-- Producer 1 finds the flag of producer 0 set, and leaves its own kick out. -/
theorem kick_not_lost_twoProducers :
    ∃ s, (hubPump (Fin 2) (Fin 2) true).Reachable s ∧ s.hub = .blocked ∧ s.sub = [0, 1] ∧ 0 < s.efd := by
  obtain ⟨s, hr, hhub, hsub, hret⟩ := (hubPump (Fin 2) (Fin 2) true).reaches
    (fun s => s.hub = .blocked ∧ s.sub = [0, 1] ∧ ∀ p, s.producer p = .idle)
    [.hub, .hub, .submit 0 0, .producer 0, .producer 0, .producer 0, .submit 1 1, .producer 1, .producer 1,
      .producer 1, .producer 0]
    (s := quiet) ⟨rfl, rfl, rfl, rfl, fun _ => rfl⟩ (by decide +kernel)
  exact ⟨s, hr, hhub, hsub, kick_not_lost hr hhub (by rw [hsub]; decide) hret⟩

end Runloom.PumpKick
