import Mathlib.Algebra.Order.Ring.Int
import Runloom.Transition.System

/-!
# The park/wake handshake

Model of `runloom_sched_park_safe`, `runloom_park_generic`, `runloom_sched_wake_safe` and `runloom_sched_drain_timers`
for one fiber. The parker publishes `parked_safe` and then rechecks `wake_pending`; a waker bumps `wake_pending` and
then claims `parked_safe`; a due timer entry claims without a bump. Queues are counted by the entries of this fiber.
-/

namespace Runloom.ParkWake

open Transition

/-- Where the fiber is: in its own code, or at an access of the park protocol. -/
inductive FiberPc where
  | running
  | load
  | eat
  | store
  | recheck
  | cas
  | abortEat
  | toYield
  | yielded
  | resumeLoad
  | resumeEat
deriving DecidableEq

/-- A `wake_safe` call or the firing of a timer entry (`popped`). `own`: it runs on the fiber's owner thread. -/
inductive ClaimPc where
  | idle
  | incd (own : Bool)
  | popped
  | claimed (own : Bool)
  | toHub (own : Bool)
  | subWon (own : Bool)
  | toSched (own : Bool)
deriving DecidableEq

/-- `claims` and `enqueues` are ghost: the claims of `parked_safe`, and the entries put on a queue. -/
structure State where
  onHub : Bool
  wakePending : ℤ
  parkedSafe : Bool
  parkHub : Bool
  inSubQueue : Bool
  fiber : FiberPc
  claimer : ℕ → ClaimPc
  armed : ℕ
  ready : ℕ
  wakeList : ℕ
  hubSub : ℕ
  claims : ℕ
  enqueues : ℕ

inductive Action where
  | parkSafe
  | parkGeneric (timed : Bool)
  | fiber
  | wake (i : ℕ) (own : Bool)
  | timer (i : ℕ)
  | claimer (i : ℕ)
  | drainWakeList
  | drainSub
  | resume

def fiberStep (s : State) : Option State :=
  match s.fiber with
  | .running | .yielded => none
  | .load => some { s with fiber := if 0 < s.wakePending then .eat else .store }
  | .eat => some { s with wakePending := s.wakePending - 1, fiber := .running }
  | .store => some { s with parkedSafe := true, fiber := .recheck }
  -- A wake between the first load and the store has found nobody to claim.
  | .recheck => some { s with fiber := if 0 < s.wakePending then .cas else .toYield }
  | .cas =>
    if s.parkedSafe then some { s with parkedSafe := false, fiber := .abortEat }
    -- A claimer was faster, and is about to queue the fiber.
    else some { s with fiber := .toYield }
  | .abortEat => some { s with wakePending := s.wakePending - 1, fiber := .running }
  | .toYield => some { s with fiber := .yielded }
  | .resumeLoad => some { s with fiber := if 0 < s.wakePending then .resumeEat else .running }
  | .resumeEat => some { s with wakePending := s.wakePending - 1, fiber := .running }

/-- The compare-and-swap of `parked_safe` from 1 to 0, by a waker or a timer. -/
def claim (s : State) (i : ℕ) (own : Bool) : State :=
  if s.parkedSafe then
    { s with
      parkedSafe := false
      claimer := update s.claimer i (.claimed own)
      claims := s.claims + 1 }
  else { s with claimer := update s.claimer i .idle }

/-- The next access of claimer `i`. -/
def claimerStep (s : State) (i : ℕ) : Option State :=
  match s.claimer i with
  | .idle => none
  | .incd own => some (claim s i own)
  | .popped => some (claim s i true)
  | .claimed own =>
    some { s with
      claimer := update s.claimer i (if s.parkHub then .toHub own else .toSched own) }
  | .toHub own =>
    -- `runloom_mn_hub_submit`: only the 0 -> 1 winner of `in_sub_queue` links the fiber
    if s.inSubQueue then some { s with claimer := update s.claimer i .idle }
    else some { s with inSubQueue := true, claimer := update s.claimer i (.subWon own) }
  | .subWon _ =>
    some { s with
      hubSub := s.hubSub + 1
      enqueues := s.enqueues + 1
      claimer := update s.claimer i .idle }
  | .toSched own =>
    if own then
      some { s with
        ready := s.ready + 1
        enqueues := s.enqueues + 1
        claimer := update s.claimer i .idle }
    else
      some { s with
        wakeList := s.wakeList + 1
        enqueues := s.enqueues + 1
        claimer := update s.claimer i .idle }

def ClaimPc.own : ClaimPc → Bool
  | .idle => false
  | .popped => true
  | .incd own | .claimed own | .toHub own | .subWon own | .toSched own => own

def step (s : State) : Action → Option State
  | .parkSafe =>
    if s.fiber = .running ∧ s.onHub = false then some { s with fiber := .load } else none
  | .parkGeneric timed =>
    if s.fiber = .running then
      some { s with
        parkHub := s.onHub
        armed := s.armed + timed.toNat
        fiber := .load }
    else none
  | .fiber => fiberStep s
  | .wake i own =>
    if s.claimer i = .idle ∧ (own = true → s.fiber = .yielded) then
      some { s with
        wakePending := s.wakePending + 1
        claimer := update s.claimer i (.incd own) }
    else none
  | .timer i =>
    -- the drain runs on the owner thread, so never while the fiber is on it
    if s.claimer i = .idle ∧ s.fiber = .yielded ∧ 0 < s.armed then
      some { s with armed := s.armed - 1, claimer := update s.claimer i .popped }
    else none
  | .claimer i =>
    if (s.claimer i).own = true → s.fiber = .yielded then claimerStep s i else none
  | .drainWakeList =>
    if s.fiber = .yielded ∧ 0 < s.wakeList then
      some { s with wakeList := s.wakeList - 1, ready := s.ready + 1 }
    else none
  | .drainSub =>
    if s.fiber = .yielded ∧ 0 < s.hubSub then
      some { s with hubSub := s.hubSub - 1, ready := s.ready + 1 }
    else none
  | .resume =>
    if s.fiber = .yielded ∧ 0 < s.ready then
      some { s with
        ready := s.ready - 1
        inSubQueue := if s.onHub then false else s.inSubQueue
        fiber := .resumeLoad }
    else none

structure Init (s : State) : Prop where
  wakePending : s.wakePending = 0
  parkedSafe : s.parkedSafe = false
  parkHub : s.parkHub = false
  inSubQueue : s.inSubQueue = false
  fiber : s.fiber = .running
  claimer : ∀ i, s.claimer i = .idle
  armed : s.armed = 0
  ready : s.ready = 0
  wakeList : s.wakeList = 0
  hubSub : s.hubSub = 0
  claims : s.claims = 0
  enqueues : s.enqueues = 0

/-- The fiber's entries on the ring, the wake list and the submission list. -/
def State.entries (s : State) : ℕ := s.ready + s.wakeList + s.hubSub

def State.committing (s : State) : Prop :=
  s.fiber = .recheck ∨ s.fiber = .cas ∨ s.fiber = .toYield

/-- A claimer that has cleared `parked_safe` and not yet queued the fiber. -/
def ClaimPc.pending : ClaimPc → Prop
  | .claimed _ | .toHub _ | .subWon _ | .toSched _ => True
  | _ => False

end Runloom.ParkWake

/-!
## Safety of the park/wake handshake

The proof carries one token: while the fiber has published its park, either `parked_safe` is still
set, or exactly one claimer owes the fiber an entry, or exactly one entry is queued.
-/

namespace Runloom.ParkWake

open Transition
open State (entries)

variable {s t : State} {i : ℕ} {c : Option ℕ}

def State.published (s : State) : Prop :=
  s.fiber = .recheck ∨ s.fiber = .cas ∨ s.fiber = .toYield ∨ s.fiber = .yielded

instance (s : State) : Decidable s.published := by
  unfold State.published
  infer_instance

/-- The entries and pending claimers there must be: one from the claim to the resume. -/
def State.owed (s : State) : ℕ := if s.published ∧ s.parkedSafe = false then 1 else 0

/-- `c` is the claimer that owes the fiber an entry, if there is one. -/
structure Token (s : State) (c : Option ℕ) : Prop where
  pending : ∀ i, (s.claimer i).pending ↔ c = some i
  count : s.entries + c.isSome.toNat = s.owed
  ghost : s.claims = s.enqueues + c.isSome.toNat

structure Inv (s : State) : Prop where
  nonneg : 0 ≤ s.wakePending
  credit : s.fiber = .eat ∨ s.fiber = .cas ∨ s.fiber = .abortEat ∨ s.fiber = .resumeEat → 0 < s.wakePending
  parked : s.parkedSafe = true → s.published
  noLost : s.fiber = .toYield ∨ s.fiber = .yielded → s.parkedSafe = true → 0 < s.wakePending →
    ∃ i own, s.claimer i = .incd own
  hubOnly : s.parkHub = true → s.onHub = true
  parkHub : s.fiber ≠ .running → s.parkHub = s.onHub
  toHub : ∀ i own, s.claimer i = .toHub own → s.onHub = true
  inSub : s.inSubQueue = true → s.onHub = true ∧ (0 < s.entries ∨ ∃ i own, s.claimer i = .subWon own)
  token : ∃ c, Token s c

/-! ## Frame facts -/

theorem Token.pending_update (hT : Token s c) {p : ClaimPc} (hp : p.pending ↔ (s.claimer i).pending) (j : ℕ) :
    (update s.claimer i p j).pending ↔ c = some j := by
  by_cases hj : j = i
  · subst hj
    rw [update_self, hp, hT.pending]
  · rw [update_of_ne hj, hT.pending]

theorem Inv.parkHub_eq (hI : Inv s) (hT : Token s c) (hp : (s.claimer i).pending) :
    s.parkHub = s.onHub ∧ s.entries = 0 ∧ s.published ∧ s.parkedSafe = false ∧ c = some i := by
  obtain rfl := (hT.pending i).mp hp
  have hcount := hT.count
  simp only [State.owed, Option.isSome_some, Bool.toNat_true] at hcount
  split at hcount
  · rename_i hpub
    refine ⟨hI.parkHub ?_, by omega, hpub.1, hpub.2, rfl⟩
    obtain h | h | h | h := hpub.1 <;> simp [h]
  · omega

theorem Token.eq_none (hT : Token s c) (hp : s.parkedSafe = true) : c = none ∧ s.entries = 0 := by
  have hcount := hT.count
  simp only [State.owed, hp, Bool.true_eq_false, and_false, if_false] at hcount
  cases c with
  | none => exact ⟨rfl, by simpa using hcount⟩
  | some i => simp at hcount

/-! ## The fiber's steps -/

theorem Inv.set_fiber (hI : Inv s) {w : ℤ} {p : Bool} {pc : FiberPc} (hnn : 0 ≤ w)
    (hcredit : pc = .eat ∨ pc = .cas ∨ pc = .abortEat ∨ pc = .resumeEat → 0 < w)
    (hparked : p = true → State.published { s with fiber := pc })
    (hlost : pc = .toYield ∨ pc = .yielded → p = true → 0 < w → ∃ i own, s.claimer i = .incd own)
    (hhub : s.fiber ≠ .running)
    (howed : State.owed { s with parkedSafe := p, fiber := pc } = s.owed) :
    Inv { s with wakePending := w, parkedSafe := p, fiber := pc } := by
  obtain ⟨c, hT⟩ := hI.token
  exact ⟨hnn, hcredit, hparked, hlost, hI.hubOnly, fun _ => hI.parkHub hhub, hI.toHub, hI.inSub,
    c, hT.pending, hT.count.trans howed.symm, hT.ghost⟩

theorem Inv.fiberStep (hI : Inv s) (h : fiberStep s = some t) : Inv t := by
  have hnn := hI.nonneg
  have hcredit := hI.credit
  have hparked := hI.parked
  simp only [State.published] at hparked
  cases hpc : s.fiber with
  | running | yielded => simp [ParkWake.fiberStep, hpc] at h
  | load | resumeLoad =>
    simp only [ParkWake.fiberStep, hpc, Option.some.injEq] at h
    subst h
    refine hI.set_fiber hnn ?_ (fun hp => absurd (hparked hp) (by simp [hpc])) ?_ (by simp [hpc]) ?_
    · split <;> simp
      assumption
    · split <;> simp
    · split <;> simp [State.owed, State.published, hpc]
  | eat | abortEat | resumeEat =>
    simp only [ParkWake.fiberStep, hpc, Option.some.injEq] at h
    subst h
    have hpos := hcredit (by simp [hpc])
    exact hI.set_fiber (by omega) (by simp) (fun hp => absurd (hparked hp) (by simp [hpc]))
      (by simp) (by simp [hpc]) (by simp [State.owed, State.published, hpc])
  | store =>
    simp only [ParkWake.fiberStep, hpc, Option.some.injEq] at h
    subst h
    exact hI.set_fiber hnn (by simp) (by simp [State.published]) (by simp) (by simp [hpc])
      (by simp [State.owed, State.published, hpc])
  | recheck =>
    simp only [ParkWake.fiberStep, hpc, Option.some.injEq] at h
    subst h
    by_cases hpos : 0 < s.wakePending
    · simp only [if_pos hpos]
      exact hI.set_fiber hnn (fun _ => hpos) (by simp [State.published]) (by simp)
        (by simp [hpc]) (by simp [State.owed, State.published, hpc])
    · simp only [if_neg hpos]
      -- the recheck read zero: no wake is owed at the moment of the decision to yield
      exact hI.set_fiber hnn (by simp) (by simp [State.published])
        (fun _ _ hw => absurd hw hpos) (by simp [hpc]) (by simp [State.owed, State.published, hpc])
  | cas =>
    simp only [ParkWake.fiberStep, hpc] at h
    have hpos := hcredit (by simp [hpc])
    split at h <;> cases h
    · rename_i hp
      exact hI.set_fiber hnn (fun _ => hpos) (by simp) (by simp) (by simp [hpc])
        (by simp [State.owed, State.published, hpc, hp])
    · rename_i hp
      exact hI.set_fiber hnn (by simp) (by simp [State.published])
        (fun _ hp' => absurd hp' hp) (by simp [hpc]) (by simp [State.owed, State.published, hpc])
  | toYield =>
    simp only [ParkWake.fiberStep, hpc, Option.some.injEq] at h
    subst h
    exact hI.set_fiber hnn (by simp) (by simp [State.published]) (fun _ => hI.noLost (.inl hpc))
      (by simp [hpc]) (by simp [State.owed, State.published, hpc])

/-! ## Claimers -/

theorem Inv.set_claimer (hI : Inv s) {p : ClaimPc} {w : ℤ} {a : ℕ} (hw : s.wakePending ≤ w)
    (hpend : p.pending ↔ (s.claimer i).pending)
    (hlost : s.parkedSafe = true → 0 < w →
      (∃ own, p = .incd own) ∨ s.wakePending = w ∧ ∀ own, s.claimer i ≠ .incd own)
    (hhub : ∀ own, p = .toHub own → s.onHub = true)
    (hsub : ∀ own, s.claimer i ≠ .subWon own) :
    Inv { s with
      wakePending := w
      armed := a
      claimer := update s.claimer i p } := by
  obtain ⟨c, hT⟩ := hI.token
  have hother : ∀ q : Bool → ClaimPc, (∃ j own, s.claimer j = q own) → (∀ own, s.claimer i ≠ q own) →
      ∃ j own, update s.claimer i p j = q own := by
    rintro q ⟨j, own, hj⟩ hne
    have : j ≠ i := fun hji => hne own (hji ▸ hj)
    exact ⟨j, own, by rwa [update_of_ne this]⟩
  refine ⟨hI.nonneg.trans hw, fun hpc => lt_of_lt_of_le (hI.credit hpc) hw, hI.parked,
    fun hpc hp hpos => ?_, hI.hubOnly, hI.parkHub, fun j own hj => ?_, fun hsubq => ?_,
    c, hT.pending_update hpend, hT.count, hT.ghost⟩
  · obtain ⟨own, rfl⟩ | ⟨heq, hne⟩ := hlost hp hpos
    · exact ⟨i, own, update_self _ _ _⟩
    · exact hother _ (hI.noLost hpc hp (heq ▸ hpos)) hne
  · by_cases hji : j = i
    · subst hji
      exact hhub own (by simpa using hj)
    · exact hI.toHub j own (by simpa [hji] using hj)
  · exact (hI.inSub hsubq).imp_right fun h => h.imp_right fun hex => hother _ hex hsub

theorem Inv.claim (hI : Inv s) {own : Bool} (hnp : ¬(s.claimer i).pending) : Inv (claim s i own) := by
  simp only [ParkWake.claim]
  have hsub : ∀ own, s.claimer i ≠ .subWon own := fun own h => hnp (by simp [h, ClaimPc.pending])
  split
  · rename_i hp
    obtain ⟨c, hT⟩ := hI.token
    obtain ⟨rfl, hzero⟩ := hT.eq_none hp
    have hpub := hI.parked hp
    refine ⟨hI.nonneg, hI.credit, by simp, by simp, hI.hubOnly, hI.parkHub, fun j own' hj => ?_,
      fun hsubq => ?_, some i, fun j => ?_, ?_, ?_⟩
    · by_cases hji : j = i
      · subst hji
        simp at hj
      · exact hI.toHub j own' (by simpa [hji] using hj)
    · obtain ⟨hhub, hpos | ⟨j, own', hj⟩⟩ := hI.inSub hsubq
      · omega
      · exact absurd ((hT.pending j).mp (by simp [hj, ClaimPc.pending])) (by simp)
    · by_cases hji : j = i
      · subst hji
        simp [ClaimPc.pending]
      · have hnone := hT.pending j
        simp only [reduceCtorEq, iff_false] at hnone
        simp only [update_of_ne hji, hnone, false_iff, Option.some.injEq]
        exact fun h => hji h.symm
    · have howed : State.owed { s with
          parkedSafe := false
          claimer := update s.claimer i (.claimed own)
          claims := s.claims + 1 } = 1 := if_pos ⟨hpub, rfl⟩
      rw [howed]
      have hent : entries { s with
          parkedSafe := false
          claimer := update s.claimer i (.claimed own)
          claims := s.claims + 1 } = s.entries := rfl
      rw [hent, hzero]
      rfl
    · have := hT.ghost
      simp only [Option.isSome_none, Bool.toNat_false] at this
      simp [this]
  · rename_i hp
    exact hI.set_claimer (w := s.wakePending) (a := s.armed) le_rfl
      (iff_of_false id hnp) (fun hp' => absurd hp' hp) (by simp) hsub

theorem Inv.enqueue (hI : Inv s) {r w h : ℕ} (hp : (s.claimer i).pending) (hent : r + w + h = s.entries + 1) :
    Inv { s with
      ready := r
      wakeList := w
      hubSub := h
      enqueues := s.enqueues + 1
      claimer := update s.claimer i .idle } := by
  obtain ⟨c, hT⟩ := hI.token
  obtain ⟨-, hzero, hpub, hflag, rfl⟩ := hI.parkHub_eq hT hp
  refine ⟨hI.nonneg, hI.credit, hI.parked, by simp [hflag], hI.hubOnly, hI.parkHub, fun j own hj => ?_,
    fun hsub => ⟨(hI.inSub hsub).1, .inl ?_⟩, none, fun j => ?_, ?_, ?_⟩
  · by_cases hji : j = i
    · subst hji
      simp at hj
    · exact hI.toHub j own (by simpa [hji] using hj)
  · show 0 < r + w + h
    omega
  · by_cases hji : j = i
    · subst hji
      simp [ClaimPc.pending]
    · simp only [update_of_ne hji, hT.pending, Option.some.injEq, reduceCtorEq, iff_false]
      exact fun h => hji h.symm
  · have howed : s.owed = 1 := if_pos ⟨hpub, hflag⟩
    show r + w + h + 0 = s.owed
    omega
  · have := hT.ghost
    simpa using this

theorem Inv.claimerStep (hI : Inv s) (h : claimerStep s i = some t) : Inv t := by
  obtain ⟨c, hT⟩ := hI.token
  cases hpc : s.claimer i with
  | idle => simp [ParkWake.claimerStep, hpc] at h
  | incd own | popped =>
    simp only [ParkWake.claimerStep, hpc, Option.some.injEq] at h
    exact h ▸ hI.claim (by simp [hpc, ClaimPc.pending])
  | claimed own =>
    simp only [ParkWake.claimerStep, hpc, Option.some.injEq] at h
    subst h
    have hp : (s.claimer i).pending := by simp [hpc, ClaimPc.pending]
    obtain ⟨hhub, -, -, hflag, -⟩ := hI.parkHub_eq hT hp
    refine hI.set_claimer (w := s.wakePending) (a := s.armed) le_rfl ?_
      (by simp [hflag]) (fun own' ho => ?_) (by simp [hpc])
    · split <;> simp [hpc, ClaimPc.pending]
    · split at ho
      · rename_i hph
        exact hhub ▸ hph
      · cases ho
  | toHub own =>
    simp only [ParkWake.claimerStep, hpc] at h
    have hp : (s.claimer i).pending := by simp [hpc, ClaimPc.pending]
    obtain ⟨-, hzero, -, hflag, rfl⟩ := hI.parkHub_eq hT hp
    split at h
    · -- the submission flag is free: a set flag would mean a second entry
      rename_i hsub
      obtain ⟨-, hpos | ⟨j, own', hj⟩⟩ := hI.inSub hsub
      · omega
      · have := (hT.pending j).mp (by simp [hj, ClaimPc.pending])
        simp only [Option.some.injEq] at this
        subst this
        simp [hj] at hpc
    · cases h
      have hmove := hI.set_claimer (i := i) (p := .subWon own) (w := s.wakePending) (a := s.armed)
        le_rfl (by simp [hpc, ClaimPc.pending]) (by simp [hflag]) (by simp) (by simp [hpc])
      exact ⟨hmove.nonneg, hmove.credit, hmove.parked, hmove.noLost, hmove.hubOnly, hmove.parkHub, hmove.toHub,
        fun _ => ⟨hI.toHub i own hpc, .inr ⟨i, own, update_self _ _ _⟩⟩,
        hmove.token.imp fun _ hT => ⟨hT.pending, hT.count, hT.ghost⟩⟩
  | subWon own =>
    simp only [ParkWake.claimerStep, hpc, Option.some.injEq] at h
    subst h
    exact hI.enqueue (by simp [hpc, ClaimPc.pending]) (by simp only [entries]; omega)
  | toSched own =>
    simp only [ParkWake.claimerStep, hpc] at h
    split at h <;> cases h
    · exact hI.enqueue (by simp [hpc, ClaimPc.pending]) (by simp only [entries]; omega)
    · exact hI.enqueue (by simp [hpc, ClaimPc.pending]) (by simp only [entries]; omega)

/-! ## The owner thread's queues -/

theorem Inv.set_queues (hI : Inv s) {r w h : ℕ} (hent : r + w + h = s.entries) :
    Inv { s with ready := r, wakeList := w, hubSub := h } := by
  obtain ⟨c, hT⟩ := hI.token
  refine ⟨hI.nonneg, hI.credit, hI.parked, hI.noLost, hI.hubOnly, hI.parkHub, hI.toHub,
    fun hsub => (hI.inSub hsub).imp_right fun h' => h'.imp_left fun hpos => ?_,
    c, hT.pending, ?_, hT.ghost⟩
  · show r + w + h + c.isSome.toNat = s.owed
    rw [hent]
    exact hT.count
  · show 0 < r + w + h
    omega

theorem Inv.resume (hI : Inv s) (hpc : s.fiber = .yielded) (hr : 0 < s.ready) : Inv { s with
      ready := s.ready - 1
      inSubQueue := if s.onHub then false else s.inSubQueue
      fiber := .resumeLoad } := by
  obtain ⟨c, hT⟩ := hI.token
  have hcount := hT.count
  have howed : s.owed = 1 ∧ s.parkedSafe = false := by
    simp only [State.owed, entries] at hcount ⊢
    split at hcount
    · rename_i hpub
      exact ⟨if_pos hpub, hpub.2⟩
    · omega
  have hc : c = none := by
    cases c with
    | none => rfl
    | some i =>
      simp only [entries, Option.isSome_some, Bool.toNat_true, howed.1] at hcount
      omega
  subst hc
  refine ⟨hI.nonneg, by simp, by simp [howed.2], by simp, hI.hubOnly,
    fun _ => hI.parkHub (by simp [hpc]), hI.toHub, fun hsub => ?_, none, hT.pending, ?_, hT.ghost⟩
  · simp only at hsub
    split at hsub
    · cases hsub
    · rename_i hhub
      exact absurd (hI.inSub hsub).1 hhub
  · simp only [entries, Option.isSome_none, Bool.toNat_false, howed.1] at hcount
    simp only [entries, State.owed, State.published, Option.isSome_none, Bool.toNat_false,
      reduceCtorEq, or_self, false_and, if_false]
    omega

theorem Inv.park (hI : Inv s) (hpc : s.fiber = .running) {b : Bool} {a : ℕ}
    (hb : b = s.onHub) : Inv { s with parkHub := b, armed := a, fiber := .load } := by
  obtain ⟨c, hT⟩ := hI.token
  refine ⟨hI.nonneg, by simp, fun hp => ?_, by simp, fun h => hb ▸ h, fun _ => hb, hI.toHub,
    hI.inSub, c, hT.pending, hT.count.trans ?_, hT.ghost⟩
  · exact absurd (hI.parked hp) (by simp [State.published, hpc])
  · simp [State.owed, State.published, hpc]

theorem Inv.step {a : Action} (hI : Inv s) (h : step s a = some t) : Inv t := by
  cases a with
  | parkSafe =>
    simp only [ParkWake.step] at h
    split at h
    · rename_i hcond
      cases h
      refine hI.park hcond.1 (b := s.parkHub) (a := s.armed) ?_
      have := hI.hubOnly
      simpa [hcond.2] using this
    · cases h
  | parkGeneric timed =>
    simp only [ParkWake.step] at h
    split at h
    · rename_i hpc
      cases h
      exact hI.park hpc rfl
    · cases h
  | fiber => exact hI.fiberStep h
  | wake j own =>
    simp only [ParkWake.step] at h
    split at h
    · rename_i hcond
      cases h
      exact hI.set_claimer (a := s.armed) (by omega) (by simp [hcond.1, ClaimPc.pending])
        (fun _ _ => .inl ⟨own, rfl⟩) (by simp) (by simp [hcond.1])
    · cases h
  | timer j =>
    simp only [ParkWake.step] at h
    split at h
    · rename_i hcond
      cases h
      exact hI.set_claimer (w := s.wakePending) le_rfl (by simp [hcond.1, ClaimPc.pending])
        (fun _ _ => .inr ⟨rfl, by simp [hcond.1]⟩) (by simp) (by simp [hcond.1])
    · cases h
  | claimer j =>
    simp only [ParkWake.step] at h
    split at h
    · exact hI.claimerStep h
    · cases h
  | drainWakeList | drainSub =>
    simp only [ParkWake.step] at h
    split at h <;> cases h
    exact hI.set_queues (by simp only [entries]; omega)
  | resume =>
    simp only [ParkWake.step] at h
    split at h
    · rename_i hcond
      cases h
      exact hI.resume hcond.1 hcond.2
    · cases h

theorem Inv.init (h : Init s) : Inv s := by
  refine ⟨h.wakePending.ge, ?_, ?_, ?_, ?_, ?_, ?_, ?_, none, ?_, ?_, ?_⟩
  · simp [h.fiber]
  · simp [h.parkedSafe]
  · simp [h.fiber]
  · simp [h.parkHub]
  · simp [h.fiber]
  · simp [h.claimer]
  · simp [h.inSubQueue]
  · simp [h.claimer, ClaimPc.pending]
  · simp [entries, State.owed, State.published, h.ready, h.wakeList, h.hubSub, h.fiber]
  · simp [h.claims, h.enqueues]

end Runloom.ParkWake
