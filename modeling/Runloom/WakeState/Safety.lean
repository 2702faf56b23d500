import Mathlib.Algebra.BigOperators.Finprod
import Runloom.WakeState.Wakes

/-!
# Safety of the wake state machine
-/

namespace Runloom.WakeState

open Transition

variable {n : ℕ} {s t : State n} {P : ℕ → Place n} {a b : Actor n} {g x : ℕ} {act : Action n} {w : Ws}

/-! ## Entries and owners -/

/-- The actor runs or sweeps `g`: from its claim to its release of `wake_state`. -/
def Pc.owns (g : ℕ) : Pc → Prop
  | .running g' _ | .parkCas g' _ | .parkStore g' _ | .yieldStore g' _ _ | .sweep g'
  | .sweepStore g' => g' = g
  | _ => False

/-- The actor is between the store of `QUEUED` and the link of the entry. -/
def Pc.pushing (g : ℕ) : Pc → Prop
  | .push g' _ .incref | .push g' _ .acquire | .push g' _ .link => g' = g
  | _ => False

def Pc.pulled (g : ℕ) : Pc → Prop
  | .pullLen g' | .pullUnlock (some g') | .claim g' => g' = g
  | _ => False

theorem PInv.place_of_owns (hP : PInv s P) (ha : (s.pc a).owns g) :
    P g = .held a ∨ ∃ h, a = .hub h ∧ P g = .fifo h := by
  cases hpc : s.pc a with
  | yieldStore g' q self =>
    rw [hpc] at ha
    cases (show g' = g from ha)
    cases self with
    | false => exact .inl ((hP.hand a g).mpr (by rw [hpc]; rfl))
    | true =>
      have hnot : ¬(s.pc a).ofHelper := by
        rw [hpc]
        exact id
      rcases hP.exists_hub hnot with ⟨h, rfl⟩
      exact .inr ⟨h, rfl, hP.yielding h g q hpc⟩
  | running g' _ | parkCas g' _ | parkStore g' _ | sweep g' | sweepStore g' =>
    rw [hpc] at ha
    cases (show g' = g from ha)
    exact .inl ((hP.hand a g).mpr (by rw [hpc]; rfl))
  | _ =>
    rw [hpc] at ha
    cases ha

theorem PInv.owner_unique (hP : PInv s P) (ha : (s.pc a).owns g) (hb : (s.pc b).owns g) : a = b := by
  rcases hP.place_of_owns ha with hPa | ⟨h, rfl, hPa⟩ <;>
    rcases hP.place_of_owns hb with hPb | ⟨h', rfl, hPb⟩
  · exact Place.held.inj (hPa.symm.trans hPb)
  · exact absurd (hPa.symm.trans hPb) (by simp)
  · exact absurd (hPa.symm.trans hPb) (by simp)
  · rw [Place.fifo.inj (hPa.symm.trans hPb)]

theorem PInv.mem_runq (hP : PInv s P) : g ∈ s.runq ↔ P g = .listed := by
  rw [← List.count_pos_iff, hP.runq g]
  split <;> simp_all

theorem PInv.notMem_runq_of_owns (hP : PInv s P) (ha : (s.pc a).owns g) : g ∉ s.runq := by
  rw [hP.mem_runq]
  rcases hP.place_of_owns ha with hPa | ⟨h, _, hPa⟩ <;> simp [hPa]

theorem Pc.hand_of_pushing {c : Pc} (hc : c.pushing g) : c.hand = some g ∧ c.wsOk = (· = .queued) := by
  cases c with
  | push g' q stage =>
    cases stage <;> first | cases (show g' = g from hc); exact ⟨rfl, rfl⟩ | cases hc
  | _ => cases hc

theorem Pc.hand_of_pulled {c : Pc} (hc : c.pulled g) : c.hand = some g ∧ c.wsOk = (· = .queued) := by
  cases c with
  | pullLen g' | claim g' =>
    cases (show g' = g from hc)
    exact ⟨rfl, rfl⟩
  | pullUnlock g? =>
    cases g? with
    | none => cases hc
    | some g' =>
      cases (show g' = g from hc)
      exact ⟨rfl, rfl⟩
  | _ => cases hc

theorem PInv.queued_iff (hP : PInv s P) : s.ws g = .queued ↔
      g ∈ s.runq ∨ (∃ a, (s.pc a).pushing g) ∨ ∃ a, (s.pc a).pulled g := by
  constructor
  · intro hw
    have hws := hP.ws g
    rw [hw] at hws
    cases hPg : P g with
    | parked | fifo h => simp [hPg, PlaceWs] at hws
    | listed => exact .inl (hP.mem_runq.mpr hPg)
    | held a =>
      have hhand := (hP.hand a g).mp hPg
      rw [hPg, PlaceWs] at hws
      right
      cases hpc : s.pc a with
      | push g' q stage =>
        left
        refine ⟨a, ?_⟩
        rw [hpc] at hhand ⊢
        cases stage <;> simp_all [Pc.hand, Pc.pushing]
      | pullLen | pullUnlock | claim =>
        right
        refine ⟨a, ?_⟩
        rw [hpc] at hhand ⊢
        simp_all [Pc.hand, Pc.pulled]
      | _ => simp [hpc, Pc.hand, Pc.wsOk] at hhand hws
  · rintro (hmem | ⟨a, ha⟩ | ⟨a, ha⟩)
    · have hws := hP.ws g
      rwa [hP.mem_runq.mp hmem] at hws
    · have hok := hP.wsOk_of_hand (Pc.hand_of_pushing ha).1
      rwa [(Pc.hand_of_pushing ha).2] at hok
    · have hok := hP.wsOk_of_hand (Pc.hand_of_pulled ha).1
      rwa [(Pc.hand_of_pulled ha).2] at hok

theorem PInv.refs_eq (hP : PInv s P) : s.refs g = 1 + s.runq.count g + ∑ h, (s.pc (.hub h)).queueRefs g +
      finsum fun i => (s.pc (.helper i)).queueRefs g := by
  have hsingle : (finsum fun i => (s.pc (.helper i)).queueRefs g) = helperRefs s.pc g (P g) := by
    have hzero : ∀ i, P g ≠ .held (.helper i) → (s.pc (.helper i)).queueRefs g = 0 := fun i hi =>
      (hP.helper i).queueRefs_eq_zero fun hh => hi ((hP.hand _ g).mpr hh)
    unfold helperRefs
    split
    · rename_i i hPg
      apply finsum_eq_single
      intro j hj
      apply hzero
      rw [hPg]
      simpa using Ne.symm hj
    · rename_i hne
      rw [← finsum_zero]
      congr
      ext i
      exact hzero i (hne i)
  rw [hsingle, hP.refs g, heldRefs]
  omega

/-! ## Transitions -/

/-- Every change of a wake state is an edge of `runloom_ws_table`, but for the store of a yield. -/
theorem PInv.edge_of_step (hP : PInv s P) (h : step s act = some t) : t.ws g = s.ws g ∨ Edge (s.ws g) (t.ws g) ∨
      s.ws g = .runningWoken ∧ t.ws g = .running ∧
        ∃ h q self, act = .next (.hub h) ∧ s.pc (.hub h) = .yieldStore g q self := by
  rcases step_ws h with hws | ⟨x, w, hws, hstep⟩
  · exact .inl (by rw [hws])
  by_cases hx : g = x
  swap
  · exact .inl (by rw [hws, Function.update_of_ne hx])
  subst hx
  rw [hws, Function.update_self]
  have hok : ∀ {a}, (s.pc a).hand = some g → (s.pc a).wsOk (s.ws g) := fun ha => hP.wsOk_of_hand ha
  cases hstep with
  | wakeParked hpc hw | wakeRunning hpc hw | wakeSweeping hpc hw | sweepClaim hw
  | sweepRelease hpc hw | claim hpc hw | timerClaim hw | parkCas hpc hw =>
    rw [hw]
    exact .inr (.inl (by decide))
  | @sweepStore a _ hpc =>
    have hw := hok (a := a) (by rw [hpc]; rfl)
    rw [hpc] at hw
    rw [show s.ws g = .sweepingWoken from hw]
    exact .inr (.inl (by decide))
  | @parkStore a _ q hpc =>
    have hw := hok (a := a) (by rw [hpc]; rfl)
    rw [hpc] at hw
    rw [show s.ws g = .runningWoken from hw]
    exact .inr (.inl (by decide))
  | @yieldStore a _ q self hpc =>
    have hnot : ¬(s.pc a).ofHelper := by
      rw [hpc]
      exact id
    rcases hP.exists_hub hnot with ⟨h', rfl⟩
    have hw : s.ws g = .running ∨ s.ws g = .runningWoken := by
      rcases hP.place_of_owns (a := .hub h') (g := g) (by rw [hpc]; rfl) with hPg | ⟨h₁, _, hPg⟩
      · have hws' := hP.ws g
        rwa [hPg, PlaceWs, hpc] at hws'
      · have hws' := hP.ws g
        rwa [hPg] at hws'
    rcases hw with hw | hw
    · exact .inl hw.symm
    · exact .inr (.inr ⟨hw, rfl, h', q, self, rfl, hpc⟩)

/-! ## The guarantees -/

/-- What the run queue and the wake states guarantee in `s`. -/
structure EntriesSafe (s : State n) : Prop where
  one_entry : ∀ g, s.runq.count g ≤ 1
  one_owner : ∀ a b g, (s.pc a).owns g → (s.pc b).owns g → a = b
  owned_not_queued : ∀ a g, (s.pc a).owns g → g ∉ s.runq
  queued_iff : ∀ g, s.ws g = .queued ↔ g ∈ s.runq ∨ (∃ a, (s.pc a).pushing g) ∨ ∃ a, (s.pc a).pulled g
  claim_wins : ∀ a g, s.pc a = .claim g → s.ws g = .queued
  edges : ∀ act t g, step s act = some t → t.ws g = s.ws g ∨ Edge (s.ws g) (t.ws g) ∨
      s.ws g = .runningWoken ∧ t.ws g = .running ∧
        ∃ h q self, act = .next (.hub h) ∧ s.pc (.hub h) = .yieldStore g q self
  len_eq : s.lock = none → s.len = s.runq.length
  refs_eq : ∀ g, s.refs g = 1 + s.runq.count g + ∑ h, (s.pc (.hub h)).queueRefs g +
    finsum fun i => (s.pc (.helper i)).queueRefs g

/-- What a wake of a parked, parking or swept fiber guarantees in `s`. -/
structure WakesKept (s : State n) : Prop where
  returns : ∀ a g st t, s.pc a = .wake g st → next s a = some t → t.pc a = .wake g (s.ws g) ∨ t.ws g ≠ s.ws g ∨
      st = .queued ∨ st = .runningWoken ∨ st = .sweepingWoken
  won : ∀ a g st t, Parking s g → s.pc a = .wake g st → next s a = some t → t.ws g ≠ s.ws g → ∃ b, Owes t b g
  recorded : ∀ g, Parking s g → s.ws g ≠ .parked → s.ws g ≠ .sweeping → s.ws g ≠ .running → ∃ a, Owes s a g
  parks : ∀ h g q act t, s.pc (.hub h) = .running g q → s.ws g = .runningWoken → step s act = some t →
      t.pc (.hub h) = .running g q ∧ t.ws g = .runningWoken ∨ act = .park h ∧ Owes t (.hub h) g ∨
        act = .yieldCurrent h ∨ act = .rawYield h
  kept : ∀ a g as t, Owes s a g → (wakeState n).run s as = some t →
    Owes t a g ∨ ∃ k u, (wakeState n).run s (as.take k) = some u ∧ g ∈ u.runq
  nearer : ∀ a g t, Owes s a g → next s a = some t → g ∈ t.runq ∨ Owes t a g ∧ (t.pc a).toLink < (s.pc a).toLink
  payable : ∀ a g, Owes s a g → ∃ as t, (wakeState n).run s as = some t ∧ g ∈ t.runq

theorem PInv.entriesSafe (hP : PInv s P) : EntriesSafe s where
  one_entry := by
    intro g
    rw [hP.runq g]
    split <;> omega
  one_owner := fun _ _ _ ha hb => hP.owner_unique ha hb
  owned_not_queued := fun _ _ ha => hP.notMem_runq_of_owns ha
  queued_iff := fun _ => hP.queued_iff
  claim_wins := fun _ _ hpc => hP.claim_queued hpc
  edges := fun _ _ _ h => hP.edge_of_step h
  len_eq := by
    intro hfree
    have hlen := hP.len
    rw [lenAhead_of_unlocked hfree] at hlen
    omega
  refs_eq := fun _ => hP.refs_eq

theorem PInv.wakesKept (hP : PInv s P) : WakesKept s where
  returns := fun _ _ _ _ hpc h => wake_returns hpc h
  won := fun _ _ _ _ hg hpc h hchange => hP.owes_of_wake hg hpc h hchange
  recorded := fun _ hg hparked hsweeping hrunning => hP.owes_of_recorded hg hparked hsweeping hrunning
  parks := fun _ _ _ _ _ hpc hw h => hP.woken_running hpc hw h
  kept := fun _ _ _ _ ho h => Inv.owes_run ⟨P, hP⟩ ho h
  nearer := fun _ _ _ ho h => Owes.next ho h
  payable := fun _ _ ho => Inv.exists_enqueued ⟨P, hP⟩ ho

/-- The wake state machine of the global run-queue mode, over every interleaving. -/
theorem wakeState_entries_and_wakes (hr : (wakeState n).Reachable s) : EntriesSafe s ∧ WakesKept s := by
  rcases wakeState_inv hr with ⟨P, hP⟩
  exact ⟨hP.entriesSafe, hP.wakesKept⟩

/-! ## Concrete schedules -/

/-- One hub; fiber `0` is parked and fiber `1` is on the hub's local queue. -/
def oneHub : State 1 where
  ws := fun g => if g = 1 then .running else .parked
  refs := fun _ => 1
  runq := []
  len := 0
  lock := none
  fifo := fun _ => [1]
  pc := fun _ => .idle

theorem oneHub_init : (wakeState 1).init oneHub where
  pc := fun _ => rfl
  runq := rfl
  len := rfl
  lock := rfl
  refs := fun _ => rfl
  fifo := by
    intro g
    by_cases hg : g = 1
    · subst hg
      exact .inl ⟨0, by decide, rfl, fun h' hh => absurd (Subsingleton.elim h' 0) hh⟩
    · exact .inr ⟨if_neg hg, fun _ => by simp [oneHub, Ne.symm hg]⟩

def theHub : Fin 1 := ⟨0, Nat.one_pos⟩

/-- A helper wakes fiber `0`, and the hub pulls the entry up to its claim. -/
def wakeAndPull : List (Action 1) :=
  Action.wake 0 0 :: List.replicate 6 (.next (.helper 0)) ++
    Action.startPull theHub :: List.replicate 4 (.next (.hub theHub))

/-- Fiber `1` yields, and a wake lands between its switch and the hub's store. -/
def wakeWhileYielding : List (Action 1) :=
  [.readyPop theHub, .yieldCurrent theHub, .wake 0 1, .next (.helper 0)]

/-- The claim of the pulled entry in `wakeAndPull` finds `QUEUED`. -/
theorem wakeState_entries_and_wakes_wakeAndPull :
    ∃ s, (wakeState 1).run oneHub wakeAndPull = some s ∧ s.pc (.hub 0) = .claim 0 ∧
      s.ws 0 = .queued ∧ EntriesSafe s ∧ WakesKept s := by
  rcases System.exists_reachable_of_run (M := wakeState 1)
    (p := fun s => decide (s.pc (.hub 0) = .claim 0)) wakeAndPull oneHub_init (by decide +kernel)
    with ⟨s, hrun, hr, hpc⟩
  have hsafe := wakeState_entries_and_wakes hr
  have hclaim : s.pc (.hub 0) = .claim 0 := of_decide_eq_true hpc
  exact ⟨s, hrun, hclaim, hsafe.1.claim_wins _ 0 hclaim, hsafe⟩

/-- A pulled fiber is `QUEUED` with no entry, and a yield can take `RUNNING_WOKEN` back to `RUNNING`. -/
theorem queued_without_entry_and_wake_overwritten :
    (∃ s, (wakeState 1).Reachable s ∧ s.ws 0 = .queued ∧ 0 ∉ s.runq ∧ ∀ a, ¬(s.pc a).pushing 0) ∧
    ∃ s t act, (wakeState 1).Reachable s ∧ step s act = some t ∧ t.ws 1 ≠ s.ws 1 ∧ ¬Edge (s.ws 1) (t.ws 1) := by
  constructor
  · rcases System.exists_reachable_of_run (M := wakeState 1)
      (p := fun s => decide (s.pc (.hub 0) = .claim 0 ∧ s.ws 0 = .queued ∧ s.runq = []))
      wakeAndPull oneHub_init (by decide +kernel) with ⟨s, _, hr, hp⟩
    rcases of_decide_eq_true hp with ⟨hpc, hw, hrunq⟩
    refine ⟨s, hr, hw, by simp [hrunq], ?_⟩
    intro a ha
    -- the puller has the fiber in hand, so nobody else has
    rcases wakeState_inv hr with ⟨P, hP⟩
    have hhub : P 0 = .held (.hub 0) := (hP.hand _ 0).mpr (by rw [hpc]; rfl)
    have hother : P 0 = .held a := (hP.hand a 0).mpr (Pc.hand_of_pushing ha).1
    cases Place.held.inj (hhub.symm.trans hother)
    rw [hpc] at ha
    cases ha
  · rcases System.exists_reachable_of_run (M := wakeState 1)
      (p := fun s => decide (s.ws 1 = .runningWoken ∧ s.pc (.hub 0) = .yieldStore 1 false true))
      wakeWhileYielding oneHub_init (by decide +kernel) with ⟨s, _, hr, hp⟩
    rcases of_decide_eq_true hp with ⟨hw, hpc⟩
    refine ⟨s, (s.setWs 1 .running).goto (.hub 0) .idle, .next (.hub 0), hr, ?_, ?_, ?_⟩
    · simp [step, next, hpc]
    · simp [State.goto, hw]
    · rw [hw]
      exact of_decide_eq_false rfl

end Runloom.WakeState
