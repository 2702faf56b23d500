import Runloom.WakeState.Accesses

/-!
# No wake is lost

A wake of a parked, parking or swept fiber makes some actor owe the fiber an enqueue: the waker itself, the hub that
is about to release the fiber, or the sweeper.
-/

namespace Runloom.WakeState

open Transition

variable {n : ℕ} {s t : State n} {P : ℕ → Place n} {a b : Actor n} {g x : ℕ} {act : Action n} {w : Ws}

/-- The actor will link `g` on the global run queue before it does anything else. -/
def Pc.owes (g : ℕ) (w : Ws) : Pc → Prop
  | .push g' _ .incref | .push g' _ .acquire | .push g' _ .link => g' = g
  | .parkCas g' _ => g' = g ∧ w = .runningWoken
  | .sweep g' => g' = g ∧ w = .sweepingWoken
  | .parkStore g' _ | .sweepStore g' => g' = g
  | _ => False

def Owes (s : State n) (a : Actor n) (g : ℕ) : Prop := (s.pc a).owes g (s.ws g)

def Pc.toLink : Pc → ℕ
  | .parkCas _ _ | .sweep _ => 5
  | .parkStore _ _ | .sweepStore _ => 4
  | .push _ _ .incref => 3
  | .push _ _ .acquire => 2
  | .push _ _ .link => 1
  | _ => 0

def Pc.toUnlock : Pc → ℕ
  | .push _ _ .link | .pullTake => 3
  | .push _ _ .len | .pullLen _ => 2
  | .push _ _ .unlock | .pullUnlock _ => 1
  | _ => 0

theorem Owes.hand (ho : Owes s a g) : (s.pc a).hand = some g := by
  unfold Owes at ho
  cases hpc : s.pc a with
  | push g' q stage =>
    rw [hpc] at ho
    cases stage <;> first | exact congrArg some (show g' = g from ho) | cases ho
  | parkCas | sweep =>
    rw [hpc] at ho
    exact congrArg some ho.1
  | parkStore | sweepStore =>
    rw [hpc] at ho
    exact congrArg some ho
  | _ =>
    rw [hpc] at ho
    cases ho

theorem PInv.ws_of_woken (hP : PInv s P) (hold : (s.pc a).hand = some g)
    (hw : s.ws g = .runningWoken ∨ s.ws g = .sweepingWoken) (h : step s act = some t)
    (hne : a ≠ act.actor) : t.ws g = s.ws g := by
  rcases step_ws h with hws | ⟨x, w, hws, hstep⟩
  · rw [hws]
  by_cases hx : g = x
  swap
  · rw [hws, Function.update_of_ne hx]
  subst hx
  exfalso
  have hPg : P g = .held a := (hP.hand a g).mpr hold
  have hother : ∀ {b c}, s.pc b = c → c.hand = some g → a = b := by
    intro b c hc hb
    subst hc
    exact Place.held.inj (hPg.symm.trans ((hP.hand b g).mpr hb))
  cases hstep with
  | wakeParked _ hg | wakeRunning _ hg | wakeSweeping _ hg | sweepClaim hg | sweepRelease _ hg
  | claim _ hg | timerClaim hg | parkCas _ hg => simp [hg] at hw
  | sweepStore hpc | parkStore hpc =>
    -- only the holder releases a woken fiber
    exact hne (hother hpc rfl)
  | @yieldStore b _ q self hpc =>
    cases self with
    | false => exact hne (hother hpc rfl)
    | true =>
      have hnot : ¬(s.pc b).ofHelper := by
        rw [hpc]
        exact id
      rcases hP.exists_hub hnot with ⟨h', rfl⟩
      have hfifo := hP.yielding h' g q hpc
      rw [hPg] at hfifo
      cases hfifo

theorem PInv.owes_of_other (hP : PInv s P) (ho : Owes s a g) (h : step s act = some t)
    (hne : a ≠ act.actor) : Owes t a g := by
  have hpc := step_pc_of_ne h hne
  have hhand := ho.hand
  unfold Owes at ho ⊢
  rw [hpc]
  cases hc : s.pc a with
  | parkCas g' q =>
    rw [hc] at ho
    rw [hP.ws_of_woken hhand (.inl ho.2) h hne]
    exact ho
  | sweep g' =>
    rw [hc] at ho
    rw [hP.ws_of_woken hhand (.inr ho.2) h hne]
    exact ho
  | push g' q stage =>
    rw [hc] at ho
    cases stage <;> exact ho
  | _ =>
    rw [hc] at ho
    exact ho

theorem eq_next_of_owes (ho : Owes s act.actor g) (h : step s act = some t) : act = .next act.actor := by
  cases act with
  | next a => rfl
  | wake i g' =>
    simp only [step] at h
    split at h
    · rename_i hpc
      simp [Owes, Action.actor, hpc, Pc.owes] at ho
    · cases h
  | sweepClaim i g' | startPull h' | timerClaim h' g' =>
    simp only [step] at h
    split at h
    · rename_i hpc
      simp [Owes, Action.actor, hpc.1, Pc.owes] at ho
    · cases h
  | readyPop h' | park h' | yieldCurrent h' | rawYield h' =>
    simp only [step] at h
    split at h
    · rename_i hpc
      simp_all [Owes, Action.actor, Pc.owes]
    · cases h

theorem Owes.next (ho : Owes s a g) (h : WakeState.next s a = some t) :
    g ∈ t.runq ∨ Owes t a g ∧ (t.pc a).toLink < (s.pc a).toLink := by
  unfold Owes at ho ⊢
  cases hpc : s.pc a with
  | push g' q stage =>
    simp only [WakeState.next, hpc] at h
    rw [hpc] at ho
    cases stage with
    | incref =>
      cases h
      right
      simpa [Pc.owes, Pc.toLink] using ho
    | acquire =>
      simp only [pushStep] at h
      split at h <;> cases h
      right
      simpa [Pc.owes, Pc.toLink] using ho
    | link =>
      cases h
      left
      simp [State.goto, show g' = g from ho]
    | len | unlock => cases ho
  | parkCas g' q | sweep g' =>
    rw [hpc] at ho
    rcases ho with ⟨rfl, hw⟩
    simp only [WakeState.next, hpc, hw, reduceCtorEq, if_false] at h
    cases h
    right
    simp [Pc.owes, Pc.toLink]
  | parkStore | sweepStore =>
    rw [hpc] at ho
    simp only [WakeState.next, hpc] at h
    cases h
    right
    simpa [Pc.owes, Pc.toLink] using ho
  | _ =>
    rw [hpc] at ho
    cases ho

theorem PInv.owes_step (hP : PInv s P) (ho : Owes s a g) (h : step s act = some t) : g ∈ t.runq ∨ Owes t a g := by
  by_cases ha : a = act.actor
  · subst ha
    have hnext := eq_next_of_owes ho h
    rw [hnext] at h
    exact (Owes.next ho h).imp_right And.left
  · exact .inr (hP.owes_of_other ho h ha)

theorem Inv.owes_run {as : List (Action n)} (hI : Inv s) (ho : Owes s a g) (h : (wakeState n).run s as = some t) :
    Owes t a g ∨ ∃ k u, (wakeState n).run s (as.take k) = some u ∧ g ∈ u.runq := by
  induction as generalizing s with
  | nil =>
    cases h
    exact .inl ho
  | cons act as ih =>
    simp only [System.run, Option.bind_eq_some_iff] at h
    rcases h with ⟨u, hu, hrun⟩
    rcases hI with ⟨P, hP⟩
    rcases hP.owes_step ho hu with hmem | hou
    · refine .inr ⟨1, u, ?_, hmem⟩
      exact System.run_cons hu
    · rcases ih (Inv.step ⟨P, hP⟩ hu) hou hrun with hot | ⟨k, v, hv, hmem⟩
      · exact .inl hot
      · refine .inr ⟨k + 1, v, ?_, hmem⟩
        rw [List.take_succ_cons, System.run_cons hu]
        exact hv

/-! ## A wake leaves a debt -/

def Parking (s : State n) (g : ℕ) : Prop :=
  s.ws g = .parked ∨ s.ws g = .sweeping ∨ s.ws g = .sweepingWoken ∨
    ∃ h q, s.pc (.hub h) = .parkCas g q ∨ s.pc (.hub h) = .parkStore g q

theorem PInv.exists_sweeper (hP : PInv s P) (hw : s.ws g = .sweeping ∨ s.ws g = .sweepingWoken) :
    ∃ a, s.pc a = .sweep g ∨ s.pc a = .sweepStore g ∧ s.ws g = .sweepingWoken := by
  have hws := hP.ws g
  cases hPg : P g with
  | parked | listed | fifo h => rcases hw with hw | hw <;> simp [hPg, PlaceWs, hw] at hws
  | held a =>
    have hhand := (hP.hand a g).mp hPg
    rw [hPg, PlaceWs] at hws
    refine ⟨a, ?_⟩
    rcases hw with hw | hw <;> cases hpc : s.pc a <;> simp_all [Pc.hand, Pc.wsOk]

theorem PInv.owes_of_recorded (hP : PInv s P) (hg : Parking s g) (hparked : s.ws g ≠ .parked)
    (hsweeping : s.ws g ≠ .sweeping) (hrunning : s.ws g ≠ .running) : ∃ a, Owes s a g := by
  rcases hg with hw | hw | hw | ⟨h, q, hpc | hpc⟩
  · exact absurd hw hparked
  · exact absurd hw hsweeping
  · rcases hP.exists_sweeper (.inr hw) with ⟨a, hpc | ⟨hpc, _⟩⟩
    · exact ⟨a, by simp [Owes, hpc, Pc.owes, hw]⟩
    · exact ⟨a, by simp [Owes, hpc, Pc.owes]⟩
  · have hok := hP.wsOk_of_hand (a := .hub h) (g := g) (by rw [hpc]; rfl)
    rw [hpc] at hok
    have hw : s.ws g = .runningWoken := hok.resolve_left hrunning
    exact ⟨.hub h, by simp [Owes, hpc, Pc.owes, hw]⟩
  · exact ⟨.hub h, by simp [Owes, hpc, Pc.owes]⟩

theorem PInv.owes_of_wake {st : Ws} (hP : PInv s P) (hg : Parking s g)
    (hpc : s.pc a = .wake g st) (h : next s a = some t) (hchange : t.ws g ≠ s.ws g) :
    ∃ b, Owes t b g := by
  have hstep : step s (.next a) = some t := h
  have hkeep : ∀ {b}, b ≠ a → t.pc b = s.pc b := fun hb => step_pc_of_ne hstep hb
  simp only [next, hpc] at h
  cases h
  unfold wakeStep at hchange hkeep ⊢
  cases st with
  | parked =>
    simp only at hchange ⊢
    split
    · exact ⟨a, by simp [Owes, State.goto, Pc.owes]⟩
    · rename_i hw
      simp [hw, State.goto] at hchange
  | running =>
    simp only at hchange hkeep ⊢
    split
    · rename_i hw
      rw [if_pos hw] at hkeep
      rcases hg with hw' | hw' | hw' | ⟨h, q, hpc' | hpc'⟩
      · simp [hw] at hw'
      · simp [hw] at hw'
      · simp [hw] at hw'
      · refine ⟨.hub h, ?_⟩
        rw [Owes, hkeep (by rintro rfl; simp [hpc] at hpc'), hpc']
        simp [Pc.owes, State.goto]
      · have hok := hP.wsOk_of_hand (a := .hub h) (g := g) (by rw [hpc']; rfl)
        rw [hpc', hw] at hok
        cases hok
    · rename_i hw
      simp [hw, State.goto] at hchange
  | sweeping =>
    simp only at hchange hkeep ⊢
    split
    · rename_i hw
      rw [if_pos hw] at hkeep
      rcases hP.exists_sweeper (.inl hw) with ⟨b, hb | ⟨hb, hw'⟩⟩
      · refine ⟨b, ?_⟩
        rw [Owes, hkeep (by rintro rfl; simp [hpc] at hb), hb]
        simp [Pc.owes, State.goto]
      · simp [hw] at hw'
    · rename_i hw
      simp [hw, State.goto] at hchange
  | queued | runningWoken | sweepingWoken => simp [State.goto] at hchange

theorem wake_returns {st : Ws} (hpc : s.pc a = .wake g st) (h : next s a = some t) :
    t.pc a = .wake g (s.ws g) ∨ t.ws g ≠ s.ws g ∨ st = .queued ∨ st = .runningWoken ∨ st = .sweepingWoken := by
  simp only [next, hpc] at h
  cases h
  unfold wakeStep
  cases st <;> simp only
  case parked | running | sweeping =>
    split
    · rename_i hw
      right
      left
      simp [State.goto, hw]
    · left
      simp
  all_goals simp

theorem PInv.woken_running {h : Fin n} {q : Bool} (hP : PInv s P)
    (hpc : s.pc (.hub h) = .running g q) (hw : s.ws g = .runningWoken)
    (hstep : step s act = some t) :
    t.pc (.hub h) = .running g q ∧ t.ws g = .runningWoken ∨ act = .park h ∧ Owes t (.hub h) g ∨
      act = .yieldCurrent h ∨ act = .rawYield h := by
  by_cases ha : (Actor.hub h : Actor n) = act.actor
  · cases act with
    | next b =>
      cases (show Actor.hub h = b from ha)
      simp [step, next, hpc] at hstep
    | wake | sweepClaim => cases ha
    | startPull h' | timerClaim h' | readyPop h' =>
      cases (show Actor.hub h = .hub h' from ha)
      simp [step, hpc] at hstep
    | park h' =>
      cases (show Actor.hub h = .hub h' from ha)
      simp only [step, hpc] at hstep
      cases hstep
      refine .inr (.inl ⟨rfl, ?_⟩)
      simpa [Owes, State.goto, Pc.owes] using hw
    | yieldCurrent h' =>
      cases (show Actor.hub h = .hub h' from ha)
      exact .inr (.inr (.inl rfl))
    | rawYield h' =>
      cases (show Actor.hub h = .hub h' from ha)
      exact .inr (.inr (.inr rfl))
  · left
    rw [step_pc_of_ne hstep ha, hP.ws_of_woken (by rw [hpc]; rfl) (.inl hw) hstep ha]
    exact ⟨hpc, hw⟩

/-! ## The debt can be paid -/

theorem Inv.of_run {as : List (Action n)} (hI : Inv s) (h : (wakeState n).run s as = some t) :
    Inv t :=
  System.run_invariant (fun _ _ _ hs hu => Inv.step hs hu) hI h

theorem next_of_locked (hb : (s.pc b).locked) : ∃ t, next s b = some t ∧ (t.lock = none ∨ t.lock = s.lock ∧
      (t.pc b).toUnlock < (s.pc b).toUnlock) := by
  cases hpc : s.pc b with
  | push g q stage =>
    rw [hpc] at hb
    simp only [next, hpc]
    cases stage with
    | incref | acquire => cases hb
    | link | len => exact ⟨_, rfl, .inr ⟨rfl, by simp [Pc.toUnlock]⟩⟩
    | unlock => exact ⟨_, rfl, .inl rfl⟩
  | pullTake =>
    simp only [next, hpc]
    split <;> exact ⟨_, rfl, .inr ⟨rfl, by simp [Pc.toUnlock]⟩⟩
  | pullLen g =>
    simp only [next, hpc]
    exact ⟨_, rfl, .inr ⟨rfl, by simp [Pc.toUnlock]⟩⟩
  | pullUnlock g? =>
    simp only [next, hpc]
    cases g? <;> exact ⟨_, rfl, .inl rfl⟩
  | _ =>
    rw [hpc] at hb
    cases hb

theorem Inv.exists_unlock (hI : Inv s) (ho : Owes s a g) (ha : ¬(s.pc a).locked) :
    ∃ as t, (wakeState n).run s as = some t ∧ t.lock = none ∧ t.pc a = s.pc a ∧ Owes t a g := by
  cases hlock : s.lock with
  | none => exact ⟨[], s, rfl, hlock, rfl, ho⟩
  | some b =>
    -- by induction on the accesses the holder has left
    induction hk : (s.pc b).toUnlock using Nat.strong_induction_on generalizing s with
    | _ k ih =>
      rcases hI with ⟨P, hP⟩
      have hb := (hP.lock b).mp hlock
      have hab : a ≠ b := by
        rintro rfl
        exact ha hb
      rcases next_of_locked hb with ⟨t, ht, hdone⟩
      have hstep : WakeState.step s (.next b) = some t := ht
      have hpc := step_pc_of_ne hstep hab
      have hot := hP.owes_of_other ho hstep hab
      rcases hdone with hfree | ⟨hsame, hless⟩
      · refine ⟨[.next b], t, ?_, hfree, hpc, hot⟩
        exact System.run_cons hstep
      · rcases ih _ (hk ▸ hless) (Inv.step ⟨P, hP⟩ hstep) hot (by rwa [hpc]) (hsame.trans hlock) rfl
          with ⟨as, u, hu, hfree, hpcu, hou⟩
        refine ⟨.next b :: as, u, ?_, hfree, hpcu.trans hpc, hou⟩
        rw [System.run_cons hstep]
        exact hu

theorem Owes.next_or_waits (ho : Owes s a g) :
    (∃ t, WakeState.next s a = some t) ∨ ¬(s.pc a).locked ∧ ∀ t : State n, t.pc a = s.pc a → t.lock = none →
      ∃ u, WakeState.next t a = some u := by
  unfold Owes at ho
  cases hpc : s.pc a with
  | push g' q stage =>
    cases stage with
    | acquire =>
      refine .inr ⟨id, ?_⟩
      intro t ht hfree
      exact ⟨_, by simp only [WakeState.next, ht, pushStep, if_pos hfree]; rfl⟩
    | incref | link | len | unlock => exact .inl ⟨_, by simp only [WakeState.next, hpc]; rfl⟩
  | parkCas g' q | sweep g' =>
    left
    simp only [WakeState.next, hpc]
    split <;> exact ⟨_, rfl⟩
  | parkStore | sweepStore => exact .inl ⟨_, by simp only [WakeState.next, hpc]; rfl⟩
  | _ =>
    rw [hpc] at ho
    cases ho

/-- From any state with a debt a schedule pays it: the lock holder first, then the owing actor. -/
theorem Inv.exists_enqueued (hI : Inv s) (ho : Owes s a g) :
    ∃ as t, (wakeState n).run s as = some t ∧ g ∈ t.runq := by
  induction hk : (s.pc a).toLink using Nat.strong_induction_on generalizing s with
  | _ k ih =>
    -- reach a state with the same debt where the owing actor can step
    have hready : ∃ as u v, (wakeState n).run s as = some u ∧ u.pc a = s.pc a ∧ Owes u a g ∧
        WakeState.next u a = some v := by
      rcases ho.next_or_waits with ⟨v, hv⟩ | ⟨hnot, hfree⟩
      · exact ⟨[], s, v, rfl, rfl, ho, hv⟩
      · rcases hI.exists_unlock ho hnot with ⟨as, u, hu, hlock, hpc, hou⟩
        rcases hfree u hpc hlock with ⟨v, hv⟩
        exact ⟨as, u, v, hu, hpc, hou, hv⟩
    rcases hready with ⟨as, u, v, hu, hpc, hou, hv⟩
    have hIu : Inv u := Inv.of_run hI hu
    have hstep : WakeState.step u (.next a) = some v := hv
    have hrun : (wakeState n).run s (as ++ [Action.next a]) = some v := by
      rw [System.run_append hu]
      exact System.run_cons hstep
    rcases hIu with ⟨P, hP⟩
    rcases Owes.next hou hv with hmem | ⟨hov, hless⟩
    · exact ⟨_, v, hrun, hmem⟩
    · rcases ih _ (by rw [← hk, ← hpc]; exact hless) (Inv.step ⟨P, hP⟩ hstep) hov rfl
        with ⟨bs, t, ht, hmem⟩
      refine ⟨(as ++ [Action.next a]) ++ bs, t, ?_, hmem⟩
      rw [System.run_append hrun]
      exact ht

end Runloom.WakeState
