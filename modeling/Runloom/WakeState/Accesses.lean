import Runloom.WakeState.Steps

/-!
# What one step can do to the wake state

`WsStep` lists the accesses of the source that store to `wake_state`, with the value each one finds
there.  The transitions of `runloom_ws_table` and the fate of a pending wake are read off this
list.
-/

namespace Runloom.WakeState

open Transition

variable {n : ℕ} {s t : State n} {a b : Actor n} {g x : ℕ} {act : Action n} {w : Ws}

def Action.actor : Action n → Actor n
  | .next a => a
  | .wake i _ | .sweepClaim i _ => .helper i
  | .startPull h | .timerClaim h _ | .readyPop h | .park h | .yieldCurrent h | .rawYield h => .hub h

/-- `WsStep s act g w`: in `s` the action stores `w` to the state of `g`. -/
inductive WsStep (s : State n) : Action n → ℕ → Ws → Prop where
  | wakeParked {a : Actor n} {g : ℕ} (hpc : s.pc a = .wake g .parked) (hw : s.ws g = .parked) :
      WsStep s (.next a) g .queued
  | wakeRunning {a : Actor n} {g : ℕ} (hpc : s.pc a = .wake g .running) (hw : s.ws g = .running) :
      WsStep s (.next a) g .runningWoken
  | wakeSweeping {a : Actor n} {g : ℕ} (hpc : s.pc a = .wake g .sweeping) (hw : s.ws g = .sweeping) :
      WsStep s (.next a) g .sweepingWoken
  | sweepClaim {i g : ℕ} (hw : s.ws g = .parked) : WsStep s (.sweepClaim i g) g .sweeping
  | sweepRelease {a : Actor n} {g : ℕ} (hpc : s.pc a = .sweep g) (hw : s.ws g = .sweeping) :
      WsStep s (.next a) g .parked
  | sweepStore {a : Actor n} {g : ℕ} (hpc : s.pc a = .sweepStore g) : WsStep s (.next a) g .queued
  | claim {a : Actor n} {g : ℕ} (hpc : s.pc a = .claim g) (hw : s.ws g = .queued) : WsStep s (.next a) g .running
  | timerClaim {h : Fin n} {g : ℕ} (hw : s.ws g = .parked) : WsStep s (.timerClaim h g) g .running
  | parkCas {a : Actor n} {g : ℕ} {q : Bool} (hpc : s.pc a = .parkCas g q) (hw : s.ws g = .running) :
      WsStep s (.next a) g .parked
  | parkStore {a : Actor n} {g : ℕ} {q : Bool} (hpc : s.pc a = .parkStore g q) : WsStep s (.next a) g .queued
  | yieldStore {a : Actor n} {g : ℕ} {q self : Bool} (hpc : s.pc a = .yieldStore g q self) :
      WsStep s (.next a) g .running

/-- A step either leaves every wake state alone or is one of the listed stores. -/
def WsFrame (s : State n) (act : Action n) (t : State n) : Prop :=
  t.ws = s.ws ∨ ∃ g w, t.ws = update s.ws g w ∧ WsStep s act g w

theorem wakeStep_pc (st : Ws) : ∃ c, (wakeStep s a g st).pc = update s.pc a c := by
  unfold wakeStep
  cases st <;> simp only
  case parked | running | sweeping => split <;> exact ⟨_, rfl⟩
  all_goals exact ⟨_, rfl⟩

theorem wakeStep_ws {st : Ws} (hpc : s.pc a = .wake g st) : WsFrame s (.next a) (wakeStep s a g st) := by
  unfold wakeStep
  cases st <;> simp only
  case parked =>
    split
    · exact .inr ⟨g, _, rfl, .wakeParked hpc ‹_›⟩
    · exact .inl rfl
  case running =>
    split
    · exact .inr ⟨g, _, rfl, .wakeRunning hpc ‹_›⟩
    · exact .inl rfl
  case sweeping =>
    split
    · exact .inr ⟨g, _, rfl, .wakeSweeping hpc ‹_›⟩
    · exact .inl rfl
  all_goals exact .inl rfl

theorem pushStep_frame {q : Bool} {stage : Stage} (h : pushStep s a g q stage = some t) :
    t.ws = s.ws ∧ ∃ c, t.pc = update s.pc a c := by
  cases stage with
  | acquire =>
    simp only [pushStep] at h
    split at h <;> cases h
    exact ⟨rfl, _, rfl⟩
  | _ =>
    cases h
    exact ⟨rfl, _, rfl⟩

theorem next_pc (h : next s a = some t) : ∃ c, t.pc = update s.pc a c := by
  unfold next at h
  split at h
  case h_3 =>
    cases h
    exact wakeStep_pc _
  case h_4 => exact (pushStep_frame h).2
  all_goals
    first
      | cases h
        exact ⟨_, rfl⟩
      | split at h <;> cases h <;> exact ⟨_, rfl⟩
      | cases h

theorem step_pc (h : step s act = some t) : ∃ c, t.pc = update s.pc act.actor c := by
  cases act with
  | next a => exact next_pc h
  | _ =>
    simp only [step] at h
    split at h <;> cases h
    exact ⟨_, rfl⟩

theorem step_pc_of_ne (h : step s act = some t) (hb : b ≠ act.actor) : t.pc b = s.pc b := by
  rcases step_pc h with ⟨c, hc⟩
  rw [hc, update_of_ne hb]

theorem next_ws (h : next s a = some t) : WsFrame s (.next a) t := by
  cases hpc : s.pc a with
  | wake g st =>
    simp only [next, hpc] at h
    cases h
    exact wakeStep_ws hpc
  | push g q stage =>
    simp only [next, hpc] at h
    exact .inl (pushStep_frame h).1
  | sweep g =>
    simp only [next, hpc] at h
    split at h <;> cases h
    · exact .inr ⟨g, _, rfl, .sweepRelease hpc ‹_›⟩
    · exact .inl rfl
  | sweepStore g =>
    simp only [next, hpc] at h
    cases h
    exact .inr ⟨g, _, rfl, .sweepStore hpc⟩
  | claim g =>
    simp only [next, hpc] at h
    split at h <;> cases h
    · exact .inr ⟨g, _, rfl, .claim hpc ‹_›⟩
    · exact .inl rfl
  | parkCas g q =>
    simp only [next, hpc] at h
    split at h <;> cases h
    · exact .inr ⟨g, _, rfl, .parkCas hpc ‹_›⟩
    · exact .inl rfl
  | parkStore g q =>
    simp only [next, hpc] at h
    cases h
    exact .inr ⟨g, _, rfl, .parkStore hpc⟩
  | yieldStore g q self =>
    simp only [next, hpc] at h
    cases h
    exact .inr ⟨g, _, rfl, .yieldStore hpc⟩
  | pullUnlock g? =>
    simp only [next, hpc] at h
    cases g? <;> cases h <;> exact .inl rfl
  | idle | running => simp [next, hpc] at h
  | pullAcquire | pullTake | readyPush =>
    simp only [next, hpc] at h
    split at h <;> cases h <;> exact .inl rfl
  | pullLen | decref | yieldDecref =>
    simp only [next, hpc] at h
    cases h
    exact .inl rfl

theorem step_ws (h : step s act = some t) : WsFrame s act t := by
  cases act with
  | next a => exact next_ws h
  | sweepClaim i g =>
    simp only [step] at h
    split at h <;> cases h
    rename_i hg
    exact .inr ⟨g, _, rfl, .sweepClaim hg.2⟩
  | timerClaim h' g =>
    simp only [step] at h
    split at h <;> cases h
    rename_i hg
    exact .inr ⟨g, _, rfl, .timerClaim hg.2⟩
  | _ =>
    simp only [step] at h
    split at h <;> cases h
    exact .inl rfl

end Runloom.WakeState
