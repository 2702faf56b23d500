import Mathlib.Data.Fintype.Basic
import Runloom.CoEvent.Model
import Runloom.Transition.History

/-!
# The cooperative event: what an untimed `wait` returns

The test that ends the loop of `wait` reads the flag, and the value that is returned is read again, after the parker
is out of the list and released.  A `clear` between the two reads makes an untimed `wait` return `False`. Without one
it returns `True`.
-/

namespace Runloom.CoEvent

open Transition
open State (goto_of_ne goto_self)

variable {C : Type*} [DecidableEq C] {s t : State C} {a : Action C} {c d : C}

namespace Pc

/-- The places of an untimed `wait` on its way to return `True`. -/
def onCourse (flag : Bool) : Pc C → Bool
  | .building t | .entered t | .test t | .retest t | .waiting t | .parked t | .woken t | .relist t => t.isNone
  | .leaving | .releasing | .reading => flag
  | .returned r => r = .true
  | .idle | .clock _ | .collect _ _ | .waking _ => false

/-- Between the test that ended the loop and the read of the value that is returned. -/
def exits : Pc C → Bool
  | .leaving | .releasing | .reading => true
  | _ => false

def stepsLeft : Pc C → ℕ
  | .leaving => 3
  | .releasing => 2
  | .reading => 1
  | _ => 0

end Pc

/-- The calls that are made as `wait()`. -/
def untimedCalls (u : C → Bool) (_ : State C) : Action C → State C → C → Bool
  | .call c (.wait none), _ => Function.update u c true
  | _, _ => u

/-- The event, with the untimed calls of `wait` on record. -/
def waits (C : Type*) [DecidableEq C] : System (State C × (C → Bool)) (Action C) :=
  (event C).withHistory (fun _ => false) untimedCalls

/-- No `clear` comes while an untimed `wait` is between its last test and the read of its result. -/
def NoClearAtExit (p : State C × (C → Bool)) : Action C → Prop
  | .call _ .clear => ∀ c, p.2 c = true → (p.1.pc c).exits = false
  | _ => True

instance [Fintype C] (p : State C × (C → Bool)) : ∀ a : Action C, Decidable (NoClearAtExit p a)
  | .call _ .clear => inferInstanceAs (Decidable (∀ c, p.2 c = true → (p.1.pc c).exits = false))
  | .call _ .set | .call _ (.wait _) | .next _ | .elsewhere _ | .poke _ | .tick _ => .isTrue trivial

/-! ## One step -/

theorem register_frame (s : State C) (c : C) (timeout : Option ℤ) :
    (s.register c timeout).flag = s.flag ∧ ∀ d ≠ c, (s.register c timeout).pc d = s.pc d := by
  unfold State.register
  split <;> exact ⟨rfl, fun d hd => goto_of_ne _ _ hd⟩

theorem test_frame (s : State C) (c : C) (deadline : Option ℤ) :
    (s.test c deadline).flag = s.flag ∧ ∀ d ≠ c, (s.test c deadline).pc d = s.pc d := by
  unfold State.test
  split
  · exact ⟨rfl, fun d hd => goto_of_ne _ _ hd⟩
  · split <;> exact ⟨rfl, fun d hd => goto_of_ne _ _ hd⟩

theorem relist_frame (s : State C) (c : C) (deadline : Option ℤ) :
    (s.relist c deadline).flag = s.flag ∧ ∀ d ≠ c, (s.relist c deadline).pc d = s.pc d := by
  unfold State.relist
  split
  · exact ⟨rfl, fun d hd => goto_of_ne _ _ hd⟩
  · split <;> exact ⟨rfl, fun d hd => goto_of_ne _ _ hd⟩

theorem test_onCourse {deadline : Option ℤ} (h : deadline.isNone = true) :
    ((s.test c deadline).pc c).onCourse s.flag = true := by
  unfold State.test
  split
  next hf => rwa [goto_self]
  next =>
    rw [Option.isNone_iff_eq_none.mp h]
    exact congrArg (Pc.onCourse _) (goto_self ..)

theorem next_frame (h : s.next c = some t) : t.flag = s.flag ∧ ∀ d ≠ c, t.pc d = s.pc d := by
  have hgoto : ∀ (u : State C) (p : Pc C), u.flag = s.flag → u.pc = s.pc →
      (u.goto c p).flag = s.flag ∧ ∀ d ≠ c, (u.goto c p).pc d = s.pc d := by
    intro u p hf hpc
    refine ⟨hf, fun d hd => ?_⟩
    rw [goto_of_ne _ _ hd, hpc]
  unfold State.next at h
  split at h <;> cases h
  · exact register_frame s c _
  · exact hgoto _ _ rfl rfl
  · exact test_frame s c _
  · exact test_frame s c _
  · split <;> exact hgoto _ _ rfl rfl
  · split <;> exact hgoto _ _ rfl rfl
  · exact hgoto _ _ rfl rfl
  · split <;> exact hgoto _ _ rfl rfl
  · exact relist_frame s c _
  all_goals exact hgoto _ _ rfl rfl

section

omit [DecidableEq C]

theorem Pc.onCourse_of_set {flag : Bool} {p : Pc C} (h : p.onCourse flag = true) : p.onCourse true = true := by
  cases p <;> first | rfl | exact h

theorem Pc.onCourse_of_clear {flag : Bool} {p : Pc C} (h : p.onCourse flag = true) (hx : p.exits = false) :
    p.onCourse false = true := by
  cases p <;> first | exact h | cases hx

end

theorem next_onCourse (h : s.next c = some t) (hp : (s.pc c).onCourse s.flag = true) :
    (t.pc c).onCourse s.flag = true := by
  unfold State.next at h
  split at h <;> cases h
  next timeout hpc =>
    rw [hpc] at hp
    unfold State.register
    split <;> rw [goto_self]
    · rfl
    · exact hp
  next timeout hpc =>
    rw [hpc] at hp
    rw [goto_self, Option.isNone_iff_eq_none.mp hp]
    rfl
  -- The two tests of the loop: out of it with the flag set, or to the park, since there is no deadline.
  next deadline hpc =>
    rw [hpc] at hp
    exact test_onCourse hp
  next deadline hpc =>
    rw [hpc] at hp
    exact test_onCourse hp
  next d hpc =>
    rw [hpc] at hp
    cases hp
  next deadline hpc =>
    rw [hpc] at hp
    split <;> rwa [goto_self]
  next deadline hpc =>
    rw [hpc] at hp
    rwa [goto_self]
  next deadline hpc =>
    rw [hpc] at hp
    split <;> rwa [goto_self]
  next deadline hpc =>
    rw [hpc] at hp
    unfold State.relist
    split
    · rwa [goto_self]
    · split <;> rwa [goto_self]
  -- Past the loop the course depends on the flag alone.
  next hpc =>
    rw [hpc] at hp
    rwa [goto_self]
  next hpc =>
    rw [hpc] at hp
    rwa [goto_self]
  next hpc =>
    rw [hpc] at hp
    rw [goto_self, if_pos (show s.flag = true from hp)]
    rfl
  all_goals
    rename_i hpc
    rw [hpc] at hp
    cases hp

theorem call_pc_of_ne (s : State C) (k : Call) (h : d ≠ c) : (s.call c k).pc d = s.pc d := by
  cases k with
  | wait timeout | set =>
    simp only [State.call]
    split <;> exact goto_of_ne _ _ h
  | clear => exact goto_of_ne _ _ h

theorem call_wait_flag (s : State C) (timeout : Option ℤ) : (s.call c (.wait timeout)).flag = s.flag := by
  simp only [State.call]
  split <;> rfl

theorem call_wait_onCourse (s : State C) (flag : Bool) : ((s.call c (.wait none)).pc c).onCourse flag = true := by
  simp only [State.call]
  split <;> rw [goto_self] <;> rfl

theorem call_set_flag (s : State C) : (s.call c .set).flag = true := by
  simp only [State.call]
  split
  next hf => exact hf
  next => rfl

/-! ## Whole runs -/

variable {p q : State C × (C → Bool)} {u : C → Bool}

structure Waits (p : State C × (C → Bool)) : Prop where
  course : ∀ c, p.2 c = true → (p.1.pc c).onCourse p.1.flag = true

omit [DecidableEq C] in
theorem Waits.not_idle (hW : Waits p) (hpc : p.1.pc c = .idle) : p.2 c = false := by
  refine Bool.eq_false_iff.mpr fun hc => ?_
  have := hW.course c hc
  rw [hpc] at this
  cases this

theorem Waits.callWait (hW : Waits (s, u)) (timeout : Option ℤ) (hu : u c = false) :
    Waits (s.call c (.wait timeout), untimedCalls u s (.call c (.wait timeout)) (s.call c (.wait timeout))) := by
  refine ⟨fun d hd => ?_⟩
  by_cases hdc : d = c
  · subst hdc
    cases timeout with
    | none => exact call_wait_onCourse ..
    | some _ =>
      have hd : u d = true := hd
      rw [hu] at hd
      cases hd
  · have hud : u d = true := by
      cases timeout with
      | none =>
        have hd : Function.update u c true d = true := hd
        rwa [Function.update_of_ne hdc] at hd
      | some _ => exact hd
    rw [call_pc_of_ne _ _ hdc, call_wait_flag]
    exact hW.course d hud

theorem Waits.call (hW : Waits (s, u)) (hpc : s.pc c = .idle) (k : Call) (hC : NoClearAtExit (s, u) (.call c k)) :
    Waits (s.call c k, untimedCalls u s (.call c k) (s.call c k)) := by
  have hu : u c = false := hW.not_idle hpc
  have hne : ∀ d, u d = true → d ≠ c := by
    rintro d hd rfl
    rw [hu] at hd
    cases hd
  cases k with
  | wait timeout => exact hW.callWait timeout hu
  | set =>
    refine ⟨fun d hd => ?_⟩
    rw [call_pc_of_ne _ _ (hne d hd), call_set_flag]
    exact Pc.onCourse_of_set (hW.course d hd)
  | clear =>
    refine ⟨fun d hd => ?_⟩
    rw [call_pc_of_ne _ _ (hne d hd)]
    exact Pc.onCourse_of_clear (hW.course d hd) (hC d hd)

theorem Waits.step (hW : Waits p) (hC : NoClearAtExit p a) (h : (waits C).step p a = some q) : Waits q := by
  obtain ⟨hs, hu⟩ := System.withHistory_step h
  obtain ⟨s, u⟩ := p
  obtain ⟨t, w⟩ := q
  simp only at hs hu
  subst hu
  cases a with
  | call c k =>
    simp only [event, CoEvent.step] at hs
    split at hs <;> cases hs
    next hpc => exact hW.call hpc k hC
  | next c =>
    obtain ⟨hf, hpc⟩ := next_frame hs
    refine ⟨fun d hd => ?_⟩
    show (t.pc d).onCourse t.flag = true
    rw [hf]
    by_cases hdc : d = c
    · subst hdc
      exact next_onCourse hs (hW.course d hd)
    · rw [hpc d hdc]
      exact hW.course d hd
  | elsewhere c =>
    simp only [event, CoEvent.step] at hs
    split at hs <;> cases hs
    exact ⟨hW.course⟩
  | poke c | tick d =>
    cases hs
    exact ⟨hW.course⟩

theorem waits_of_reachableWith (h : (waits C).ReachableWith NoClearAtExit p) : Waits p :=
  h.invariant (fun p hp => ⟨fun c hc => by rw [hp.2] at hc; cases hc⟩) fun _ _ _ hW hC hs => hW.step hC hs

/-! ## The exit -/

theorem reading_run (hpc : s.pc c = .reading) :
    ∃ t, (event C).run s [.next c] = some t ∧ t.pc c = .returned (if s.flag then .true else .false) := by
  refine ⟨s.goto c (.returned (if s.flag then .true else .false)), ?_, goto_self ..⟩
  rw [System.run_cons (by simp only [event, CoEvent.step, State.next, hpc]; rfl)]
  rfl

theorem releasing_run (hpc : s.pc c = .releasing) :
    ∃ t, (event C).run s [.next c, .next c] = some t ∧ t.pc c = .returned (if s.flag then .true else .false) := by
  rw [System.run_cons (by simp only [event, CoEvent.step, State.next, hpc]; rfl)]
  exact reading_run (goto_self ..)

theorem exit_run (hx : (s.pc c).exits = true) :
    ∃ t, (event C).run s (List.replicate (s.pc c).stepsLeft (.next c)) = some t ∧
      t.pc c = .returned (if s.flag then .true else .false) := by
  cases hpc : s.pc c with
  | leaving =>
    show ∃ t, (event C).run s [.next c, .next c, .next c] = some t ∧ _
    rw [System.run_cons (by simp only [event, CoEvent.step, State.next, hpc]; rfl)]
    exact releasing_run (goto_self ..)
  | releasing => exact releasing_run hpc
  | reading => exact reading_run hpc
  | _ =>
    rw [hpc] at hx
    cases hx

/-- If no `clear` comes while an untimed `wait` is between its loop and the read of its result, it returns `True`. -/
theorem untimed_wait_returns_true :
    (∀ p, (waits C).ReachableWith NoClearAtExit p → ∀ c r, p.2 c = true → p.1.pc c = .returned r → r = .true) ∧
    (∀ p q d c, (waits C).Reachable p → p.2 c = true → (p.1.pc c).exits = true →
      (waits C).step p (.call d .clear) = some q →
      ∃ t, (event C).run q.1 (List.replicate (q.1.pc c).stepsLeft (.next c)) = some t ∧
        t.pc c = .returned .false) := by
  refine ⟨fun p hp c r hc hr => ?_, fun p q d c _ _ hx h => ?_⟩
  · have hcourse := (waits_of_reachableWith hp).course c hc
    rw [hr] at hcourse
    exact of_decide_eq_true hcourse
  · obtain ⟨hs, -⟩ := System.withHistory_step h
    simp only [event, CoEvent.step] at hs
    split at hs
    next hpc =>
      have hq : p.1.call d .clear = q.1 := Option.some.inj hs
      have hcd : c ≠ d := by
        rintro rfl
        rw [hpc] at hx
        cases hx
      have hflag : q.1.flag = false := by rw [← hq]; rfl
      have hxq : (q.1.pc c).exits = true := by rwa [← hq, call_pc_of_ne _ _ hcd]
      have hrun := exit_run hxq
      rwa [hflag] at hrun
    next => cases hs

def unset : State (Fin 3) := ⟨false, [], fun _ => false, fun _ => 0, fun _ => .idle, 0⟩

/-- Call 0 waits, call 1 sets the event, and call 0 returns `True`. -/
theorem untimed_wait_returns_true_oneSet :
    ∃ p, (waits (Fin 3)).ReachableWith NoClearAtExit p ∧ p.2 0 = true ∧ p.1.pc 0 = .returned .true := by
  obtain ⟨p, hr, hu, r, -, hpc⟩ := (waits (Fin 3)).reachesWith NoClearAtExit
    (fun p => p.2 0 = true ∧ ∃ r ∈ [Result.true, .false, .none], p.1.pc 0 = .returned r)
    [.call 0 (.wait none), .next 0, .next 0, .next 0, .next 0, .call 1 .set, .next 1, .next 1, .next 1,
      .next 0, .next 0, .next 0, .next 0, .next 0, .next 0]
    (s := (unset, fun _ => false)) ⟨⟨rfl, rfl, fun _ => rfl, fun _ => rfl⟩, rfl⟩ (by decide +kernel)
  refine ⟨p, hr, hu, ?_⟩
  rw [hpc, (untimed_wait_returns_true.1 p hr 0 r hu hpc)]

/-- Call 2 clears the event when call 0 has left its loop, and call 0 returns `False`. -/
theorem untimed_wait_returns_false :
    ∃ p, (waits (Fin 3)).Reachable p ∧ p.2 0 = true ∧ p.1.pc 0 = .returned .false := by
  exact (waits (Fin 3)).reaches (fun p => p.2 0 = true ∧ p.1.pc 0 = .returned .false)
    [.call 0 (.wait none), .next 0, .next 0, .next 0, .next 0, .call 1 .set, .next 1, .next 1, .next 1,
      .next 0, .next 0, .next 0, .call 2 .clear, .next 0, .next 0, .next 0]
    (s := (unset, fun _ => false)) ⟨⟨rfl, rfl, fun _ => rfl, fun _ => rfl⟩, rfl⟩ (by decide +kernel)

end Runloom.CoEvent
