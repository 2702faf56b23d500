import Runloom.Once

/-!
# A value computed once

Model of `sync.once_value` over its `Once`, called by fibers.  What `do` runs catches every exception of `fn`, and a
call reads `box` when its `do` is back.
-/

namespace Runloom.OnceValue

open Transition

/-- `v` and `e` are the keys of `box`.  `ended` has how `fn` ended each time, and `answers` what the calls returned or
raised. -/
structure State (F E V : Type*) where
  once : Once.State F
  v : Option V
  e : Option E
  ended : List (Except E V)
  answers : List (F × Except E (Option V))

inductive Action (F E V : Type*) where
  | once (a : Once.Action F)
  | fn (f : F) (x : Except E V)

variable {F E V : Type*}

/-- The end of `caller`. -/
def State.answer (s : State F E V) : Except E (Option V) :=
  match s.e with
  | some e => .error e
  | none => .ok s.v

/-- `run`, once `fn` ended. -/
def State.run (s : State F E V) : Except E V → State F E V
  | .ok v => { s with v := some v, ended := s.ended ++ [.ok v] }
  | .error e => { s with e := some e, ended := s.ended ++ [.error e] }

/-- The call of a fiber whose `do` is back. -/
def State.returns (s : State F E V) : Once.Action F → List (F × Except E (Option V))
  | .next f =>
    match s.once.lobby.pc f with
    | .returned _ => [(f, s.answer)]
    | _ => []
  | _ => []

variable [DecidableEq F]

def step (s : State F E V) : Action F E V → Option (State F E V)
  | .fn f x => (Once.step s.once (.fn f false)).map fun once => { s.run x with once := once }
  -- `run` lets no exception out.
  | .once (.fn ..) => none
  | .once a => (Once.step s.once a).map fun once => { s with once := once, answers := s.answers ++ s.returns a }

def onceValue (F E V : Type*) [DecidableEq F] : System (State F E V) (Action F E V) where
  init s := Once.Init s.once ∧ s.v = none ∧ s.e = none ∧ s.ended = [] ∧ s.answers = []
  step := step

variable {s t : State F E V} {a : Action F E V}

structure Inv (s : State F E V) : Prop where
  once : (Once.once F).Reachable s.once
  ended : s.ended.length = s.once.ended.length
  fresh : s.ended = [] → s.e = none
  answer : ∀ x, s.ended = [x] → s.answer = x.map some
  answers : ∀ p ∈ s.answers, ∃ x, s.ended = [x] ∧ p.2 = x.map some

theorem step_ended {s t : Once.State F} {a : Once.Action F} (h : Once.step s a = some t) :
    t.ended = s.ended ∨ ∃ f raised, a = .fn f raised := by
  cases a with
  | fn f raised => exact .inr ⟨f, raised, rfl⟩
  | call f | look f =>
    left
    simp only [Once.step] at h
    split at h <;> cases h
    simp only [Once.State.call, Once.State.look]
    split_ifs <;> rfl
  | complete f =>
    left
    simp only [Once.step] at h
    split at h <;> cases h
    rfl
  | next f | elsewhere f =>
    obtain ⟨lobby, -, rfl⟩ := Option.map_eq_some_iff.mp h
    exact .inl rfl
  | poke f =>
    cases h
    exact .inl rfl

theorem Inv.fn (h : Inv s) {f : F} {x : Except E V} (hs : (onceValue F E V).step s (.fn f x) = some t) : Inv t := by
  obtain ⟨once, ho, rfl⟩ := Option.map_eq_some_iff.mp hs
  have hr : (Once.once F).Reachable once := h.once.step (a := .fn f false) trivial ho
  simp only [Once.step] at ho
  split at ho <;> cases ho
  next hpc =>
    -- The executor is the first whose `fn` ends.
    have h0 : s.once.ended = [] := by
      obtain ⟨-, -, -, ⟨-, h0⟩ | ⟨_, hb, -⟩, -⟩ :=
        (Once.inv_of_reachable h.once).stage.executor (f := f) (by rw [hpc]; rfl)
      · exact h0
      · cases hb
    have hnil : s.ended = [] := List.length_eq_zero_iff.mp (h.ended.trans (by rw [h0]; rfl))
    have he := h.fresh hnil
    have hnone : ∀ p ∈ s.answers, False := by
      intro p hp
      obtain ⟨y, hy, -⟩ := h.answers p hp
      rw [hnil] at hy
      cases hy
    cases x <;> refine ⟨hr, ?_, ?_, ?_, fun p hp => (hnone p hp).elim⟩ <;>
      simp_all [State.run, State.answer, Once.State.goto, Except.map]

theorem Inv.step (h : Inv s) (hs : (onceValue F E V).step s a = some t) : Inv t := by
  cases a with
  | fn f x => exact h.fn hs
  | once a =>
    have hcases : ∃ once, Once.step s.once a = some once ∧ once.ended = s.once.ended ∧
        t = { s with once := once, answers := s.answers ++ s.returns a } := by
      cases a with
      | fn f raised => cases hs
      | call | complete | look | next | elsewhere =>
        obtain ⟨once, ho, rfl⟩ := Option.map_eq_some_iff.mp hs
        exact ⟨once, ho, (step_ended ho).resolve_right (by simp), rfl⟩
      | poke f =>
        cases hs
        exact ⟨_, rfl, rfl, rfl⟩
    obtain ⟨once, ho, he, rfl⟩ := hcases
    refine ⟨h.once.step trivial ho, h.ended.trans (congrArg _ he.symm), h.fresh, h.answer, fun p hp => ?_⟩
    rcases List.mem_append.mp hp with hp | hp
    · exact h.answers p hp
    · unfold State.returns at hp
      split at hp
      next =>
        split at hp
        next r hpc =>
          -- A `do` is back only when the executor has left `fn`.
          cases List.mem_singleton.mp hp
          have hone := Once.ended_of_result h.once (r := r) (by rw [hpc]; rfl)
          obtain ⟨x, hx⟩ := List.length_eq_one_iff.mp (h.ended.trans hone)
          exact ⟨x, hx, h.answer x hx⟩
        next => cases hp
      next => cases hp

/-- `fn` ends once at most, and every call gets the value or the exception with which it ended. -/
theorem calls_agree (h : (onceValue F E V).Reachable s) :
    s.ended.length ≤ 1 ∧ ∀ p ∈ s.answers, ∃ x, s.ended = [x] ∧ p.2 = x.map some := by
  have hI : Inv s := by
    refine h.invariant (P := Inv) ?_ fun _ _ _ hI _ hs => hI.step hs
    rintro s ⟨ho, hv, he, hn, ha⟩
    exact ⟨.init ho, by rw [hn, ho.ended]; rfl, fun _ => he, by simp [hn], by simp [ha]⟩
  refine ⟨?_, hI.answers⟩
  rw [hI.ended]
  cases (Once.inv_of_reachable hI.once).stage with
  | fresh _ _ _ hended => simp [hended]
  | running _ _ _ _ hg => rcases hg with ⟨-, hended⟩ | ⟨_, -, hended⟩ <;> simp [hended]
  | done _ _ _ hended => exact Nat.le_of_eq hended

/-- Fiber 1 waits while `fn` of fiber 0 raises, and raises the same. -/
theorem calls_agree_error : ∃ s, (onceValue (Fin 2) ℕ ℕ).Reachable s ∧ s.answers = [(0, .error 7), (1, .error 7)] ∧
      ∃ x, s.ended = [x] ∧ .error 7 = x.map some := by
  obtain ⟨s, hr, ha⟩ := (onceValue (Fin 2) ℕ ℕ).reaches (fun s => s.answers = [(0, .error 7), (1, .error 7)])
    [.once (.call 0), .once (.call 1), .once (.next 1), .fn 0 (.error 7), .once (.complete 0), .once (.next 0),
      .once (.next 0), .once (.next 1), .once (.look 1), .once (.next 1)]
    (s := ⟨⟨false, false, [], ⟨fun _ => .idle, fun _ => 0⟩, [], []⟩, none, none, [], []⟩)
    ⟨⟨rfl, rfl, rfl, fun _ => rfl, rfl, rfl⟩, rfl, rfl, rfl, rfl⟩ (by decide +kernel)
  exact ⟨s, hr, ha, (calls_agree hr).2 (1, .error 7) (by simp [ha])⟩

end Runloom.OnceValue
