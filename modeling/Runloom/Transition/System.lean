import Mathlib.Data.List.Basic

/-!
# Transition systems with partial, executable steps

A concurrent component is modelled as a state type, an action type that names one atomic step of one actor, and a
partial step function: `none` means that the actor cannot take that step now.

`ReachableWith C` restricts the schedules to those whose every step meets a side condition `C` on the state before it;
`Reachable` is the unrestricted case.
-/

namespace Runloom.Transition

-- A step changes a table of the state at one place.
export Function (update update_self update_of_ne update_eq_self update_apply)

/-- A step function is `none` where an action is not enabled. -/
structure System (σ : Type*) (α : Type*) where
  init : σ → Prop
  step : σ → α → Option σ

namespace System

variable {σ α : Type*} (M : System σ α)

/-- The states reached from an initial state by steps that each meet `C`. -/
inductive ReachableWith (C : σ → α → Prop) : σ → Prop where
  | init {s : σ} (h : M.init s) : ReachableWith C s
  | step {s t : σ} {a : α} (hs : ReachableWith C s) (hC : C s a) (ha : M.step s a = some t) : ReachableWith C t

abbrev Reachable : σ → Prop := M.ReachableWith fun _ _ => True

variable {M} {C : σ → α → Prop} {P : σ → Prop} {s t : σ}

/-- The invariant rule, for the steps that meet `C`. -/
theorem ReachableWith.invariant (hinit : ∀ s, M.init s → P s)
    (hstep : ∀ s a t, P s → C s a → M.step s a = some t → P t)
    (h : M.ReachableWith C s) : P s := by
  induction h with
  | init h => exact hinit _ h
  | step _ hC ha ih => exact hstep _ _ _ ih hC ha

theorem ReachableWith.mono {D : σ → α → Prop} (hCD : ∀ s a, C s a → D s a)
    (h : M.ReachableWith C s) : M.ReachableWith D s := by
  induction h with
  | init h => exact .init h
  | step _ hC ha ih => exact .step ih (hCD _ _ hC) ha

theorem ReachableWith.reachable (h : M.ReachableWith C s) : M.Reachable s :=
  h.mono fun _ _ _ => trivial

/-- The simulation rule: a step that meets `C` is matched by a step that meets `D`, or by none. -/
theorem ReachableWith.simulate {τ β : Type*} {N : System τ β} {D : τ → β → Prop} {R : σ → τ → Prop}
    (hinit : ∀ s, M.init s → ∃ t, N.init t ∧ R s t)
    (hstep : ∀ s a s' t, R s t → C s a → M.step s a = some s' →
      R s' t ∨ ∃ b t', D t b ∧ N.step t b = some t' ∧ R s' t')
    (h : M.ReachableWith C s) : ∃ t, N.ReachableWith D t ∧ R s t := by
  induction h with
  | init h =>
    obtain ⟨t, ht, hR⟩ := hinit _ h
    exact ⟨t, .init ht, hR⟩
  | step _ hC ha ih =>
    obtain ⟨t, ht, hR⟩ := ih
    rcases hstep _ _ _ t hR hC ha with hR' | ⟨b, t', hD, hb, hR'⟩
    · exact ⟨t, ht, hR'⟩
    · exact ⟨t', .step ht hD hb, hR'⟩

variable (M) in
/-- Replay a schedule; `none` as soon as a step is not enabled. -/
def run : σ → List α → Option σ
  | s, [] => some s
  | s, a :: as => (M.step s a).bind fun t => run t as

variable {as : List α}

theorem run_cons {a : α} (h : M.step s a = some t) : M.run s (a :: as) = M.run t as := by
  rw [run, h, Option.bind_some]

theorem run_append {bs : List α} (h : M.run s as = some t) : M.run s (as ++ bs) = M.run t bs := by
  induction as generalizing s with
  | nil =>
    cases h
    rfl
  | cons a as ih =>
    simp only [run, Option.bind_eq_some_iff] at h
    rcases h with ⟨u, hu, hrun⟩
    rw [List.cons_append, run_cons hu]
    exact ih hrun

theorem run_invariant (hstep : ∀ s a t, P s → M.step s a = some t → P t)
    (hs : P s) (h : M.run s as = some t) : P t := by
  induction as generalizing s with
  | nil =>
    cases h
    exact hs
  | cons a as ih =>
    simp only [run, Option.bind_eq_some_iff] at h
    rcases h with ⟨u, hu, hrun⟩
    exact ih (hstep _ _ _ hs hu) hrun

theorem run_invariant_of_forall {Q : α → Prop}
    (hstep : ∀ s a t, Q a → P s → M.step s a = some t → P t) (hQ : ∀ a ∈ as, Q a) (hs : P s)
    (h : M.run s as = some t) : P t := by
  induction as generalizing s with
  | nil =>
    cases h
    exact hs
  | cons a as ih =>
    simp only [run, Option.bind_eq_some_iff] at h
    rcases h with ⟨u, hu, hrun⟩
    apply ih (fun b hb => hQ b (List.mem_cons_of_mem a hb)) _ hrun
    exact hstep _ _ _ (hQ a List.mem_cons_self) hs hu

variable (M C) in
/-- Every step of a replayed schedule meets `C`. -/
def Meets : σ → List α → Prop
  | _, [] => True
  | s, a :: as => C s a ∧ ∀ t ∈ M.step s a, Meets t as

variable (M C) in
/-- Replay a schedule, with a test of `C` before each step. -/
def replay [∀ s a, Decidable (C s a)] : σ → List α → Option σ
  | s, [] => some s
  | s, a :: as => if C s a then (M.step s a).bind fun t => replay t as else none

theorem run_of_replay [∀ s a, Decidable (C s a)] (h : M.replay C s as = some t) :
    M.run s as = some t ∧ M.Meets C s as := by
  induction as generalizing s with
  | nil => exact ⟨h, trivial⟩
  | cons a as ih =>
    simp only [replay, Option.ite_none_right_eq_some, Option.bind_eq_some_iff] at h
    obtain ⟨hC, u, hu, hr⟩ := h
    obtain ⟨hrun, hmeets⟩ := ih hr
    refine ⟨(run_cons hu).trans hrun, hC, fun v hv => ?_⟩
    obtain rfl := Option.some.inj (hu.symm.trans hv)
    exact hmeets

theorem meets_of_replay [∀ s a, Decidable (C s a)] (h : (M.replay C s as).isSome = true) : M.Meets C s as :=
  (run_of_replay (Option.some_get h).symm).2

theorem ReachableWith.run (hs : M.ReachableWith C s) (hC : M.Meets C s as)
    (hr : M.run s as = some t) : M.ReachableWith C t := by
  induction as generalizing s with
  | nil =>
    simp only [System.run, Option.some.injEq] at hr
    exact hr ▸ hs
  | cons a as ih =>
    simp only [System.run, Option.bind_eq_some_iff] at hr
    obtain ⟨u, hu, hr⟩ := hr
    exact ih (.step hs hC.1 hu) (hC.2 u hu) hr

/-- What every step that meets `C` keeps, every schedule of such steps keeps. -/
theorem Meets.invariant (hstep : ∀ s a t, P s → C s a → M.step s a = some t → P t)
    (hs : P s) (hC : M.Meets C s as) (h : M.run s as = some t) : P t := by
  induction as generalizing s with
  | nil =>
    cases h
    exact hs
  | cons a as ih =>
    simp only [System.run, Option.bind_eq_some_iff] at h
    obtain ⟨u, hu, hr⟩ := h
    exact ih (hstep _ _ _ hs hC.1 hu) (hC.2 u hu) hr

theorem Meets.of_append {bs : List α} (h : M.Meets C s (as ++ bs)) : M.Meets C s as := by
  induction as generalizing s with
  | nil => trivial
  | cons a as ih => exact ⟨h.1, fun t ht => ih (h.2 t ht)⟩

theorem Meets.snoc {a : α} (h : M.Meets C s (as ++ [a])) (hr : M.run s as = some t) : C t a := by
  induction as generalizing s with
  | nil =>
    cases hr
    exact h.1
  | cons b as ih =>
    simp only [System.run, Option.bind_eq_some_iff] at hr
    obtain ⟨u, hu, hr⟩ := hr
    exact ih (h.2 u hu) hr

theorem meets_of_forall_prefix
    (h : ∀ bs a t, bs ++ [a] <+: as → M.run s bs = some t → C t a) : M.Meets C s as := by
  induction as generalizing s with
  | nil => trivial
  | cons a as ih =>
    refine ⟨h [] a s (List.prefix_append [a] as) rfl, fun t ht => ih fun bs b u hbs hu => ?_⟩
    refine h (a :: bs) b u (List.cons_prefix_cons.mpr ⟨rfl, hbs⟩) ?_
    rw [run_cons ht]
    exact hu

theorem meets_true (as : List α) : M.Meets (fun _ _ => True) s as := by
  induction as generalizing s with
  | nil => trivial
  | cons a as ih => exact ⟨trivial, fun t _ => ih⟩

theorem exists_reachableWith_of_replay [∀ s a, Decidable (C s a)] {p : σ → Bool} (as : List α) (hs : M.init s)
    (h : (M.replay C s as).any p = true) : ∃ t, M.run s as = some t ∧ M.ReachableWith C t ∧ p t = true := by
  cases hr : M.replay C s as with
  | none => simp [hr] at h
  | some t =>
    obtain ⟨hrun, hmeets⟩ := run_of_replay hr
    exact ⟨t, hrun, (ReachableWith.init hs).run hmeets hrun, by simpa [hr] using h⟩

theorem exists_reachable_of_run {p : σ → Bool} (as : List α) (hs : M.init s) (h : (M.run s as).any p = true) :
    ∃ t, M.run s as = some t ∧ M.Reachable t ∧ p t = true := by
  cases hr : M.run s as with
  | none => simp [hr] at h
  | some t => exact ⟨t, rfl, (ReachableWith.init hs).run (meets_true as) hr, by simpa [hr] using h⟩

/-- A schedule that exhibits a reachable state with a decidable property. -/
theorem reaches (M : System σ α) {s : σ} (p : σ → Prop) [DecidablePred p] (as : List α) (hs : M.init s)
    (h : (M.run s as).any (fun t => p t) = true) : ∃ t, M.Reachable t ∧ p t := by
  obtain ⟨t, -, ht, hp⟩ := exists_reachable_of_run as hs h
  exact ⟨t, ht, of_decide_eq_true hp⟩

theorem reachesWith (M : System σ α) {s : σ} (C : σ → α → Prop) [∀ s a, Decidable (C s a)] (p : σ → Prop)
    [DecidablePred p] (as : List α) (hs : M.init s) (h : (M.replay C s as).any (fun t => p t) = true) :
    ∃ t, M.ReachableWith C t ∧ p t := by
  obtain ⟨t, -, ht, hp⟩ := exists_reachableWith_of_replay as hs h
  exact ⟨t, ht, of_decide_eq_true hp⟩

end System

end Runloom.Transition
