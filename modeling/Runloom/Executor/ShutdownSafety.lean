import Runloom.Executor.Shutdown

/-!
# A shutdown waits for the tasks that were started

The set of futures holds a submission from the section of `submit` to that of `_task_done`.  A submission whose task
could not be started stays between the two for ever: nothing takes its future out, the event is never set again, and a
`shutdown` that waits does not return.
-/

namespace Runloom.Executor

open Transition

variable {C T : Type*} [DecidableEq C] {s s' : State C} {p q : Pool C T} {c : C} {maxWorkers : ℕ}
  {initializer : Bool}

/-! ## Where a submission is -/

inductive Phase where
  /-- The section of `submit` has not accepted it. -/
  | outside
  /-- Between the section of `submit` and that of `_task_done`. -/
  | inside
  | over

def Pc.phase : Pc → Phase
  | .idle | .subShutdown | .subBroken | .subGuard | .refused _ => .outside
  | .ended _ => .over
  | _ => .inside

def State.nextPhase (s : State C) (c : C) : Phase :=
  match s.pc c with
  | .subGuard => if s.refusal = none then .inside else .outside
  | .taskDone _ => .over
  | pc => pc.phase

theorem run_phase (h : s.run c = some s') : ∃ pc, s'.pc = update s.pc c pc ∧ pc.phase = s.nextPhase c := by
  unfold State.run at h
  unfold State.nextPhase
  cases hpc : s.pc c <;> rw [hpc] at h <;> dsimp only at h ⊢
  all_goals try (cases h; done)
  case subShutdown =>
    cases h
    exact ⟨_, rfl, by cases s.shutdown <;> rfl⟩
  case subBroken =>
    cases h
    exact ⟨_, rfl, by cases s.broken <;> rfl⟩
  case subGuard =>
    cases hr : s.refusal with
    | none | some r =>
      rw [hr] at h
      cases h
      exact ⟨_, rfl, rfl⟩
  case acquire =>
    split at h <;> cases h
    exact ⟨_, rfl, rfl⟩
  case start =>
    cases h
    exact ⟨_, rfl, by cases s.cancelled c <;> rfl⟩
  case isDone =>
    cases h
    exact ⟨_, rfl, by cases s.initDone <;> rfl⟩
  case isBroken =>
    cases h
    exact ⟨_, rfl, by cases s.broken <;> rfl⟩
  case elect =>
    split at h
    · cases h
      exact ⟨_, rfl, rfl⟩
    · split at h
      · cases h
        exact ⟨_, rfl, rfl⟩
      · split at h <;> cases h
        · exact ⟨_, rfl, rfl⟩
        · exact ⟨_, rfl, rfl⟩
  case await =>
    split at h <;> cases h
    exact ⟨_, rfl, rfl⟩
  case setDone ok =>
    cases h
    exact ⟨_, rfl, by cases ok <;> rfl⟩
  all_goals
    cases h
    exact ⟨_, rfl, rfl⟩

theorem next_phase (h : p.next initializer c = some s') :
    ∃ pc, s'.pc = update p.core.pc c pc ∧ pc.phase = p.core.nextPhase c := by
  unfold Pool.next at h
  split at h
  next hskip =>
    cases h
    exact ⟨.fnCall, rfl, by rw [State.nextPhase, hskip.2]; rfl⟩
  next => exact run_phase h

theorem step_phase {a : Action C} (ha : ∀ c, a ≠ .run c) (h : step s a = some s') (d : C) :
    (s'.pc d).phase = (s.pc d).phase := by
  have hgoto : ∀ c pc, pc.phase = (s.pc c).phase → (update s.pc c pc d).phase = (s.pc d).phase := by
    intro c pc hpc
    rw [update_apply]
    split
    next hd => rw [hpc, hd]
    next => rfl
  cases a with
  | submit c | fnEnds c ok =>
    simp only [step] at h
    split at h <;> cases h
    next hpc => exact hgoto c _ (by rw [hpc]; rfl)
  | run c => exact absurd rfl (ha c)
  | initEnds c ok =>
    simp only [step] at h
    split at h
    next hpc =>
      cases ok <;> cases h <;> exact hgoto c _ (by rw [hpc]; rfl)
    next => cases h
  | cancel c =>
    simp only [step] at h
    split at h <;> cases h
    · rfl
    · rfl
  | shutdown =>
    cases h
    rfl

/-! ## The books -/

/-- The set holds the submissions that are inside, and the event says whether there are any. -/
structure Books (p : Pool C T) : Prop where
  pending : ∀ c, c ∈ p.pending ↔ (p.core.pc c).phase = .inside
  idle : p.idle = true ↔ p.pending = ∅
  unstarted : ∀ c, p.start c = .unstarted ↔ (p.core.pc c).phase = .outside
  stuck : ∀ c, p.start c = .spawning ∨ p.start c = .failed → (p.core.pc c).phase = .inside

omit [DecidableEq C] in
theorem Books.init (h : p.Init maxWorkers) : Books p where
  pending c := by simp [h.pending, h.core.pc c, Pc.phase]
  idle := by simp [h.pending, h.idle]
  unstarted c := by simp [h.start c, h.core.pc c, Pc.phase]
  stuck c hc := by simp [h.start c] at hc

section

variable (hB : Books p)
include hB

omit [DecidableEq C] in
theorem Books.move (hpending : q.pending = p.pending) (hidle : q.idle = p.idle)
    (hstart : q.start = p.start) (hphase : ∀ c, (q.core.pc c).phase = (p.core.pc c).phase) : Books q where
  pending c := by rw [hpending, hphase, hB.pending]
  idle := by rw [hidle, hpending, hB.idle]
  unstarted c := by rw [hstart, hphase, hB.unstarted]
  stuck c hc := by
    rw [hstart] at hc
    rw [hphase]
    exact hB.stuck c hc

theorem Books.started (hc : p.start c = .spawning) {st : Start} (hst : st ≠ .unstarted) :
    Books { p with start := update p.start c st } where
  pending := hB.pending
  idle := hB.idle
  unstarted d := by
    by_cases hd : d = c
    · subst hd
      have hin := hB.stuck d (.inl hc)
      simp [hst, hin]
    · simp only [update_of_ne hd]
      exact hB.unstarted d
  stuck d hd' := by
    by_cases hd : d = c
    · subst hd
      exact hB.stuck d (.inl hc)
    · simp only [update_of_ne hd] at hd'
      exact hB.stuck d hd'

theorem Books.accept {core : State C} {pc : Pc} (hpc : core.pc = update p.core.pc c pc)
    (hphase : pc.phase = .inside) :
    Books { p with
      core := core, pending := insert c p.pending, idle := false, start := update p.start c .spawning } where
  pending d := by
    rw [hpc, Finset.mem_insert, hB.pending]
    by_cases hd : d = c
    · subst hd
      simp [hphase]
    · simp [hd]
  idle := by simp
  unstarted d := by
    rw [hpc]
    by_cases hd : d = c
    · subst hd
      simp [hphase]
    · simp only [update_of_ne hd]
      exact hB.unstarted d
  stuck d hd' := by
    rw [hpc]
    by_cases hd : d = c
    · subst hd
      simp [hphase]
    · simp only [update_of_ne hd] at hd' ⊢
      exact hB.stuck d hd'

theorem Books.taskDone {core : State C} {pc : Pc} (hpc : core.pc = update p.core.pc c pc)
    (hphase : pc.phase = .over) (hin : (p.core.pc c).phase = .inside)
    (hst : p.start c ≠ .spawning ∧ p.start c ≠ .failed) :
    Books { p with
      core := core, pending := p.pending.erase c, idle := p.idle || decide (p.pending.erase c = ∅) } where
  pending d := by
    rw [hpc, Finset.mem_erase, hB.pending]
    by_cases hd : d = c
    · subst hd
      simp [hphase]
    · simp [hd]
  idle := by
    -- the set was not empty, so the event was not set
    have hmem := (hB.pending c).mpr hin
    have hidle : p.idle = false := by
      by_contra hne
      rw [(hB.idle.mp (by simpa using hne))] at hmem
      exact absurd hmem (Finset.notMem_empty c)
    simp [hidle]
  unstarted d := by
    rw [hpc]
    by_cases hd : d = c
    · subst hd
      have hne : p.start d ≠ .unstarted := fun h => by
        rw [(hB.unstarted d).mp h] at hin
        cases hin
      simp [hphase, hne]
    · simp only [update_of_ne hd]
      exact hB.unstarted d
  stuck d hd' := by
    rw [hpc]
    by_cases hd : d = c
    · subst hd
      exact absurd hd' (not_or.mpr hst)
    · simp only [update_of_ne hd]
      exact hB.stuck d hd'

theorem Books.run (h : p.run initializer c = some q) : Books q := by
  have hst : p.start c ≠ .spawning ∧ p.start c ≠ .failed := by
    constructor <;> intro hc <;> rw [Pool.run, hc] at h <;> cases h
  unfold Pool.run at h
  split at h
  · cases h
  · cases h
  · split at h
    next => cases h
    next core hcore =>
      obtain ⟨pc, hpc, hphase⟩ := next_phase hcore
      have hothers : ∀ d, pc.phase = (p.core.pc c).phase → (core.pc d).phase = (p.core.pc d).phase := by
        intro d hsame
        rw [hpc, update_apply]
        split
        next hd => rw [hsame, hd]
        next => rfl
      simp only [State.nextPhase] at hphase
      split at h
      next hguard =>
        rw [hguard] at hphase
        split at h <;> cases h
        next hr => exact hB.accept hpc (hphase.trans (if_pos hr))
        next hr =>
          refine hB.move rfl rfl rfl fun d => hothers d ?_
          rw [hphase.trans (if_neg hr), hguard]
          rfl
      next o hdone =>
        rw [hdone] at hphase
        cases h
        exact hB.taskDone hpc hphase (by rw [hdone]; rfl) hst
      next hguard hdone =>
        cases h
        refine hB.move rfl rfl rfl fun d => hothers d ?_
        split at hphase
        next hg => exact absurd hg hguard
        next o hd => exact absurd hd (hdone o)
        next => exact hphase

theorem Books.lift {a : Action C} (ha : ∀ c, a ≠ .run c) (h : p.lift a = some q) : Books q := by
  obtain ⟨core, hcore, rfl⟩ := Option.map_eq_some_iff.mp h
  exact hB.move rfl rfl rfl (step_phase ha hcore)

theorem Books.cancelFuture (c : C) : Books (p.cancelFuture c) := by
  unfold Pool.cancelFuture
  split
  next => exact hB
  next core hcore => exact hB.move rfl rfl rfl (step_phase (a := .cancel c) nofun hcore)

theorem Books.step [DecidableEq T] {a : PoolAction C T} (h : p.step initializer a = some q) : Books q := by
  cases a with
  | submit c => exact hB.lift (a := .submit c) nofun h
  | run c => exact hB.run h
  | initEnds c ok => exact hB.lift (a := .initEnds c ok) nofun h
  | fnEnds c ok => exact hB.lift (a := .fnEnds c ok) nofun h
  | cancel c => exact hB.lift (a := .cancel c) nofun h
  | spawn c ok =>
    simp only [Pool.step] at h
    split at h <;> cases h
    next hc => exact hB.started hc (by cases ok <;> decide)
  | inline c =>
    simp only [Pool.step] at h
    split at h <;> cases h
    next hc => exact hB.started hc (by decide)
  | shutdown t wait cancelFutures =>
    simp only [Pool.step] at h
    split at h <;> cases h
    · exact hB.move rfl rfl rfl fun _ => rfl
    · exact hB.move rfl rfl rfl fun _ => rfl
  | cancelNext t c =>
    simp only [Pool.step] at h
    split at h
    · split at h <;> cases h
      exact (hB.cancelFuture c).move rfl rfl rfl fun _ => rfl
    · cases h
  | cancelled t | waited t =>
    simp only [Pool.step] at h
    split at h
    · split at h <;> cases h
      exact hB.move rfl rfl rfl fun _ => rfl
    · cases h

end

variable [DecidableEq T]

theorem books_of_reachable (h : (pool C T maxWorkers initializer).Reachable p) : Books p :=
  h.invariant (P := Books) (fun p (hp : 0 < maxWorkers ∧ p.Init maxWorkers) => .init hp.2) fun _ _ _ hB _ ha => hB.step ha

/-! ## The shutdown -/

namespace Pool

def Started (p : Pool C T) (c : C) : Prop := p.start c = .fiber ∨ p.start c = .inline

/-- The task has gone through `_task_done`. -/
def Finished (p : Pool C T) (c : C) : Prop := (p.core.pc c).phase = .over

/-- A call of `submit` is in progress. -/
def Submitting (p : Pool C T) (c : C) : Prop :=
  p.core.pc c = .subShutdown ∨ p.core.pc c = .subBroken ∨ p.core.pc c = .subGuard ∨ p.start c = .spawning ∨
    p.start c = .inline ∧ ¬ p.Finished c

/-- What the pool promises while no call of `submit` is in progress. -/
structure Sound (initializer : Bool) (p : Pool C T) : Prop where
  idle : p.idle = true ↔ p.pending = ∅
  pending (c : C) : c ∈ p.pending ↔ p.Started c ∧ ¬ p.Finished c
  shutdown (hall : ∀ c, p.Started c → p.Finished c) (t : T) (ht : p.shut t = .waiting) :
    ∃ q, p.step initializer (.waited t) = some q ∧ q.shut t = .returned

end Pool

omit [DecidableEq C] [DecidableEq T] in
theorem Books.pending_iff (hB : Books p) (hc : ¬ p.Submitting c) (hok : p.start c ≠ .failed) :
    c ∈ p.pending ↔ p.Started c ∧ ¬ p.Finished c := by
  rw [hB.pending]
  have hspawn : p.start c ≠ .spawning := fun h => hc (.inr (.inr (.inr (.inl h))))
  have hun := hB.unstarted c
  unfold Pool.Started Pool.Finished
  cases hst : p.start c with
  | unstarted => simp [hun.mp hst]
  | spawning => exact absurd hst hspawn
  | failed => exact absurd hst hok
  | fiber | inline => cases hph : (p.core.pc c).phase <;> simp_all

theorem waited_of_idle {t : T} (ht : p.shut t = .waiting) (hidle : p.idle = true) :
    ∃ q, p.step initializer (.waited t) = some q ∧ q.shut t = .returned := by
  refine ⟨{ p with shut := update p.shut t .returned }, ?_, update_self ..⟩
  simp only [Pool.step, ht, hidle, if_true]

/-- While no `submit` is in progress, the set holds the tasks that run, and a shutdown can return, iff no start of a
task has raised. -/
theorem shutdown_sound_iff (h : (pool C T maxWorkers initializer).Reachable p) (hq : ∀ c, ¬ p.Submitting c) :
    p.Sound initializer ↔ ∀ c, p.start c ≠ .failed := by
  have hB := books_of_reachable h
  constructor
  · intro hS c hc
    -- the future of a task that could not be started is in the set
    have hmem := (hB.pending c).mpr (hB.stuck c (.inr hc))
    rcases ((hS.pending c).mp hmem).1 with hst | hst <;> rw [hc] at hst <;> cases hst
  · intro hok
    have hpending : ∀ c, c ∈ p.pending ↔ p.Started c ∧ ¬ p.Finished c := fun c => hB.pending_iff (hq c) (hok c)
    refine ⟨hB.idle, hpending, fun hall t ht => waited_of_idle ht (hB.idle.mpr ?_)⟩
    refine Finset.eq_empty_of_forall_notMem fun c hc => ?_
    obtain ⟨hst, hfin⟩ := (hpending c).mp hc
    exact hfin (hall c hst)

def emptyPool : Pool Bool Unit :=
  ⟨⟨false, false, false, false, 1, fun _ => .idle, fun _ => false, 0, false, false, fun _ => false⟩, ∅, true,
    fun _ => .unstarted, fun _ => .idle⟩

theorem emptyPool_init : emptyPool.Init 1 :=
  ⟨⟨rfl, rfl, rfl, rfl, rfl, fun _ => rfl, fun _ => rfl, rfl, rfl, rfl, fun _ => rfl⟩, rfl, rfl, fun _ => rfl,
    fun _ => rfl⟩

/-- A submission whose task is started, and a shutdown that waits for it. -/
theorem shutdown_sound_iff_oneTask :
    ∃ p : Pool Bool Unit, (pool Bool Unit 1 false).Reachable p ∧ p.shut () = .waiting ∧ p.Sound false := by
  obtain ⟨p, hr, hpc, hstart, hwait⟩ := (pool Bool Unit 1 false).reaches
    (fun p => (∀ c, p.core.pc c = .acquire ∨ p.core.pc c = .idle) ∧
      (∀ c, p.start c = .fiber ∨ p.start c = .unstarted) ∧ p.shut () = .waiting)
    [.submit true, .run true, .run true, .run true, .spawn true true, .shutdown () true false, .cancelled ()]
    (s := emptyPool) ⟨by decide, emptyPool_init⟩ (by decide +kernel)
  refine ⟨p, hr, hwait, (shutdown_sound_iff hr fun c hc => ?_).mpr fun c hc => ?_⟩
  · rcases hpc c with h | h <;> rcases hstart c with h' | h' <;> simp [Pool.Submitting, h, h'] at hc
  · rcases hstart c with h' | h' <;> rw [hc] at h' <;> cases h'

/-- The start of the first task raises; a shutdown that waits does not return. -/
theorem shutdown_hangs_after_failed_spawn :
    ∃ p : Pool Bool Unit, (pool Bool Unit 1 false).Reachable p ∧ (∀ c, ¬ p.Submitting c) ∧
      (∀ c, p.Started c → p.Finished c) ∧ p.pending = {false} ∧ p.idle = false ∧ p.shut () = .waiting ∧
      (p.step false (.waited ())).isNone = true ∧ ¬ p.Sound false := by
  obtain ⟨p, hr, ⟨hpc, hpc'⟩, ⟨hst, hst'⟩, hpending, hidle, hwait⟩ := (pool Bool Unit 1 false).reaches
    (fun p => (p.core.pc false = .acquire ∧ p.core.pc true = .ended .result) ∧
      (p.start false = .failed ∧ p.start true = .fiber) ∧ p.pending = {false} ∧ p.idle = false ∧
      p.shut () = .waiting)
    [.submit false, .run false, .run false, .run false, .spawn false false,
      .submit true, .run true, .run true, .run true, .spawn true true, .run true, .run true, .run true, .run true,
      .fnEnds true true, .run true, .run true, .run true, .shutdown () true true, .cancelNext () false,
      .cancelled ()]
    (s := emptyPool) ⟨by decide, emptyPool_init⟩ (by decide +kernel)
  have hq : ∀ c, ¬ p.Submitting c := by
    intro c
    cases c <;> simp [Pool.Submitting, hpc, hpc', hst, hst']
  have hfin : ∀ c, p.Started c → p.Finished c := by
    intro c
    cases c <;> simp [Pool.Started, Pool.Finished, Pc.phase, hpc', hst, hst']
  refine ⟨p, hr, hq, hfin, hpending, hidle, hwait, ?_, fun hS => ?_⟩
  · simp [Pool.step, hwait, hidle]
  · obtain ⟨q, hw, -⟩ := hS.shutdown hfin () hwait
    simp [Pool.step, hwait, hidle] at hw

end Runloom.Executor
