import Mathlib.Data.Fintype.BigOperators
import Runloom.Transition.System
import Runloom.Transition.Update

/-!
# Shutting the block pool down

Model of the workers of `runloom_blockpool.c`, of the enqueue of `runloom_blocking_call` and of
`runloom_blockpool_fini`.

A worker's test and its wait are two steps, the wait releases the lock and starts waiting at once, and a waiting
worker may wake spuriously.
-/

namespace Runloom.BlockPool

open Transition

/-- The pool that `runloom_blockpool_init` leaves: at least one worker for every shard. -/
structure Config where
  nshard : ℕ
  nworkers : ℕ
  nshard_pos : 0 < nshard
  nshard_le : nshard ≤ nworkers

variable {cfg : Config}

/-- `bp_worker_shard`: workers are dealt round-robin to the shards. -/
def workerShard (w : Fin cfg.nworkers) : Fin cfg.nshard := ⟨w % cfg.nshard, Nat.mod_lt _ cfg.nshard_pos⟩

/-- `runloom_blockpool_worker`. -/
inductive WorkerPc where
  | lock
  | test
  /-- The queue is empty and `bp_stopping` clear; the lock is still held. -/
  | wait
  | waiting
  | run (job : ℕ)
  | exited
deriving DecidableEq

/-- `runloom_blockpool_fini`: the store, the broadcasts in shard order, the joins in worker
order. -/
inductive FiniPc where
  | running
  | broadcast (i : ℕ)
  | join (i : ℕ)
  | joined
deriving DecidableEq

/-- Jobs are numbered in the order of their enqueue; `before` of them were enqueued before `bp_stopping` was set. -/
structure State (cfg : Config) where
  queue : Fin cfg.nshard → List ℕ
  locked : Fin cfg.nshard → Option (Fin cfg.nworkers)
  stopping : Bool
  worker : Fin cfg.nworkers → WorkerPc
  fini : FiniPc
  submitted : ℕ
  before : ℕ
  runs : ℕ → ℕ

inductive Action (cfg : Config) where
  /-- The locked section of `runloom_blocking_call`; `woken` is the worker that its
  `cond_signal` wakes. -/
  | enqueue (sh : Fin cfg.nshard) (woken : Option (Fin cfg.nworkers))
  | worker (w : Fin cfg.nworkers)
  | spurious (w : Fin cfg.nworkers)
  | fini

namespace State

def setWorker (s : State cfg) (w : Fin cfg.nworkers) (pc : WorkerPc) : State cfg :=
  { s with worker := update s.worker w pc }

/-- `runloom_cond_broadcast`: every worker waiting on the shard wakes. -/
def broadcast (s : State cfg) (sh : Fin cfg.nshard) : State cfg :=
  { s with
    worker := fun w =>
      if workerShard w = sh ∧ s.worker w = .waiting then .lock else s.worker w }

def push (s : State cfg) (sh : Fin cfg.nshard) : State cfg :=
  { s with
    queue := update s.queue sh (s.queue sh ++ [s.submitted])
    submitted := s.submitted + 1
    before := if s.stopping then s.before else s.submitted + 1 }

end State

open State

def enqueue (s : State cfg) (sh : Fin cfg.nshard) (woken : Option (Fin cfg.nworkers)) : Option (State cfg) :=
  if s.locked sh ≠ none then none
  else
    match woken with
    | some w =>
      if workerShard w = sh ∧ s.worker w = .waiting then some ((s.push sh).setWorker w .lock)
      else none
    | none =>
      if ∃ w, workerShard w = sh ∧ s.worker w = .waiting then none else some (s.push sh)

def workerStep (s : State cfg) (w : Fin cfg.nworkers) : Option (State cfg) :=
  let sh := workerShard w
  match s.worker w with
  | .lock =>
    if s.locked sh = none then
      some ({ s with locked := update s.locked sh (some w) }.setWorker w .test)
    else none
  | .test =>
    match s.queue sh with
    | [] =>
      -- Only a worker that finds nothing to do looks at the flag.
      if s.stopping then
        some ({ s with locked := update s.locked sh none }.setWorker w .exited)
      else some (s.setWorker w .wait)
    | job :: rest =>
      some ({ s with
        queue := update s.queue sh rest
        locked := update s.locked sh none }.setWorker w (.run job))
  | .wait => some ({ s with locked := update s.locked sh none }.setWorker w .waiting)
  | .waiting => none
  | .run job =>
    some ({ s with runs := update s.runs job (s.runs job + 1) }.setWorker w .lock)
  | .exited => none

/-- The next step of `runloom_blockpool_fini`. -/
def finiStep (s : State cfg) : Option (State cfg) :=
  match s.fini with
  | .running => some { s with stopping := true, fini := .broadcast 0 }
  -- No shard lock is taken here, so a worker can be between its test and its wait.
  | .broadcast i =>
    if hi : i < cfg.nshard then some { s.broadcast ⟨i, hi⟩ with fini := .broadcast (i + 1) }
    else some { s with fini := .join 0 }
  | .join i =>
    if hi : i < cfg.nworkers then
      if s.worker ⟨i, hi⟩ = .exited then some { s with fini := .join (i + 1) } else none
    else some { s with fini := .joined }
  | .joined => none

def step (s : State cfg) : Action cfg → Option (State cfg)
  | .enqueue sh woken => enqueue s sh woken
  | .worker w => workerStep s w
  | .spurious w =>
    match s.worker w with
    | .waiting => some (s.setWorker w .lock)
    | _ => none
  | .fini => finiStep s

/-- The pool as `runloom_blockpool_init` starts it. -/
structure Init (s : State cfg) : Prop where
  queue : ∀ sh, s.queue sh = []
  locked : ∀ sh, s.locked sh = none
  stopping : s.stopping = false
  worker : ∀ w, s.worker w = .lock
  fini : s.fini = .running
  submitted : s.submitted = 0
  before : s.before = 0
  runs : ∀ j, s.runs j = 0

variable (cfg) in
def blockPool : System (State cfg) (Action cfg) where
  init := Init
  step := step

/-- A broadcast does not land between the test of one of the shard's workers and its wait. -/
def NoneAboutToWait (s : State cfg) : Action cfg → Prop
  | .fini =>
    match s.fini with
    | .broadcast i => ∀ w, (workerShard w : ℕ) = i → s.worker w ≠ .wait
    | _ => True
  | _ => True

instance (s : State cfg) (a : Action cfg) : Decidable (NoneAboutToWait s a) := by
  unfold NoneAboutToWait
  split
  · split <;> infer_instance
  · infer_instance

end Runloom.BlockPool

/-!
## When the shutdown reaches every worker

A broadcast wakes the workers that wait at that moment.  One that has tested and not yet started
to wait is missed, so the shutdown is complete exactly as long as no broadcast lands in that
window; the jobs enqueued before the stop are run in any case, since a worker leaves only when its
queue is empty.
-/

namespace Runloom.BlockPool

open Transition State List

variable {cfg : Config} {s t : State cfg}

/-- Whether a worker is running `job`. -/
def WorkerPc.running (job : ℕ) : WorkerPc → ℤ
  | .run j => if j = job then 1 else 0
  | _ => 0

theorem WorkerPc.running_run (j job : ℕ) : (WorkerPc.run j).running job = if j = job then 1 else 0 := rfl

theorem WorkerPc.running_test (job : ℕ) : WorkerPc.test.running job = 0 := rfl

theorem WorkerPc.running_lock (job : ℕ) : WorkerPc.lock.running job = 0 := rfl

def whereabouts (s : State cfg) (job : ℕ) : ℤ :=
  ∑ sh, ((s.queue sh).count job : ℤ) + ∑ w, (s.worker w).running job + s.runs job

def WorkerPc.locks : WorkerPc → Bool
  | .test | .wait => true
  | _ => false

structure Inv (s : State cfg) : Prop where
  locked : ∀ sh w, s.locked sh = some w ↔ workerShard w = sh ∧ (s.worker w).locks = true
  stopping : s.stopping = true ↔ s.fini ≠ .running
  before : s.before ≤ s.submitted ∧ (s.stopping = false → s.before = s.submitted)
  exited : ∀ w, s.worker w = .exited → s.stopping = true ∧ ∀ j ∈ s.queue (workerShard w), s.before ≤ j
  jobs : ∀ j, whereabouts s j = if j < s.submitted then 1 else 0

/-! ## Steps of a worker -/

variable {w : Fin cfg.nworkers} {c : WorkerPc}

section

variable (hI : Inv s)
include hI

theorem Inv.move     {locked : Fin cfg.nshard → Option (Fin cfg.nworkers)}
    (hlocked : ∀ sh w', locked sh = some w' ↔ workerShard w' = sh ∧ (update s.worker w c w').locks = true)
    (hrun : ∀ j, c.running j = (s.worker w).running j)
    (hexit : c = .exited → s.stopping = true ∧ ∀ j ∈ s.queue (workerShard w), s.before ≤ j) :
    Inv (State.setWorker { s with locked := locked } w c) := by
  refine ⟨hlocked, hI.stopping, hI.before, fun w' hw' => ?_, fun j => ?_⟩
  · by_cases hw : w' = w
    · subst hw
      exact hexit (by simpa [setWorker] using hw')
    · simp only [setWorker, update_of_ne hw] at hw'
      exact hI.exited w' hw'
  · have hold := hI.jobs j
    unfold whereabouts at hold ⊢
    simp only [setWorker]
    rw [sum_comp_update (Finset.mem_univ w) (WorkerPc.running j), hrun]
    omega

theorem Inv.locked_keep     (hlocks : c.locks = (s.worker w).locks) (sh : Fin cfg.nshard) (w' : Fin cfg.nworkers) :
    s.locked sh = some w' ↔ workerShard w' = sh ∧ (update s.worker w c w').locks = true := by
  rw [hI.locked]
  by_cases hw : w' = w
  · subst hw
    rw [update_self, hlocks]
  · rw [update_of_ne hw]

theorem Inv.locked_acquire
    (hfree : s.locked (workerShard w) = none) (sh : Fin cfg.nshard) (w' : Fin cfg.nworkers) :
    update s.locked (workerShard w) (some w) sh = some w' ↔
      workerShard w' = sh ∧ (update s.worker w .test w').locks = true := by
  by_cases hw : w' = w
  · subst hw
    rw [update_self (β := fun _ => WorkerPc)]
    by_cases hsh : sh = workerShard w'
    · subst hsh
      simp [WorkerPc.locks]
    · rw [update_of_ne hsh, hI.locked]
      simp [Ne.symm hsh]
  · rw [update_of_ne hw (f := s.worker), ← hI.locked]
    by_cases hsh : sh = workerShard w
    · subst hsh
      simp [hfree, Ne.symm hw]
    · rw [update_of_ne hsh]

theorem Inv.locked_release     (hheld : (s.worker w).locks = true) (hc : c.locks = false) (sh : Fin cfg.nshard)
    (w' : Fin cfg.nworkers) :
    update s.locked (workerShard w) none sh = some w' ↔
      workerShard w' = sh ∧ (update s.worker w c w').locks = true := by
  have hmine : s.locked (workerShard w) = some w := (hI.locked _ _).mpr ⟨rfl, hheld⟩
  by_cases hw : w' = w
  · subst hw
    rw [update_self (β := fun _ => WorkerPc), hc]
    by_cases hsh : sh = workerShard w'
    · subst hsh
      simp
    · rw [update_of_ne hsh, hI.locked]
      simp [Ne.symm hsh]
  · rw [update_of_ne hw (f := s.worker), ← hI.locked]
    by_cases hsh : sh = workerShard w
    · subst hsh
      simp [hmine, Ne.symm hw]
    · rw [update_of_ne hsh]

theorem Inv.pop {job : ℕ} {rest : List ℕ}
    (hw : s.worker w = .test) (hqueue : s.queue (workerShard w) = job :: rest) :
    Inv (State.setWorker { s with
      queue := update s.queue (workerShard w) rest
      locked := update s.locked (workerShard w) none } w (.run job)) := by
  refine ⟨?_, hI.stopping, hI.before, fun w' hw' => ?_, fun j => ?_⟩
  · exact hI.locked_release (by rw [hw]; rfl) rfl
  · have hne : w' ≠ w := by
      rintro rfl
      simp [setWorker] at hw'
    simp only [setWorker, update_of_ne hne] at hw'
    obtain ⟨hstop, hlate⟩ := hI.exited w' hw'
    refine ⟨hstop, fun j hj => hlate j ?_⟩
    by_cases hsh : workerShard w' = workerShard w
    · simp only [setWorker, hsh, update_self] at hj
      rw [hsh, hqueue]
      exact mem_cons_of_mem job hj
    · simpa only [setWorker, update_of_ne hsh] using hj
  · have hold := hI.jobs j
    unfold whereabouts at hold ⊢
    simp only [setWorker]
    rw [sum_comp_update (Finset.mem_univ w) (WorkerPc.running j),
      sum_comp_update (Finset.mem_univ (workerShard w)) (fun q : List ℕ => (q.count j : ℤ)),
      hqueue, hw, count_cons, WorkerPc.running_run, WorkerPc.running_test]
    simp only [beq_iff_eq]
    push_cast
    split_ifs at hold ⊢ <;> omega

theorem Inv.finish {job : ℕ} (hw : s.worker w = .run job) : Inv (State.setWorker { s with
      runs := update s.runs job (s.runs job + 1) } w .lock) := by
  refine ⟨fun sh w' => ?_, hI.stopping, hI.before, fun w' hw' => ?_, fun j => ?_⟩
  · exact hI.locked_keep (by rw [hw]; rfl) sh w'
  · have hne : w' ≠ w := by
      rintro rfl
      simp [setWorker] at hw'
    simp only [setWorker, update_of_ne hne] at hw'
    exact hI.exited w' hw'
  · have hold := hI.jobs j
    unfold whereabouts at hold ⊢
    simp only [setWorker]
    rw [sum_comp_update (Finset.mem_univ w) (WorkerPc.running j), hw, WorkerPc.running_run, WorkerPc.running_lock]
    by_cases hj : j = job
    · subst hj
      rw [update_self, if_pos rfl]
      push_cast
      omega
    · rw [update_of_ne hj, if_neg (Ne.symm hj)]
      omega

theorem Inv.workerStep (h : BlockPool.workerStep s w = some t) : Inv t := by
  unfold BlockPool.workerStep at h
  cases hw : s.worker w with
  | lock =>
    simp only [hw] at h
    split_ifs at h with hfree
    cases h
    apply hI.move (hI.locked_acquire hfree)
    · intro j
      rw [hw]
      rfl
    · exact fun hc => by cases hc
  | test =>
    simp only [hw] at h
    cases hqueue : s.queue (workerShard w) with
    | nil =>
      simp only [hqueue] at h
      split_ifs at h with hstop
      · cases h
        apply hI.move (hI.locked_release (by rw [hw]; rfl) rfl)
        · intro j
          rw [hw]
          rfl
        · exact fun _ => ⟨hstop, by simp [hqueue]⟩
      · cases h
        apply hI.move (hI.locked_keep (by rw [hw]; rfl))
        · intro j
          rw [hw]
          rfl
        · exact fun hc => by cases hc
    | cons job rest =>
      simp only [hqueue, Option.some.injEq] at h
      subst h
      exact hI.pop hw hqueue
  | wait =>
    simp only [hw, Option.some.injEq] at h
    subst h
    apply hI.move (hI.locked_release (by rw [hw]; rfl) rfl)
    · intro j
      rw [hw]
      rfl
    · exact fun hc => by cases hc
  | waiting => simp [hw] at h
  | run job =>
    simp only [hw, Option.some.injEq] at h
    subst h
    exact hI.finish hw
  | exited => simp [hw] at h

end

/-! ## Steps of the others -/

theorem Inv.push (hI : Inv s) (sh : Fin cfg.nshard) : Inv (s.push sh) := by
  have hbefore := hI.before
  refine ⟨hI.locked, hI.stopping, ?_, fun w hw => ?_, fun j => ?_⟩
  · simp only [State.push]
    split_ifs with hstop
    · exact ⟨by omega, fun hc => absurd hstop (by simp [hc])⟩
    · exact ⟨le_rfl, fun _ => rfl⟩
  · obtain ⟨hstop, hlate⟩ := hI.exited w hw
    refine ⟨hstop, fun j hj => ?_⟩
    simp only [State.push, hstop, if_true] at hj ⊢
    by_cases hsh : workerShard w = sh
    · simp only [hsh, update_self, mem_append, mem_singleton] at hj
      rcases hj with hj | rfl
      · exact hlate j (by rwa [hsh])
      · exact hbefore.1
    · rw [update_of_ne hsh] at hj
      exact hlate j hj
  · have hold := hI.jobs j
    unfold whereabouts at hold ⊢
    simp only [State.push]
    rw [sum_comp_update (Finset.mem_univ sh) (fun q : List ℕ => (q.count j : ℤ)), count_append, count_singleton]
    simp only [beq_iff_eq]
    push_cast
    split_ifs at hold ⊢ <;> omega

theorem Inv.wake (hI : Inv s) (hw : s.worker w = .waiting) : Inv (s.setWorker w .lock) := by
  have hlocked := hI.locked_keep (w := w) (c := .lock) (by rw [hw]; rfl)
  apply hI.move hlocked
  · intro j
    rw [hw]
    rfl
  · exact fun hc => by cases hc

theorem Inv.enqueue (hI : Inv s) {sh : Fin cfg.nshard} {woken : Option (Fin cfg.nworkers)}
    (h : BlockPool.enqueue s sh woken = some t) : Inv t := by
  unfold BlockPool.enqueue at h
  cases woken with
  | none =>
    split_ifs at h
    cases h
    exact hI.push sh
  | some w =>
    simp only at h
    split_ifs at h with _ hw
    cases h
    exact (hI.push sh).wake hw.2

theorem broadcast_worker (s : State cfg) (sh : Fin cfg.nshard) (w : Fin cfg.nworkers) :
    (s.broadcast sh).worker w = s.worker w ∨ s.worker w = .waiting ∧ (s.broadcast sh).worker w = .lock := by
  simp only [State.broadcast]
  split_ifs with h
  · exact .inr ⟨h.2, rfl⟩
  · exact .inl rfl

theorem Inv.broadcast (hI : Inv s) (sh : Fin cfg.nshard) : Inv (s.broadcast sh) := by
  refine ⟨fun sh' w => ?_, hI.stopping, hI.before, fun w hw => ?_, fun j => ?_⟩
  · show s.locked sh' = some w ↔ _
    rw [hI.locked]
    rcases broadcast_worker s sh w with heq | ⟨hold, hnew⟩
    · rw [heq]
    · rw [hold, hnew]
      rfl
  · rcases broadcast_worker s sh w with heq | ⟨-, hnew⟩
    · exact hI.exited w (by rw [← heq, hw])
    · rw [hnew] at hw
      cases hw
  · apply Eq.trans _ (hI.jobs j)
    unfold whereabouts
    congr 2
    apply Finset.sum_congr rfl
    intro w _
    rcases broadcast_worker s sh w with heq | ⟨hold, hnew⟩
    · rw [heq]
    · rw [hold, hnew]
      rfl

theorem Inv.set_fini (hI : Inv s) {c : FiniPc} (hs : s.fini ≠ .running) (hc : c ≠ .running) :
    Inv { s with fini := c } :=
  ⟨hI.locked, ⟨fun _ => hc, fun _ => hI.stopping.mpr hs⟩, hI.before, hI.exited, hI.jobs⟩

theorem Inv.finiStep (hI : Inv s) (h : BlockPool.finiStep s = some t) : Inv t := by
  unfold BlockPool.finiStep at h
  cases hf : s.fini with
  | running =>
    simp only [hf, Option.some.injEq] at h
    subst h
    exact ⟨hI.locked, by simp, ⟨hI.before.1, by simp⟩, fun w hw => ⟨rfl, (hI.exited w hw).2⟩, hI.jobs⟩
  | broadcast i =>
    simp only [hf] at h
    split_ifs at h with hi <;> cases h
    · exact (hI.broadcast ⟨i, hi⟩).set_fini (by simp [State.broadcast, hf]) (by simp)
    · exact hI.set_fini (by simp [hf]) (by simp)
  | join i =>
    simp only [hf] at h
    split_ifs at h with hi hex <;> cases h
    · exact hI.set_fini (by simp [hf]) (by simp)
    · exact hI.set_fini (by simp [hf]) (by simp)
  | joined => simp [hf] at h

theorem Inv.step (hI : Inv s) {a : Action cfg} (h : BlockPool.step s a = some t) : Inv t := by
  cases a with
  | enqueue sh woken => exact hI.enqueue h
  | worker w => exact hI.workerStep h
  | spurious w =>
    simp only [BlockPool.step] at h
    split at h
    · rename_i hw
      cases h
      exact hI.wake hw
    · cases h
  | fini => exact hI.finiStep h

theorem Inv.init (h : Init s) : Inv s := by
  refine ⟨fun sh w => ?_, ?_, ?_, fun w hw => ?_, fun j => ?_⟩
  · simp [h.locked, h.worker, WorkerPc.locks]
  · simp [h.stopping, h.fini]
  · simp [h.before, h.submitted]
  · simp [h.worker] at hw
  · simp [whereabouts, h.queue, h.worker, h.runs, h.submitted, WorkerPc.running]

/-! ## Past the broadcast -/

/-- `fini` has broadcast on shard `i`. -/
def FiniPc.passed : FiniPc → ℕ → Prop
  | .running, _ => False
  | .broadcast k, i => i < k
  | .join _, _ | .joined, _ => True

def Released (s : State cfg) : Prop :=
  ∀ w, s.fini.passed (workerShard w) → s.worker w ≠ .wait ∧ s.worker w ≠ .waiting

theorem not_passed_of_not_stopping (hI : Inv s) (h : s.stopping = false) (i : ℕ) : ¬s.fini.passed i := by
  have hf : s.fini = .running := by
    by_contra hne
    rw [hI.stopping.mpr hne] at h
    cases h
  rw [hf]
  exact fun hp => hp

theorem Released.setWorker (hR : Released s)     (hc : s.fini.passed (workerShard w) → c ≠ .wait ∧ c ≠ .waiting)
    (hfini : t.fini = s.fini) (hworker : t.worker = update s.worker w c) :
    Released t := by
  intro w' hp
  rw [hfini] at hp
  rw [hworker]
  by_cases hw : w' = w
  · subst hw
    rw [update_self]
    exact hc hp
  · rw [update_of_ne hw]
    exact hR w' hp

theorem Released.workerStep (hR : Released s) (hI : Inv s)
    (h : BlockPool.workerStep s w = some t) : Released t := by
  unfold BlockPool.workerStep at h
  cases hw : s.worker w with
  | lock =>
    simp only [hw] at h
    split_ifs at h
    cases h
    exact hR.setWorker (by simp) rfl rfl
  | test =>
    simp only [hw] at h
    split at h
    · split_ifs at h with hstop <;> cases h
      · exact hR.setWorker (by simp) rfl rfl
      · -- the test still saw `bp_stopping` clear, so nothing has been broadcast
        have hnot := not_passed_of_not_stopping hI (by simpa using hstop)
        exact hR.setWorker (fun hp => absurd hp (hnot _)) rfl rfl
    · cases h
      exact hR.setWorker (by simp) rfl rfl
  | wait =>
    simp only [hw, Option.some.injEq] at h
    subst h
    exact hR.setWorker (fun hp => absurd hw (hR w hp).1) rfl rfl
  | waiting => simp [hw] at h
  | run job =>
    simp only [hw, Option.some.injEq] at h
    subst h
    exact hR.setWorker (by simp) rfl rfl
  | exited => simp [hw] at h

theorem Released.finiStep (hR : Released s) (hC : NoneAboutToWait s .fini)
    (h : BlockPool.finiStep s = some t) : Released t := by
  unfold BlockPool.finiStep at h
  cases hf : s.fini with
  | running =>
    simp only [hf, Option.some.injEq] at h
    subst h
    exact fun w hp => absurd hp (Nat.not_lt_zero _)
  | broadcast i =>
    simp only [NoneAboutToWait, hf] at hC
    simp only [hf] at h
    split_ifs at h with hi <;> cases h
    · intro w hp
      have hlt : (workerShard w : ℕ) < i + 1 := hp
      show (s.broadcast ⟨i, hi⟩).worker w ≠ .wait ∧ (s.broadcast ⟨i, hi⟩).worker w ≠ .waiting
      by_cases hwi : (workerShard w : ℕ) = i
      · -- the shard of this broadcast
        have hsh : workerShard w = ⟨i, hi⟩ := Fin.ext hwi
        by_cases hwait : s.worker w = .waiting
        · simp [State.broadcast, hsh, hwait]
        · have heq : (s.broadcast ⟨i, hi⟩).worker w = s.worker w := by
            simp [State.broadcast, hwait]
          rw [heq]
          exact ⟨hC w hwi, hwait⟩
      · have hold := hR w (by rw [hf]; exact Nat.lt_of_le_of_ne (Nat.le_of_lt_succ hlt) hwi)
        rcases broadcast_worker s ⟨i, hi⟩ w with heq | ⟨-, hnew⟩
        · rwa [heq]
        · rw [hnew]
          simp
    · intro w _
      apply hR w
      rw [hf]
      exact lt_of_lt_of_le (workerShard w).isLt (not_lt.mp hi)
  | join i =>
    simp only [hf] at h
    have hall : ∀ w, s.worker w ≠ .wait ∧ s.worker w ≠ .waiting :=
      fun w => hR w (by rw [hf]; trivial)
    split_ifs at h <;> cases h
    · exact fun w _ => hall w
    · exact fun w _ => hall w
  | joined => simp [hf] at h

theorem Released.step (hR : Released s) (hI : Inv s) {a : Action cfg} (hC : NoneAboutToWait s a)
    (h : BlockPool.step s a = some t) : Released t := by
  cases a with
  | enqueue sh woken =>
    simp only [BlockPool.step, BlockPool.enqueue] at h
    cases woken with
    | none =>
      split_ifs at h
      cases h
      exact hR
    | some w =>
      simp only at h
      split_ifs at h
      cases h
      exact hR.setWorker (by simp) rfl rfl
  | worker w => exact hR.workerStep hI h
  | spurious w =>
    simp only [BlockPool.step] at h
    split at h <;> cases h
    exact hR.setWorker (by simp) rfl rfl
  | fini => exact hR.finiStep hC h

/-! ## The shutdown -/

theorem Inv.exists_enabled (hI : Inv s) (hexit : s.worker w ≠ .exited)
    (hwait : s.worker w ≠ .waiting) : ∃ w', (BlockPool.workerStep s w').isSome := by
  have hlocks : ∀ w', (s.worker w').locks = true → (BlockPool.workerStep s w').isSome := by
    intro w' hl
    unfold BlockPool.workerStep
    cases hw : s.worker w' <;> simp [hw, WorkerPc.locks] at hl
    · simp only
      split
      · split <;> rfl
      · rfl
    · rfl
  cases hw : s.worker w with
  | lock =>
    cases hlock : s.locked (workerShard w) with
    | none => exact ⟨w, by simp [BlockPool.workerStep, hw, hlock]⟩
    | some w' => exact ⟨w', hlocks w' ((hI.locked _ _).mp hlock).2⟩
  | test | wait => exact ⟨w, hlocks w (by rw [hw]; rfl)⟩
  | waiting => exact absurd hw hwait
  | run job => exact ⟨w, by simp [BlockPool.workerStep, hw]⟩
  | exited => exact absurd hw hexit

theorem exists_workerShard (sh : Fin cfg.nshard) : ∃ w : Fin cfg.nworkers, workerShard w = sh :=
  ⟨⟨sh, sh.isLt.trans_le cfg.nshard_le⟩, Fin.ext (Nat.mod_eq_of_lt sh.isLt)⟩

theorem Inv.runs_eq_one (hI : Inv s) (hexit : ∀ w, s.worker w = .exited) {j : ℕ}
    (hj : j < s.before) : s.runs j = 1 := by
  have hjobs := hI.jobs j
  have hqueue : ∀ sh, (s.queue sh).count j = 0 := by
    intro sh
    apply count_eq_zero.mpr
    intro hmem
    obtain ⟨w, rfl⟩ := exists_workerShard sh
    exact absurd ((hI.exited w (hexit w)).2 j hmem) (by omega)
  have hlt := hI.before.1
  simp only [whereabouts, hqueue, hexit, WorkerPc.running, Nat.cast_zero, Finset.sum_const_zero,
    zero_add, if_pos (show j < s.submitted by omega)] at hjobs
  omega

theorem passed_of_all_broadcast {c : FiniPc} (h : (∃ i, c = .join i) ∨ c = .joined) (i : ℕ) : c.passed i := by
  rcases h with ⟨k, rfl⟩ | rfl <;> trivial

/-- As long as no broadcast lands between a worker's test and its wait, the workers exit, and every earlier job has
run. -/
theorem blockPool_shutdown (h : (blockPool cfg).ReachableWith NoneAboutToWait s) :
    ((∃ i, s.fini = .join i) ∨ s.fini = .joined →
      (∀ w, s.worker w ≠ .waiting ∧ s.worker w ≠ .wait) ∧
      ((∃ w, s.worker w ≠ .exited) → ∃ w, (BlockPool.workerStep s w).isSome)) ∧
    ((∀ w, s.worker w = .exited) → ∀ j < s.before, s.runs j = 1) := by
  have hinv : Inv s ∧ Released s := by
    apply h.invariant (P := fun s => Inv s ∧ Released s)
    · intro s hs
      refine ⟨.init hs, fun w hp => ?_⟩
      rw [hs.fini] at hp
      exact absurd hp not_false
    · intro s a t hP hC ha
      exact ⟨hP.1.step ha, hP.2.step hP.1 hC ha⟩
  obtain ⟨hI, hR⟩ := hinv
  refine ⟨fun hf => ?_, fun hexit j hj => hI.runs_eq_one hexit hj⟩
  have hall : ∀ w, s.worker w ≠ .wait ∧ s.worker w ≠ .waiting :=
    fun w => hR w (passed_of_all_broadcast hf _)
  refine ⟨fun w => (hall w).symm, ?_⟩
  rintro ⟨w, hw⟩
  exact hI.exists_enabled hw (hall w).2

def oneWorker : Config := ⟨1, 1, Nat.one_pos, Nat.one_pos⟩

def theShard : Fin oneWorker.nshard := ⟨0, by decide⟩

def theWorker : Fin oneWorker.nworkers := ⟨0, by decide⟩

def started : State oneWorker where
  queue := fun _ => []
  locked := fun _ => none
  stopping := false
  worker := fun _ => .lock
  fini := .running
  submitted := 0
  before := 0
  runs := fun _ => 0

theorem started_init : (blockPool oneWorker).init started :=
  ⟨fun _ => rfl, fun _ => rfl, rfl, fun _ => rfl, rfl, rfl, rfl, fun _ => rfl⟩

/-- `fini` runs while the worker is running a job. -/
def stopWhileRunning : List (Action oneWorker) :=
  [.enqueue theShard none, .worker theWorker, .worker theWorker, .fini, .fini, .worker theWorker, .worker theWorker, .worker theWorker, .fini]

theorem blockPool_shutdown_stopWhileRunning :
    ∃ s, (blockPool oneWorker).run started stopWhileRunning = some s ∧ s.fini = .join 0 ∧
      (∀ w, s.worker w ≠ .waiting ∧ s.worker w ≠ .wait) ∧ s.before = 1 ∧ s.runs 0 = 1 := by
  obtain ⟨s, hr, hs, hp⟩ := System.exists_reachableWith_of_replay (M := blockPool oneWorker)
    (C := NoneAboutToWait)
    (p := fun s => decide (s.fini = .join 0 ∧ s.before = 1 ∧ ∀ w, s.worker w = .exited))
    stopWhileRunning started_init (by decide +kernel)
  obtain ⟨hfini, hbefore, hexit⟩ := of_decide_eq_true hp
  obtain ⟨hwait, hruns⟩ := blockPool_shutdown hs
  exact ⟨s, hr, hfini, (hwait (.inl ⟨0, hfini⟩)).1, hbefore, hruns hexit 0 (by omega)⟩

/-- `fini` broadcasts between the worker's test and its wait. -/
def broadcastBeforeWait : List (Action oneWorker) :=
  [.worker theWorker, .worker theWorker, .fini, .fini, .worker theWorker, .fini]

/-- The worker sleeps with every broadcast issued, and `fini` is stuck in its join. -/
theorem stranded_worker :
    ∃ s, (blockPool oneWorker).Reachable s ∧ s.fini = .join 0 ∧ s.worker theWorker = .waiting ∧
      s.queue theShard = [] ∧ finiStep s = none := by
  obtain ⟨s, hs, hp⟩ := (blockPool oneWorker).reaches
    (fun s => decide (s.fini = .join 0 ∧ s.worker theWorker = .waiting ∧ s.queue theShard = []) &&
      (finiStep s).isNone)
    broadcastBeforeWait started_init (by decide +kernel)
  rw [Bool.and_eq_true] at hp
  obtain ⟨hfini, hwait, hqueue⟩ := of_decide_eq_true hp.1
  exact ⟨s, hs, hfini, hwait, hqueue, Option.isNone_iff_eq_none.mp hp.2⟩

end Runloom.BlockPool
