import Runloom.OffloadJob.Credits

/-!
# The jobs of the blocking pool: what a run keeps

Each job is run once and its call returns the result, no worker touches a record whose caller may be gone, and
`bp_inflight` counts the jobs that are on their way: whatever wakes the callers.
-/

namespace Runloom.OffloadJob

open Transition State

variable {F S W R : Type*} [DecidableEq F] [DecidableEq S] [DecidableEq W] {shardOf : W → S} {fn : ℕ → R}
  {s : State F S W R} {w : W} {n : ℕ}

/-- The job whose record the next step of the worker reads or writes. -/
def touches (shardOf : W → S) (s : State F S W R) (w : W) : Option ℕ :=
  match s.worker w with
  | .idle => (s.queue (shardOf w)).head?
  | .took n | .run n _ _ | .ran n _ _ => some n
  | .wake .. | .poke _ | .decrement _ => none

theorem workerStep_setJob (h : touches shardOf s w ≠ some n) (x : Job F R) :
    (s.setJob n x).workerStep shardOf fn w = (s.workerStep shardOf fn w).map fun t => t.setJob n x := by
  have hworker : (s.setJob n x).worker w = s.worker w := rfl
  unfold touches at h
  unfold State.workerStep
  rw [hworker]
  cases hw : s.worker w with
  | idle =>
    simp only [show (s.setJob n x).queue = s.queue from rfl]
    cases s.queue (shardOf w) with
    | nil | cons => rfl
  | took m =>
    rw [hw] at h
    have hm : m ≠ n := fun he => h (congrArg some he)
    simp only [State.setJob_of_ne s x hm]
    rfl
  | run m hub g | ran m hub g =>
    rw [hw] at h
    have hm : m ≠ n := fun he => h (congrArg some he)
    have hcomm : ∀ y, (s.setJob n x).setJob m y = (s.setJob m y).setJob n x := fun y => by
      simp only [State.setJob, Function.update_comm hm.symm]
    simp only [State.setJob_of_ne s x hm, hcomm]
    rfl
  | wake m hub g y =>
    cases y with
    | bump | enqueue => rfl
    | claim =>
      simp only [State.wakeStep, show (s.setJob n x).fiber = s.fiber from rfl]
      split <;> rfl
  | poke | decrement => rfl

variable [Fintype S] [Fintype W]

omit [DecidableEq F] [DecidableEq S] [DecidableEq W] in
theorem Inv.caller_of_touches (hI : Inv fn s) (h : touches shardOf s w = some n) :
    (s.job n).done = false ∧ (s.fiber (s.job n).g).pc.call = some n := by
  unfold touches at h
  split at h
  next hw => exact hI.caller_of_queued (List.mem_of_mem_head? h)
  next m hw =>
    cases h
    exact hI.caller_of_worker (w := w) (by rw [hw]; rfl) (by rw [hw]; rfl)
  next m hub g hw =>
    cases h
    exact hI.caller_of_worker (w := w) (by rw [hw]; rfl) (by rw [hw]; rfl)
  next m hub g hw =>
    cases h
    exact hI.caller_of_worker (w := w) (by rw [hw]; rfl) (by rw [hw]; rfl)
  all_goals cases h

/-- No function is run twice, a call returns after the store of `done`, and no record is touched after its call;
with no late claims, a job leaves no credit. -/
theorem jobs_offloaded (h : (offload shardOf fn).Reachable s) : (∀ n, (s.book n).runs ≤ 1 ∧
      ((s.book n).stage = .enqueued → (∃ i, n ∈ s.queue i) ∨ ∃ w, (s.worker w).job = some n) ∧
      ((s.book n).stage = .completed → (s.book n).runs = 1 ∧ (s.book n).woken = true)) ∧
    (∀ n r, (s.book n).returned = some r → (s.job n).done = true ∧ (s.book n).runs = 1 ∧ r = some (fn n)) ∧
    (∀ w n, touches shardOf s w = some n → (s.job n).done = false ∧ (s.fiber (s.job n).g).pc.call = some n) ∧
    (∀ w n x, (s.job n).done = true →
      (s.setJob n x).workerStep shardOf fn w = (s.workerStep shardOf fn w).map fun t => t.setJob n x) ∧
    s.inflight = ((Finset.range s.jobs).filter fun n =>
      (s.book n).stage = .counted ∨ (s.book n).stage = .enqueued).card ∧
    ((offload shardOf fn).ReachableWith (fun s a => OnlyWorkers s a ∧ OwnClaim s a) s →
      ∀ n, n < s.jobs → (s.fiber (s.job n).g).pc.call = none → (s.book n).woken = true →
        (s.fiber (s.job n).g).wakePending ≤ (s.book n).before) := by
  have hI := inv_of_reachable h
  refine ⟨fun n => ⟨hI.runs_le_one n, hI.of_enqueued, hI.of_completed⟩, fun n r hr => ?_,
    fun w n => hI.caller_of_touches, fun w n x hd => ?_, hI.inflight_eq_card, fun hC n _ hf _ => ?_⟩
  · obtain ⟨hd, hr'⟩ := hI.returned n r hr
    exact ⟨hd, hI.runs_of_done hd, hr'⟩
  · refine workerStep_setJob (fun ht => ?_) x
    rw [(hI.caller_of_touches ht).1] at hd
    cases hd
  · rw [(credits_of_reachable hC).wakePending_eq_zero hf]
    exact Nat.zero_le _

def twoWorkers : System (State (Fin 1) (Fin 1) (Fin 2) ℕ) (Action (Fin 1) (Fin 1) (Fin 2)) :=
  offload (fun _ => 0) fun n => n + 7

def idlePool : State (Fin 1) (Fin 1) (Fin 2) ℕ where
  fiber _ := ⟨.running, 0, false, 0, 0, 0⟩
  queue _ := []
  worker _ := .idle
  jobs := 0
  job _ := ⟨0, false, none, false⟩
  book _ := .empty
  inflight := 0

theorem idlePool_init : twoWorkers.init idlePool :=
  ⟨fun _ => rfl, fun _ => rfl, fun _ => rfl, rfl, fun _ => rfl, fun _ => rfl, rfl⟩

/-- The caller parks, a worker runs the job and resumes it, and the call returns. -/
theorem jobs_offloaded_oneCall : ∃ s, twoWorkers.ReachableWith (fun s a => OnlyWorkers s a ∧ OwnClaim s a) s ∧
      (s.book 0).returned = some (some 7) ∧ (s.book 0).runs = 1 ∧ (s.book 0).woken = true ∧
      (s.fiber 0).wakePending ≤ (s.book 0).before := by
  obtain ⟨s, hr, hjobs, hg, hcall, hreturned, hwoken⟩ := twoWorkers.reachesWith (fun s a => OnlyWorkers s a ∧ OwnClaim s a)
    (fun s => 0 < s.jobs ∧ (s.job 0).g = 0 ∧ (s.fiber 0).pc.call = none ∧
      (s.book 0).returned = some (some 7) ∧ (s.book 0).woken = true)
    [.call 0 true 0, .fiber 0, .fiber 0, .fiber 0, .fiber 0, .fiber 0, .worker 0, .worker 0, .worker 0, .worker 0,
      .worker 0, .worker 0, .worker 0, .resume 0, .fiber 0, .fiber 0]
    idlePool_init (by decide +kernel)
  obtain ⟨-, hreturns, -, -, -, hcredit⟩ := jobs_offloaded hr.reachable
  have hle := hcredit hr 0 hjobs (by rw [hg]; exact hcall) hwoken
  rw [hg] at hle
  exact ⟨s, hr, hreturned, (hreturns 0 _ hreturned).2.1, hwoken, hle⟩

/-- The late claim of worker 0 takes the park of the caller's next call; the credit of worker 1 comes afterwards,
and stays. -/
theorem late_claim_leaves_credit :
    ∃ s, twoWorkers.ReachableWith OnlyWorkers s ∧ 1 < s.jobs ∧ (s.fiber (s.job 1).g).pc.call = none ∧
      (s.book 1).woken = true ∧ (s.book 1).before < (s.fiber (s.job 1).g).wakePending := by
  exact twoWorkers.reachesWith OnlyWorkers
    (fun s => 1 < s.jobs ∧ (s.fiber (s.job 1).g).pc.call = none ∧ (s.book 1).woken = true ∧
      (s.book 1).before < (s.fiber (s.job 1).g).wakePending)
    [.call 0 true 0, .fiber 0, .fiber 0, .worker 0, .worker 0, .worker 0, .worker 0, .worker 0, .fiber 0, .fiber 0,
      .call 0 true 0, .fiber 0, .fiber 0, .worker 1, .worker 1, .worker 1, .worker 1, .fiber 0, .fiber 0, .fiber 0,
      .worker 0, .worker 0, .resume 0, .fiber 0, .fiber 0, .worker 1, .worker 1]
    idlePool_init (by decide +kernel)

end Runloom.OffloadJob
