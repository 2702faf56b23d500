import Runloom.Transition.System

/-!
# A blocking call and the worker that wakes its caller

Model of `runloom_blocking_call` against `runloom_blockpool_worker`, for one fiber struct and all the fibers that have
it one after the other. The worker sets `job.done` and then calls `runloom_sched_wake_safe`, which adds a credit to
`wake_pending`, claims `parked_safe` and enqueues the fiber.

`stale` counts the accesses of a worker in `wake_safe` to a struct that is no longer its caller's.
-/

namespace Runloom.BlockingCall

open Transition

/-- `job` is the call that the fiber parks in, `none` for a park elsewhere. -/
inductive Pc where
  | running
  /-- Before the first load of `wake_pending`. -/
  | check (job : Option Nat)
  /-- Before the store of `parked_safe`. -/
  | store (job : Option Nat)
  /-- Before the second load of `wake_pending`. -/
  | recheck (job : Option Nat)
  /-- There is a credit, before the claim of `parked_safe`. -/
  | abort (job : Option Nat)
  | parked (job : Option Nat)
  | eat (job : Option Nat)
  /-- Out of `park_safe`, before the test of `job.done`. -/
  | test (job : Option Nat)
  | completed
deriving DecidableEq

/-- Where a call of `wake_safe` is. -/
inductive Wake where
  | bump
  | claim
  | enqueue
  | returned
deriving DecidableEq

/-- The worker of a job. -/
inductive Worker where
  | unborn
  | queued
  /-- The job is run, and `done` is not set. -/
  | ran
  /-- `done` is set. -/
  | wake (w : Wake)
deriving DecidableEq

structure State where
  inc : Nat
  freed : Bool
  refcount : Nat
  wakePending : Nat
  parkedSafe : Bool
  queue : List Nat
  pc : Pc
  jobs : Nat
  done : Nat → Bool
  worker : Nat → Worker
  caller : Nat → Nat
  wakers : List Wake
  stale : Nat

inductive Action where
  /-- `runloom_blocking_call` publishes its job. -/
  | publish
  | park
  | fiber
  | resume
  | complete
  | reuse
  | worker (n : Nat)
  | retain
  | waker (i : Nat)
  | release (i : Nat)

namespace State

def setWorker (s : State) (n : Nat) (w : Worker) : State :=
  { s with worker := update s.worker n w }

/-- One access of `wake_safe` to the struct. -/
def wake (s : State) : Wake → State
  | .bump => { s with wakePending := s.wakePending + 1 }
  | .claim => { s with parkedSafe := false }
  | .enqueue => { s with queue := s.queue ++ [s.inc] }
  | .returned => s

/-- Where `wake_safe` goes on. -/
def next (s : State) : Wake → Wake
  | .bump => .claim
  | .claim => if s.parkedSafe then .enqueue else .returned
  | .enqueue => .returned
  | .returned => .returned

def touch (s : State) (n : Nat) : State :=
  if s.freed || s.inc != s.caller n then { s with stale := s.stale + 1 } else s

/-- `runloom_g_decref`. -/
def decref (s : State) : State :=
  { s with refcount := s.refcount - 1, freed := s.refcount == 1 }

def publish (s : State) : State :=
  { s with
    jobs := s.jobs + 1,
    done := update s.done s.jobs false,
    caller := update s.caller s.jobs s.inc,
    pc := .check (some s.jobs) }.setWorker s.jobs .queued

/-- The next access of the fiber in `park_safe`, or its test of `job.done`. -/
def fiber (s : State) : Pc → Option State
  | .check j =>
    some (if 0 < s.wakePending then { s with wakePending := s.wakePending - 1, pc := .test j }
      else { s with pc := .store j })
  | .store j => some { s with parkedSafe := true, pc := .recheck j }
  | .recheck j => some { s with pc := if 0 < s.wakePending then .abort j else .parked j }
  | .abort j =>
    some (if s.parkedSafe then
        { s with parkedSafe := false, wakePending := s.wakePending - 1, pc := .test j }
      -- A waker has claimed the park, and its entry is on the way.
      else { s with pc := .parked j })
  | .eat j => some { s with wakePending := s.wakePending - 1, pc := .test j }
  | .test none => some { s with pc := .running }
  | .test (some n) => some { s with pc := if s.done n then .running else .check (some n) }
  | .running | .parked _ | .completed => none

def runWorker (s : State) (n : Nat) : Worker → Option State
  | .unborn | .wake .returned => none
  | .queued => some (s.setWorker n .ran)
  -- From this store on the caller can return, and the worker has no reference to its fiber.
  | .ran => some ({ s with done := update s.done n true }.setWorker n (.wake .bump))
  | .wake w => some (((s.touch n).wake w).setWorker n (.wake (s.next w)))

end State

def step (s : State) : Action → Option State
  | .publish => if s.pc = .running then some s.publish else none
  | .park => if s.pc = .running then some { s with pc := .check none } else none
  | .fiber => s.fiber s.pc
  | .resume =>
    match s.queue, s.pc with
    | _ :: queue, .parked j => some { s with queue := queue, pc := .eat j }
    | _, _ => none
  | .complete => if s.pc = .running then some { s with pc := .completed }.decref else none
  | .reuse =>
    if s.freed then
      some { s with
        inc := s.inc + 1, freed := false, refcount := 1, wakePending := 0, parkedSafe := false,
        pc := .running }
    else none
  | .worker n => s.runWorker n (s.worker n)
  | .retain =>
    if s.freed then none
    else some { s with refcount := s.refcount + 1, wakers := s.wakers ++ [Wake.bump] }
  | .waker i =>
    match s.wakers[i]? with
    | none | some .returned => none
    | some w => some { s.wake w with wakers := s.wakers.set i (s.next w) }
  | .release i =>
    match s.wakers[i]? with
    | some .returned => some { s with wakers := s.wakers.eraseIdx i }.decref
    | _ => none

structure Init (s : State) : Prop where
  freed : s.freed = false
  refcount : s.refcount = 1
  wakePending : s.wakePending = 0
  parkedSafe : s.parkedSafe = false
  queue : s.queue = []
  pc : s.pc = .running
  jobs : s.jobs = 0
  worker : ∀ n, s.worker n = .unborn
  wakers : s.wakers = []
  stale : s.stale = 0

def blocking : System State Action where
  init := Init
  step := step

end Runloom.BlockingCall

/-!
## A worker wakes the fiber that called it

The worker has no reference of its own: what keeps the struct for it is that the caller is still in the
call.  The park loop sees to that up to the store of `done`, whatever else wakes the fiber.  After the
store nothing does, so the proof needs that the loop finds `done` only when the worker is through.
-/

namespace Runloom.BlockingCall

open Transition

variable {s s' : State}

def Pc.job : Pc → Option Nat
  | .running | .completed => none
  | .check j | .store j | .recheck j | .abort j | .parked j | .eat j | .test j => j

def Worker.busy : Worker → Bool
  | .unborn | .wake .returned => false
  | _ => true

structure Inv (s : State) : Prop where
  worker : ∀ n, (s.worker n).busy = true → s.pc.job = some n ∧ s.caller n = s.inc
  /-- `done` is set after the job is run. -/
  done : ∀ n, s.worker n = .queued ∨ s.worker n = .ran → s.done n = false
  refcount : s.refcount = s.wakers.length + if s.pc = .completed then 0 else 1
  freed : s.freed = true → s.refcount = 0
  stale : s.stale = 0

theorem Inv.init (h : Init s) : Inv s where
  worker n hn := by
    rw [h.worker] at hn
    cases hn
  done n hn := by
    rw [h.worker] at hn
    rcases hn with hn | hn <;> cases hn
  refcount := by
    rw [h.refcount, h.wakers, h.pc]
    rfl
  freed hf := by
    rw [h.freed] at hf
    cases hf
  stale := h.stale

theorem Inv.idle (hI : Inv s) (hpc : s.pc.job = none) (n : Nat) : (s.worker n).busy = false := by
  cases hn : (s.worker n).busy with
  | false => rfl
  | true =>
    rw [(hI.worker n hn).1] at hpc
    cases hpc

theorem Inv.completed_of_freed (hI : Inv s) (hf : s.freed = true) : s.pc = .completed ∧ s.wakers = [] := by
  have h0 := hI.freed hf
  rw [hI.refcount] at h0
  split at h0
  next hpc => exact ⟨hpc, List.length_eq_zero_iff.mp (by omega)⟩
  next => omega

theorem Inv.live (hI : Inv s) {n : Nat} (hn : (s.worker n).busy = true) :
    s.freed = false ∧ s.inc = s.caller n := by
  obtain ⟨hjob, hcaller⟩ := hI.worker n hn
  refine ⟨?_, hcaller.symm⟩
  cases hf : s.freed with
  | false => rfl
  | true =>
    rw [(hI.completed_of_freed hf).1] at hjob
    cases hjob

/-! ## The fiber -/

theorem Inv.move (hI : Inv s) {w : Nat} {p : Bool} {q : List Nat} {pc : Pc}
    (hjob : pc.job = s.pc.job) (hold : s.pc ≠ .completed) (hnew : pc ≠ .completed) :
    Inv { s with wakePending := w, parkedSafe := p, queue := q, pc := pc } where
  worker n hn := by
    rw [hjob]
    exact hI.worker n hn
  done := hI.done
  refcount := by
    have h := hI.refcount
    rw [if_neg hold] at h
    rw [if_neg hnew]
    exact h
  freed := hI.freed
  stale := hI.stale

theorem Inv.leave (hI : Inv s) (hidle : ∀ n, (s.worker n).busy = false) (hpc : s.pc ≠ .completed) :
    Inv { s with pc := .running } where
  worker n hn := by
    rw [hidle n] at hn
    cases hn
  done := hI.done
  refcount := by
    have h := hI.refcount
    rw [if_neg hpc] at h
    exact h
  freed := hI.freed
  stale := hI.stale

/-- When the loop finds `job.done` set, the worker has returned from `wake_safe`. -/
def Settled (s : State) (a : Action) : Prop :=
  match a, s.pc with
  | .fiber, .test (some n) => s.done n = true → s.worker n = .wake .returned
  | _, _ => True

theorem Inv.fiber (hI : Inv s) (hC : Settled s .fiber) (h : s.fiber s.pc = some s') : Inv s' := by
  unfold Settled at hC
  generalize hpc : s.pc = pc at h hC
  cases pc with
  | running | completed | parked j => cases h
  | check j | abort j =>
    cases h
    split <;> (exact hI.move (by rw [hpc]; rfl) (by rw [hpc]; nofun) nofun)
  | store j | eat j =>
    cases h
    exact hI.move (by rw [hpc]; rfl) (by rw [hpc]; nofun) nofun
  | recheck j =>
    cases h
    refine hI.move ?_ (by rw [hpc]; nofun) ?_
    · rw [hpc]
      show Pc.job (if 0 < s.wakePending then .abort j else .parked j) = j
      split <;> rfl
    · show (if 0 < s.wakePending then Pc.abort j else .parked j) ≠ .completed
      split <;> nofun
  | test j =>
    cases j with
    | none =>
      cases h
      exact hI.leave (hI.idle (by rw [hpc]; rfl)) (by rw [hpc]; nofun)
    | some n =>
      cases h
      cases hd : s.done n with
      | false =>
        exact hI.move (by rw [hpc]; rfl) (by rw [hpc]; nofun) nofun
      | true =>
        -- The worker of this job is through, and no other one is busy.
        refine hI.leave (fun m => ?_) (by rw [hpc]; nofun)
        cases hm : (s.worker m).busy with
        | false => rfl
        | true =>
          have hjob := (hI.worker m hm).1
          rw [hpc] at hjob
          cases hjob
          rw [hC hd] at hm
          cases hm

theorem Inv.publish (hI : Inv s) (hpc : s.pc = .running) : Inv s.publish := by
  have hidle := hI.idle (by rw [hpc]; rfl)
  refine ⟨fun n hn => ?_, fun n hn => ?_, ?_, hI.freed, hI.stale⟩
  · simp only [State.publish, State.setWorker] at hn ⊢
    by_cases hnj : n = s.jobs
    · rw [hnj, update_self]
      exact ⟨rfl, rfl⟩
    · rw [update_of_ne hnj, hidle n] at hn
      cases hn
  · simp only [State.publish, State.setWorker] at hn ⊢
    by_cases hnj : n = s.jobs
    · rw [hnj, update_self]
    · rw [update_of_ne hnj] at hn ⊢
      exact hI.done n hn
  · have h := hI.refcount
    rw [hpc] at h
    exact h

/-! ## References -/

theorem Inv.decref (hworker : ∀ n, (s.worker n).busy = true → s.pc.job = some n ∧ s.caller n = s.inc)
    (hdone : ∀ n, s.worker n = .queued ∨ s.worker n = .ran → s.done n = false)
    (href : s.refcount = s.wakers.length + (if s.pc = .completed then 0 else 1) + 1)
    (hstale : s.stale = 0) : Inv s.decref where
  worker := hworker
  done := hdone
  refcount := by
    show s.refcount - 1 = s.wakers.length + if s.pc = .completed then 0 else 1
    omega
  freed hf := by
    have h1 : s.refcount = 1 := by simpa [State.decref] using hf
    show s.refcount - 1 = 0
    omega
  stale := hstale

theorem Inv.complete (hI : Inv s) (hpc : s.pc = .running) : Inv { s with pc := .completed }.decref := by
  refine Inv.decref (fun n hn => ?_) hI.done ?_ hI.stale
  · rw [show (s.worker n).busy = false from hI.idle (by rw [hpc]; rfl) n] at hn
    cases hn
  · have h := hI.refcount
    rw [hpc] at h
    exact h

theorem Inv.reuse (hI : Inv s) (hf : s.freed = true) : Inv { s with
      inc := s.inc + 1, freed := false, refcount := 1, wakePending := 0, parkedSafe := false,
      pc := .running } := by
  obtain ⟨hpc, hwakers⟩ := hI.completed_of_freed hf
  refine ⟨fun n hn => ?_, hI.done, ?_, nofun, hI.stale⟩
  · rw [show (s.worker n).busy = false from hI.idle (by rw [hpc]; rfl) n] at hn
    cases hn
  · show 1 = s.wakers.length + 1
    rw [hwakers]
    rfl

theorem Inv.release (hI : Inv s) {i : Nat} (hi : i < s.wakers.length) :
    Inv { s with wakers := s.wakers.eraseIdx i }.decref := by
  refine Inv.decref hI.worker hI.done ?_ hI.stale
  show s.refcount = (s.wakers.eraseIdx i).length + (if s.pc = .completed then 0 else 1) + 1
  rw [hI.refcount, List.length_eraseIdx_of_lt hi]
  omega

/-! ## Wakers -/

section

variable (hI : Inv s)
include hI

theorem Inv.wake (w : Wake) : Inv (s.wake w) := by
  cases w with
  | bump | claim | enqueue | returned =>
    exact ⟨hI.worker, hI.done, hI.refcount, hI.freed, hI.stale⟩

theorem Inv.touch {n : Nat} (hn : (s.worker n).busy = true) : s.touch n = s := by
  obtain ⟨hfreed, hinc⟩ := hI.live hn
  unfold State.touch
  rw [hfreed, hinc]
  simp

theorem Inv.setWorker {n : Nat} {w : Worker} (hn : (s.worker n).busy = true)
    (hw : w = .queued ∨ w = .ran → s.done n = false) : Inv (s.setWorker n w) where
  worker m hm := by
    simp only [State.setWorker] at hm ⊢
    by_cases hmn : m = n
    · rw [hmn]
      exact hI.worker n hn
    · rw [update_of_ne hmn] at hm
      exact hI.worker m hm
  done m hm := by
    simp only [State.setWorker] at hm ⊢
    by_cases hmn : m = n
    · rw [hmn, update_self] at hm
      rw [hmn]
      exact hw hm
    · rw [update_of_ne hmn] at hm
      exact hI.done m hm
  refcount := hI.refcount
  freed := hI.freed
  stale := hI.stale

theorem Inv.runWorker {n : Nat} (h : s.runWorker n (s.worker n) = some s') : Inv s' := by
  have hbusy : s.worker n ≠ .unborn → s.worker n ≠ .wake .returned → (s.worker n).busy = true := by
    intro h₁ h₂
    generalize s.worker n = w at h₁ h₂
    cases w with
    | unborn => exact absurd rfl h₁
    | queued | ran => rfl
    | wake w =>
      cases w with
      | returned => exact absurd rfl h₂
      | bump | claim | enqueue => rfl
  generalize hw : s.worker n = w at h
  rw [hw] at hbusy
  cases w with
  | unborn => cases h
  | queued =>
    cases h
    have hb := hbusy nofun nofun
    exact hI.setWorker (hw ▸ hb) fun _ => hI.done n (.inl hw)
  | ran =>
    cases h
    have hb : (s.worker n).busy = true := hw ▸ hbusy nofun nofun
    -- `done` is set in the same step in which the worker gets past the job.
    refine ⟨fun m hm => ?_, fun m hm => ?_, hI.refcount, hI.freed, hI.stale⟩
    · simp only [State.setWorker] at hm ⊢
      by_cases hmn : m = n
      · rw [hmn]
        exact hI.worker n hb
      · rw [update_of_ne hmn] at hm
        exact hI.worker m hm
    · simp only [State.setWorker] at hm ⊢
      by_cases hmn : m = n
      · rw [hmn, update_self] at hm
        rcases hm with hm | hm <;> cases hm
      · rw [update_of_ne hmn] at hm ⊢
        exact hI.done m hm
  | wake w =>
    cases w with
    | returned => cases h
    | bump | claim | enqueue =>
      cases h
      have hb : (s.worker n).busy = true := hw ▸ hbusy nofun nofun
      rw [hI.touch hb]
      refine (hI.wake _).setWorker hb fun hq => ?_
      rcases hq with hq | hq <;> cases hq

theorem Inv.waker {i : Nat} {w : Wake} : Inv { s.wake w with wakers := s.wakers.set i (s.next w) } := by
  have hI' := hI.wake w
  refine ⟨hI'.worker, hI'.done, ?_, hI'.freed, hI'.stale⟩
  have h := hI'.refcount
  rw [show (s.wake w).wakers = s.wakers by cases w <;> rfl] at h
  show (s.wake w).refcount = (s.wakers.set i (s.next w)).length + _
  rw [List.length_set]
  exact h

theorem Inv.step {a : Action} (hC : Settled s a) (h : step s a = some s') : Inv s' := by
  cases a with
  | publish =>
    simp only [BlockingCall.step] at h
    split at h <;> cases h
    next hpc => exact hI.publish hpc
  | park =>
    simp only [BlockingCall.step] at h
    split at h <;> cases h
    next hpc => exact hI.move (by rw [hpc]; rfl) (by rw [hpc]; nofun) nofun
  | fiber => exact hI.fiber hC h
  | resume =>
    simp only [BlockingCall.step] at h
    split at h <;> cases h
    next e queue j hq hpc => exact hI.move (by rw [hpc]; rfl) (by rw [hpc]; nofun) nofun
  | complete =>
    simp only [BlockingCall.step] at h
    split at h <;> cases h
    next hpc => exact hI.complete hpc
  | reuse =>
    simp only [BlockingCall.step] at h
    split at h <;> cases h
    next hf => exact hI.reuse hf
  | worker n => exact hI.runWorker h
  | retain =>
    simp only [BlockingCall.step] at h
    split at h <;> cases h
    next hf =>
      refine ⟨hI.worker, hI.done, ?_, fun h => absurd h hf, hI.stale⟩
      show s.refcount + 1 = (s.wakers ++ [Wake.bump]).length + if s.pc = .completed then 0 else 1
      rw [hI.refcount, List.length_append, List.length_singleton]
      omega
  | waker i =>
    simp only [BlockingCall.step] at h
    split at h <;> cases h
    next w _ _ => exact hI.waker
  | release i =>
    simp only [BlockingCall.step] at h
    split at h <;> cases h
    next hi => exact hI.release (List.getElem?_eq_some_iff.mp hi).1

end

theorem inv_of_reachable (h : blocking.ReachableWith Settled s) : Inv s :=
  h.invariant (fun _ => Inv.init) fun _ _ _ hI hC hs => hI.step hC hs

/-- No worker has used a struct that was not its caller's, and no worker is about to. -/
structure Owned (s : State) : Prop where
  stale : s.stale = 0
  live : ∀ n, (s.worker n).busy = true → s.freed = false ∧ s.inc = s.caller n

instance (s : State) : ∀ a, Decidable (Settled s a)
  | .fiber =>
    match h : s.pc with
    | .test (some n) =>
      decidable_of_iff (s.done n = true → s.worker n = .wake .returned) (by simp only [Settled, h])
    | .test none | .running | .check _ | .store _ | .recheck _ | .abort _ | .parked _ | .eat _
    | .completed => .isTrue (by simp only [Settled, h])
  | .publish | .park | .resume | .complete | .reuse | .worker _ | .retain | .waker _
  | .release _ => .isTrue trivial

def State.start : State where
  inc := 0
  freed := false
  refcount := 1
  wakePending := 0
  parkedSafe := false
  queue := []
  pc := .running
  jobs := 0
  done _ := false
  worker _ := .unborn
  caller _ := 0
  wakers := []
  stale := 0

theorem init_start : Init .start :=
  ⟨rfl, rfl, rfl, rfl, rfl, rfl, rfl, fun _ => rfl, rfl, rfl⟩

end Runloom.BlockingCall
