import Mathlib.Algebra.BigOperators.Ring.Finset
import Mathlib.Data.Fintype.BigOperators
import Runloom.Transition.System
import Runloom.Transition.Update

/-!
# The thread pool that blocking calls are offloaded to

Model of `_ThreadPoolBackend`: `_worker_loop`, `submit` and `fini`. A worker waits for an item on its own queue, and
when that takes too long it goes round the others once; an item is a job, or the sentinel that ends the worker. A step
is an operation of a queue, a call of a job's function, a store of the flag of its box, or the end of a `submit`.

Every job is a `submit` of its own, and `fn` says what its function returns or raises.
-/

namespace Runloom.ThreadPool

open Transition

inductive Item (J : Type*) where
  | job (j : J)
  /-- `_BACKEND_SHUTDOWN`. -/
  | shutdown
deriving DecidableEq

/-- `_worker_loop`. -/
inductive WorkerPc (J : Type*) where
  /-- Before the timed `get` on the own queue. -/
  | polling
  /-- Before the `get_nowait` on the queue `k` places on. -/
  | stealing (k : ℕ)
  | took (j : J)
  | ran (j : J)
  | exited
deriving DecidableEq

def Item.accept {J : Type*} : Item J → WorkerPc J
  | .job j => .took j
  | .shutdown => .exited

/-- `[result, exception, done]`. -/
structure Box (V E : Type*) where
  result : Option V
  exception : Option E
  done : Bool

structure State (n : ℕ) (J V E : Type*) where
  queue : Fin n → List (Item J)
  worker : Fin n → WorkerPc J
  box : J → Box V E
  /-- How `submit` has ended. -/
  returned : J → Option (Except E (Option V))
  /-- How many sentinels `fini` has put. -/
  fini : Option ℕ
  submitted : List J
  /-- The jobs that were put before `fini`. -/
  early : List J
  runs : List J

inductive Action (n : ℕ) (J : Type*) where
  | submit (j : J) (shard : Fin n)
  /-- The loop of `submit` finds the flag set. -/
  | collect (j : J)
  /-- The next step of a worker; `late` says that a timed `get` has run out of time. -/
  | next (w : Fin n) (late : Bool)
  | fini

namespace Box

variable {V E : Type*}

def empty : Box V E := ⟨none, none, false⟩

def store (b : Box V E) : Except E V → Box V E
  | .ok v => { b with result := some v }
  | .error e => { b with exception := some e }

/-- The end of `submit`. -/
def outcome (b : Box V E) : Except E (Option V) :=
  match b.exception with
  | some e => .error e
  | none => .ok b.result

end Box

variable {n : ℕ} {J V E : Type*} [DecidableEq J]

namespace State

def goto (s : State n J V E) (w : Fin n) (pc : WorkerPc J) : State n J V E :=
  { s with worker := update s.worker w pc }

section

omit [DecidableEq J]

@[simp] theorem goto_self (s : State n J V E) (w : Fin n) (pc : WorkerPc J) : (s.goto w pc).worker w = pc :=
  update_self ..

theorem goto_of_ne (s : State n J V E) (pc : WorkerPc J) {v w : Fin n} (h : v ≠ w) :
    (s.goto w pc).worker v = s.worker v := update_of_ne h ..

end

def setBox (s : State n J V E) (j : J) (b : Box V E) : State n J V E :=
  { s with box := update s.box j b }

def put (s : State n J V E) : ℕ := s.fini.getD 0

def submit (s : State n J V E) (j : J) (shard : Fin n) : State n J V E :=
  { s with
    queue := update s.queue shard (s.queue shard ++ [Item.job j])
    submitted := s.submitted ++ [j]
    early := if s.fini = none then s.early ++ [j] else s.early }.setBox j .empty

/-- A `get` by `w` on the queue `i`, of which `item` is the head. -/
def take (s : State n J V E) (w i : Fin n) (item : Item J) (rest : List (Item J)) : State n J V E :=
  { s with queue := update s.queue i rest }.goto w item.accept

/-- `(shard + k) % n`. -/
def sibling (w : Fin n) (k : ℕ) : Fin n := ⟨(w + k) % n, Nat.mod_lt _ w.pos⟩

def next (fn : J → Except E V) (s : State n J V E) (w : Fin n) (late : Bool) : Option (State n J V E) :=
  match s.worker w with
  | .polling =>
    -- A put can come between the last look at the queue and the end of the wait.
    if late then some (s.goto w (.stealing 1))
    else
      match s.queue w with
      | [] => none
      | item :: rest => some (s.take w w item rest)
  | .stealing k =>
    if k < n then
      match s.queue (sibling w k) with
      | [] => some (s.goto w (.stealing (k + 1)))
      | item :: rest => some (s.take w (sibling w k) item rest)
    else some (s.goto w .polling)
  | .took j => some ({ s with runs := s.runs ++ [j] }.setBox j ((s.box j).store (fn j)) |>.goto w (.ran j))
  | .ran j => some ((s.setBox j { s.box j with done := true }).goto w .polling)
  | .exited => none

def putShutdown (s : State n J V E) (i : Fin n) : State n J V E :=
  { s with
    queue := update s.queue i (s.queue i ++ [Item.shutdown])
    fini := some (i + 1) }

end State

open State

def step (fn : J → Except E V) (s : State n J V E) : Action n J → Option (State n J V E)
  | .submit j shard => if j ∈ s.submitted then none else some (s.submit j shard)
  | .collect j =>
    if j ∈ s.submitted ∧ (s.returned j).isNone = true ∧ (s.box j).done = true then
      some { s with returned := update s.returned j (some (s.box j).outcome) }
    else none
  | .next w late => s.next fn w late
  | .fini =>
    match s.fini with
    | none => some { s with fini := some 0 }
    | some i => if hi : i < n then some (s.putShutdown ⟨i, hi⟩) else none

structure Init (s : State n J V E) : Prop where
  queue : ∀ i, s.queue i = []
  worker : ∀ w, s.worker w = .polling
  box : ∀ j, s.box j = .empty
  returned : ∀ j, s.returned j = none
  fini : s.fini = none
  submitted : s.submitted = []
  early : s.early = []
  runs : s.runs = []

/-- A pool of `n` workers. -/
def pool (n : ℕ) (fn : J → Except E V) : System (State n J V E) (Action n J) where
  init := Init
  step := step fn

end Runloom.ThreadPool

/-!
## The thread pool: every job once, and the drain

A job that was put is in one queue, in the hands of one worker, or run; and a worker ends with a sentinel, so that the
workers that live are as many as the sentinels that are left, in the queues or to be put.  It does not matter which:
whoever takes the sentinel of a queue finds nothing before it, so that when all are taken nothing is left that was put
before them.
-/

namespace Runloom.ThreadPool

open Transition State List

namespace WorkerPc

variable {J : Type*} [DecidableEq J]

/-- Whether the worker has `job`, and has not called its function. -/
def has (job : J) : WorkerPc J → ℤ
  | .took j => if j = job then 1 else 0
  | _ => 0

omit [DecidableEq J] in
def live : WorkerPc J → ℤ
  | .exited => 0
  | _ => 1

@[simp] theorem has_polling (job : J) : (polling : WorkerPc J).has job = 0 := rfl

@[simp] theorem has_stealing (k : ℕ) (job : J) : (stealing k : WorkerPc J).has job = 0 := rfl

@[simp] theorem has_took (j job : J) : (took j).has job = if j = job then 1 else 0 := rfl

@[simp] theorem has_ran (j job : J) : (ran j).has job = 0 := rfl

@[simp] theorem has_exited (job : J) : (exited : WorkerPc J).has job = 0 := rfl

theorem has_nonneg (job : J) (c : WorkerPc J) : 0 ≤ c.has job := by
  cases c with
  | took j =>
    rw [has_took]
    split <;> omega
  | _ => exact Int.le_refl 0

end WorkerPc

variable {n : ℕ} {J V E : Type*} [DecidableEq J]

def whereabouts (s : State n J V E) (j : J) : ℤ :=
  ∑ i, ((s.queue i).count (.job j) : ℤ) + ∑ w, (s.worker w).has j + s.runs.count j

def sentinels (s : State n J V E) : ℤ := ∑ i, ((s.queue i).count .shutdown : ℤ) + (n - s.put)

/-- Nothing of `early` stands behind a sentinel. -/
def Tidy (early : List J) (q : List (Item J)) : Prop :=
  q.Pairwise fun a b => a = .shutdown → ∀ j ∈ early, b ≠ .job j

structure Inv (fn : J → Except E V) (s : State n J V E) : Prop where
  jobs : ∀ j, whereabouts s j = s.submitted.count j
  nodup : s.submitted.Nodup
  early : ∀ j ∈ s.early, j ∈ s.submitted
  live : ∑ w, (s.worker w).live = sentinels s
  put : s.put ≤ n
  unsent : ∀ i : Fin n, s.put ≤ i → .shutdown ∉ s.queue i
  tidy : ∀ i, Tidy s.early (s.queue i)
  held : ∀ i : Fin n, i < s.put → ∀ j ∈ s.early, .job j ∈ s.queue i → .shutdown ∈ s.queue i
  ran : ∀ w j, s.worker w = .ran j → j ∈ s.runs ∧ (s.box j).outcome = (fn j).map some
  done : ∀ j, (s.box j).done = true → j ∈ s.runs ∧ (s.box j).outcome = (fn j).map some
  returned : ∀ j r, s.returned j = some r → j ∈ s.runs ∧ r = (fn j).map some
  clean : ∀ j, j ∉ s.runs → s.box j = .empty

variable {fn : J → Except E V} {s t : State n J V E} {w i : Fin n} {j : J} {q : List (Item J)} {c : WorkerPc J}

theorem Inv.init (h : Init s) : Inv fn s where
  jobs j := by simp [whereabouts, h.queue, h.worker, h.runs, h.submitted, WorkerPc.has]
  nodup := by
    rw [h.submitted]
    exact nodup_nil
  early j hj := by
    rw [h.early] at hj
    cases hj
  live := by simp [sentinels, State.put, h.queue, h.worker, h.fini, WorkerPc.live]
  put := by simp [State.put, h.fini]
  unsent i _ := by
    rw [h.queue]
    exact not_mem_nil
  tidy i := by
    rw [h.queue]
    exact .nil
  held i _ j hj := by
    rw [h.early] at hj
    cases hj
  ran w j hw := by
    rw [h.worker] at hw
    cases hw
  done j hj := by
    rw [h.box] at hj
    cases hj
  returned j r hr := by
    rw [h.returned] at hr
    cases hr
  clean j _ := h.box j

theorem Inv.count_runs_le (hI : Inv fn s) (j : J) : s.runs.count j ≤ s.submitted.count j := by
  have hcount := hI.jobs j
  have hqueues : 0 ≤ ∑ i, ((s.queue i).count (.job j) : ℤ) := Finset.sum_nonneg fun _ _ => Int.natCast_nonneg _
  have hhas : 0 ≤ ∑ w, (s.worker w).has j := Finset.sum_nonneg fun _ _ => WorkerPc.has_nonneg j _
  unfold whereabouts at hcount
  omega

/-! ## A worker -/

theorem sum_has_goto (s : State n J V E) (w : Fin n) (c : WorkerPc J) (j : J) :
    ∑ v, ((s.goto w c).worker v).has j = ∑ v, (s.worker v).has j - (s.worker w).has j + c.has j :=
  sum_comp_update (Finset.mem_univ w) (WorkerPc.has j) s.worker c

omit [DecidableEq J] in
theorem sum_live_goto (s : State n J V E) (w : Fin n) (c : WorkerPc J) :
    ∑ v, ((s.goto w c).worker v).live = ∑ v, (s.worker v).live - (s.worker w).live + c.live :=
  sum_comp_update (Finset.mem_univ w) WorkerPc.live s.worker c

theorem sum_count_update (f : Fin n → List (Item J)) (i : Fin n) (q : List (Item J)) (x : Item J) :
    ∑ v, ((update f i q v).count x : ℤ) = ∑ v, ((f v).count x : ℤ) - (f i).count x + q.count x :=
  sum_comp_update (Finset.mem_univ i) (fun q => (q.count x : ℤ)) f q

theorem Inv.goto (hI : Inv fn s) (hhas : ∀ j, c.has j = (s.worker w).has j) (hlive : c.live = (s.worker w).live)
    (hran : ∀ j, c ≠ .ran j) : Inv fn (s.goto w c) := by
  refine { hI with jobs := fun j => ?_, live := ?_, ran := fun v j hv => ?_ }
  · have hold := hI.jobs j
    unfold whereabouts at hold ⊢
    rw [sum_has_goto, hhas]
    simp only [State.goto]
    omega
  · rw [sum_live_goto, hlive, sub_add_cancel]
    exact hI.live
  · by_cases hvw : v = w
    · subst hvw
      rw [State.goto_self] at hv
      exact absurd hv (hran j)
    · rw [State.goto_of_ne _ _ hvw] at hv
      exact hI.ran v j hv

omit [DecidableEq J] in
theorem forall_update {P : Fin n → List (Item J) → Prop} {f : Fin n → List (Item J)} (hi : P i q)
    (hv : ∀ v, v ≠ i → P v (f v)) (v : Fin n) : P v (update f i q v) := by
  by_cases h : v = i
  · subst h
    rwa [update_self]
  · rw [update_of_ne h]
    exact hv v h

theorem Inv.take (hI : Inv fn s) {item : Item J} {rest : List (Item J)} (hq : s.queue i = item :: rest)
    (hhas : ∀ j, (s.worker w).has j = 0) (hlive : (s.worker w).live = 1) : Inv fn (s.take w i item rest) := by
  have htidy := hI.tidy i
  rw [hq] at htidy
  obtain ⟨hhead, htidy⟩ := pairwise_cons.mp htidy
  refine { hI with jobs := fun j => ?_, live := ?_, unsent := ?_, tidy := ?_, held := ?_, ran := fun v j hv => ?_ }
  · have hold := hI.jobs j
    unfold whereabouts at hold ⊢
    simp only [State.take]
    rw [sum_has_goto, hhas]
    simp only [State.goto]
    rw [sum_count_update, hq, count_cons]
    -- The item moves from the queue to the worker, or a sentinel ends it.
    cases item with
    | job k =>
      simp only [Item.accept, WorkerPc.has_took, beq_iff_eq, Item.job.injEq]
      split <;> push_cast <;> omega
    | shutdown =>
      simp only [Item.accept, WorkerPc.has_exited, beq_iff_eq, reduceCtorEq, if_false]
      omega
  · have hold := hI.live
    unfold sentinels at hold ⊢
    simp only [State.take]
    rw [sum_live_goto, hlive]
    simp only [State.goto, State.put] at hold ⊢
    rw [sum_count_update, hq, count_cons]
    -- A sentinel less, and a live worker less.
    cases item with
    | job k =>
      rw [show (Item.job k).accept.live = 1 from rfl, if_neg (by simp)]
      omega
    | shutdown =>
      rw [show (Item.shutdown : Item J).accept.live = 0 from rfl, if_pos (by simp)]
      omega
  · refine forall_update (P := fun v q => s.put ≤ v → .shutdown ∉ q) (fun hi hmem => ?_) fun v _ => hI.unsent v
    exact hI.unsent i hi (hq ▸ mem_cons_of_mem item hmem)
  · exact forall_update (P := fun _ q => Tidy s.early q) htidy fun v _ => hI.tidy v
  · refine forall_update (P := fun v q => v < s.put → ∀ j ∈ s.early, .job j ∈ q → .shutdown ∈ q) ?_
      fun v _ => hI.held v
    intro hi j hj hmem
    -- The sentinel is behind the job, so it was not the head.
    have hsent := hI.held i hi j hj (hq ▸ mem_cons_of_mem item hmem)
    rw [hq] at hsent
    rcases mem_cons.mp hsent with heq | hsent
    · exact absurd rfl (hhead _ hmem heq.symm j hj)
    · exact hsent
  · by_cases hvw : v = w
    · subst hvw
      rw [show (s.take v i item rest).worker v = item.accept from State.goto_self ..] at hv
      cases item <;> cases hv
    · apply hI.ran v j
      rw [← hv]
      exact (update_of_ne hvw ..).symm

theorem Box.outcome_store (r : Except E V) : ((Box.empty : Box V E).store r).outcome = r.map some := by
  cases r <;> rfl

theorem Inv.run (hI : Inv fn s) (hw : s.worker w = .took j) :
    Inv fn ({ s with runs := s.runs ++ [j] }.setBox j ((s.box j).store (fn j)) |>.goto w (.ran j)) := by
  have hpos : 0 < ∑ v, (s.worker v).has j := by
    refine Finset.sum_pos' (fun v _ => WorkerPc.has_nonneg j _) ⟨w, Finset.mem_univ w, ?_⟩
    rw [hw, WorkerPc.has_took, if_pos rfl]
    exact Int.one_pos
  -- The job is with this worker, so it is nowhere else, and not among those that ran.
  have hnew : j ∉ s.runs := by
    intro hmem
    have hcount := hI.jobs j
    have hone := nodup_iff_count_le_one.mp hI.nodup j
    have hruns := count_pos_iff.mpr hmem
    have hqueues : 0 ≤ ∑ i, ((s.queue i).count (.job j) : ℤ) := Finset.sum_nonneg fun _ _ => Int.natCast_nonneg _
    unfold whereabouts at hcount
    omega
  have hbox := hI.clean j hnew
  have hold : ∀ k, k ∈ s.runs → k ≠ j := fun k hk hkj => hnew (hkj ▸ hk)
  have hout : (update s.box j ((s.box j).store (fn j)) j).outcome = (fn j).map some := by
    rw [update_self, hbox]
    exact Box.outcome_store _
  refine { hI with
    jobs := fun k => ?_, live := ?_, ran := fun v k hv => ?_, done := fun k hk => ?_, returned := fun k r hk => ?_,
    clean := fun k hk => ?_ }
  · have hk := hI.jobs k
    unfold whereabouts at hk ⊢
    rw [sum_has_goto]
    simp only [State.goto, State.setBox, hw, count_append, count_singleton, WorkerPc.has_took,
      WorkerPc.has_ran, beq_iff_eq] at hk ⊢
    split <;> push_cast <;> omega
  · have hlive : (s.worker w).live = (WorkerPc.ran j).live := by
      rw [hw]
      rfl
    rw [sum_live_goto]
    simp only [State.setBox]
    rw [hlive, sub_add_cancel]
    exact hI.live
  · by_cases hvw : v = w
    · subst hvw
      rw [State.goto_self] at hv
      cases hv
      exact ⟨mem_append_right _ (mem_singleton_self j), hout⟩
    · rw [State.goto_of_ne _ _ hvw] at hv
      obtain ⟨hk, ho⟩ := hI.ran v k hv
      refine ⟨mem_append_left _ hk, ?_⟩
      show (update s.box j _ k).outcome = _
      rwa [update_of_ne (hold k hk)]
  -- The flag of this job's box is not set by the call, but after it.
  · have hkj : k ≠ j := by
      rintro rfl
      have hk' : (update s.box k ((s.box k).store (fn k)) k).done = true := hk
      rw [update_self, hbox] at hk'
      cases hfn : fn k <;> rw [hfn] at hk' <;> cases hk'
    have hk' : (update s.box j ((s.box j).store (fn j)) k).done = true := hk
    rw [update_of_ne hkj] at hk'
    obtain ⟨hmem, ho⟩ := hI.done k hk'
    refine ⟨mem_append_left _ hmem, ?_⟩
    show (update s.box j _ k).outcome = _
    rwa [update_of_ne hkj]
  · obtain ⟨hmem, hr⟩ := hI.returned k r hk
    exact ⟨mem_append_left _ hmem, hr⟩
  · obtain ⟨hk, hkj⟩ := not_or.mp fun h => hk (mem_append.mpr h)
    show update s.box j _ k = _
    rw [update_of_ne fun h => hkj (mem_singleton.mpr h)]
    exact hI.clean k hk

theorem Inv.finish (hI : Inv fn s) (hw : s.worker w = .ran j) :
    Inv fn ((s.setBox j { s.box j with done := true }).goto w .polling) := by
  have hbox : ∀ k, (update s.box j { s.box j with done := true } k).outcome = (s.box k).outcome := by
    intro k
    by_cases hkj : k = j
    · subst hkj
      rw [update_self]
      rfl
    · rw [update_of_ne hkj]
  obtain ⟨hran, hout⟩ := hI.ran w j hw
  have hset : Inv fn (s.setBox j { s.box j with done := true }) := by
    refine { hI with ran := fun v k hv => ?_, done := fun k hk => ?_, clean := fun k hk => ?_ }
    · rw [show (_ : State n J V E).box k = update s.box j _ k from rfl, hbox]
      exact hI.ran v k hv
    · rw [show (_ : State n J V E).box k = update s.box j _ k from rfl] at hk ⊢
      rw [hbox]
      by_cases hkj : k = j
      · rw [hkj]
        exact ⟨hran, hout⟩
      · rw [update_of_ne hkj] at hk
        exact hI.done k hk
    · have hkj : k ≠ j := by
        rintro rfl
        exact hk hran
      show update s.box j _ k = _
      rw [update_of_ne hkj]
      exact hI.clean k hk
  refine hset.goto (fun k => ?_) ?_ nofun
  · show _ = (s.worker w).has k
    rw [hw]
    rfl
  · show _ = (s.worker w).live
    rw [hw]
    rfl

theorem Inv.next (hI : Inv fn s) {late : Bool} (h : s.next fn w late = some t) : Inv fn t := by
  unfold State.next at h
  split at h
  next hw =>
    split at h
    · cases h
      exact hI.goto (fun j => by rw [hw]; rfl) (by rw [hw]; rfl) nofun
    · split at h <;> cases h
      next item rest hq => exact hI.take hq (fun j => by rw [hw]; rfl) (by rw [hw]; rfl)
  next k hw =>
    split at h
    · split at h <;> cases h
      next => exact hI.goto (fun j => by rw [hw]; rfl) (by rw [hw]; rfl) nofun
      next item rest hq => exact hI.take hq (fun j => by rw [hw]; rfl) (by rw [hw]; rfl)
    · cases h
      exact hI.goto (fun j => by rw [hw]; rfl) (by rw [hw]; rfl) nofun
  next j hw =>
    cases h
    exact hI.run hw
  next j hw =>
    cases h
    exact hI.finish hw
  next => cases h

/-! ## `submit` and `fini` -/

theorem Inv.not_mem_runs (hI : Inv fn s) (hj : j ∉ s.submitted) : j ∉ s.runs := by
  have hle := hI.count_runs_le j
  rw [count_eq_zero_of_not_mem hj] at hle
  exact count_eq_zero.mp (Nat.le_zero.mp hle)

theorem Inv.submit (hI : Inv fn s) (hj : j ∉ s.submitted) : Inv fn (s.submit j i) := by
  have hruns := hI.not_mem_runs hj
  have hbox : update s.box j .empty = s.box := by
    rw [← hI.clean j hruns]
    exact update_eq_self ..
  have hearly : ∀ k ∈ (s.submit j i).early, k ∈ s.early ∨ k = j ∧ s.fini = none := by
    intro k hk
    simp only [State.submit, State.setBox] at hk
    split at hk
    next hnone => exact (mem_append.mp hk).imp id fun h => ⟨mem_singleton.mp h, hnone⟩
    next => exact .inl hk
  -- While jobs are early there is no sentinel anywhere.
  have hnone : s.fini = none → ∀ v, .shutdown ∉ s.queue v := fun hfini v => hI.unsent v (by simp [State.put, hfini])
  have htidy : ∀ v, Tidy (s.submit j i).early (s.queue v) := by
    intro v
    refine (hI.tidy v).imp_of_mem fun {a b} ha _ hab hshut k hk => ?_
    rcases hearly k hk with hk | ⟨-, hfini⟩
    · exact hab hshut k hk
    · exact absurd (hshut ▸ ha) (hnone hfini v)
  refine ⟨fun k => ?_, ?_, fun k hk => ?_, ?_, hI.put, ?_, ?_, ?_, fun v k hv => ?_, fun k hk => ?_, hI.returned,
    fun k hk => ?_⟩
  · have hold := hI.jobs k
    unfold whereabouts at hold ⊢
    simp only [State.submit, State.setBox]
    rw [sum_count_update]
    simp only [count_append, count_singleton, beq_iff_eq, Item.job.injEq]
    split <;> push_cast <;> omega
  · refine nodup_append'.mpr ⟨hI.nodup, nodup_singleton j, fun k hk hkj => ?_⟩
    exact hj (mem_singleton.mp hkj ▸ hk)
  · rcases hearly k hk with hk | ⟨hk, -⟩
    · exact mem_append_left _ (hI.early k hk)
    · exact mem_append_right _ (mem_singleton.mpr hk)
  · have hold := hI.live
    unfold sentinels at hold ⊢
    simp only [State.submit, State.setBox, State.put] at hold ⊢
    rw [sum_count_update]
    simp only [count_append, count_singleton, beq_iff_eq, reduceCtorEq, if_false]
    omega
  · refine forall_update (P := fun v q => s.put ≤ v → .shutdown ∉ q) (fun hi hmem => ?_) fun v _ => hI.unsent v
    exact hI.unsent i hi ((mem_append.mp hmem).resolve_right (by simp))
  · refine forall_update (P := fun _ q => Tidy (s.submit j i).early q) ?_ fun v _ => htidy v
    refine pairwise_append.mpr ⟨htidy i, pairwise_singleton .., fun a ha b hb hshut k hk hbk => ?_⟩
    rw [mem_singleton.mp hb] at hbk
    cases hbk
    rcases hearly j hk with hk | ⟨-, hfini⟩
    · exact hj (hI.early j hk)
    · exact hnone hfini i (hshut ▸ ha)
  · have hlater : ∀ v : Fin n, v < s.put → ∀ k ∈ (s.submit j i).early, k ∈ s.early := by
      intro v hv k hk
      refine (hearly k hk).resolve_right fun h => ?_
      simp [State.put, h.2] at hv
    refine forall_update (P := fun v q => v < s.put → ∀ k ∈ (s.submit j i).early, .job k ∈ q → .shutdown ∈ q) ?_
      fun v _ hv k hk => hI.held v hv k (hlater v hv k hk)
    intro hi k hk hmem
    have hk' := hlater i hi k hk
    refine mem_append_left _ (hI.held i hi k hk' ((mem_append.mp hmem).resolve_right fun h => ?_))
    cases mem_singleton.mp h
    exact hj (hI.early _ hk')
  · show k ∈ s.runs ∧ (update s.box j .empty k).outcome = _
    rw [hbox]
    exact hI.ran v k hv
  · have hk' : (update s.box j .empty k).done = true := hk
    show k ∈ s.runs ∧ (update s.box j .empty k).outcome = _
    rw [hbox] at hk' ⊢
    exact hI.done k hk'
  · show update s.box j .empty k = _
    rw [hbox]
    exact hI.clean k hk

theorem Inv.putShutdown (hI : Inv fn s) (hfini : s.fini = some i) : Inv fn (s.putShutdown i) := by
  have hput : s.put = i := by simp [State.put, hfini]
  have hput' : (s.putShutdown i).put = i + 1 := rfl
  have hnone := hI.unsent i (Nat.le_of_eq hput)
  refine { hI with jobs := fun j => ?_, live := ?_, put := ?_, unsent := ?_, tidy := ?_, held := ?_ }
  · have hold := hI.jobs j
    unfold whereabouts at hold ⊢
    simp only [State.putShutdown]
    rw [sum_count_update]
    simp only [count_append, count_singleton, beq_iff_eq, reduceCtorEq, if_false]
    omega
  · have hold := hI.live
    unfold sentinels at hold ⊢
    rw [hput']
    rw [hput] at hold
    simp only [State.putShutdown]
    rw [sum_count_update]
    simp only [count_append, count_singleton, beq_self_eq_true, if_true]
    push_cast
    omega
  · exact i.isLt
  · rw [hput']
    refine forall_update (P := fun v q => (i : ℕ) + 1 ≤ v → .shutdown ∉ q) ?_ ?_
    · exact fun hi => absurd hi (Nat.not_succ_le_self _)
    · exact fun v _ hv => hI.unsent v (by omega)
  · refine forall_update (P := fun _ q => Tidy s.early q) ?_ fun v _ => hI.tidy v
    refine pairwise_append.mpr ⟨hI.tidy i, pairwise_singleton .., fun a ha b hb hshut => ?_⟩
    exact absurd (hshut ▸ ha) hnone
  · rw [hput']
    refine forall_update (P := fun v q => (v : ℕ) < i + 1 → ∀ j ∈ s.early, .job j ∈ q → .shutdown ∈ q) ?_ ?_
    · exact fun _ j _ _ => mem_append_right _ (mem_singleton_self _)
    · intro v hvi hv
      have hne : (v : ℕ) ≠ i := fun h => hvi (Fin.ext h)
      exact hI.held v (by omega)

theorem Inv.step (hI : Inv fn s) {a : Action n J} (h : ThreadPool.step fn s a = some t) : Inv fn t := by
  cases a with
  | submit j i =>
    simp only [ThreadPool.step] at h
    split at h <;> cases h
    next hj => exact hI.submit hj
  | collect j =>
    simp only [ThreadPool.step] at h
    split at h <;> cases h
    next hj =>
      obtain ⟨hmem, hout⟩ := hI.done j hj.2.2
      refine { hI with returned := fun k r hr => ?_ }
      by_cases hkj : k = j
      · subst hkj
        rw [show (_ : State n J V E).returned k = some (s.box k).outcome from update_self ..] at hr
        cases hr
        exact ⟨hmem, hout⟩
      · rw [show (_ : State n J V E).returned k = s.returned k from update_of_ne hkj ..] at hr
        exact hI.returned k r hr
  | next w late => exact hI.next h
  | fini =>
    simp only [ThreadPool.step] at h
    split at h
    next hfini =>
      cases h
      have hput : s.put = 0 := by simp [State.put, hfini]
      refine ⟨hI.jobs, hI.nodup, hI.early, ?_, Nat.zero_le n, fun v _ => hI.unsent v (by omega), hI.tidy, nofun,
        hI.ran, hI.done, hI.returned, hI.clean⟩
      have hold := hI.live
      unfold sentinels at hold ⊢
      rw [hput] at hold
      exact hold
    next k hfini =>
      split at h <;> cases h
      next hk => exact hI.putShutdown (i := ⟨k, hk⟩) hfini

theorem inv_of_reachable (h : (pool n fn).Reachable s) : Inv fn s :=
  h.invariant (fun _ hs => Inv.init hs) fun _ _ _ hI _ hs => hI.step hs

theorem sum_live_eq_card (s : State n J V E) :
    ∑ w, (s.worker w).live = (Finset.univ.filter fun w => s.worker w ≠ .exited).card := by
  rw [Finset.natCast_card_filter]
  refine Finset.sum_congr rfl fun w _ => ?_
  cases hw : s.worker w <;> rfl

theorem Inv.drained (hI : Inv fn s) (hexit : ∀ w, s.worker w = .exited) (hj : j ∈ s.early) :
    s.runs.count j = s.submitted.count j := by
  have hlive := hI.live
  have hput := hI.put
  have hnonneg : ∀ i ∈ Finset.univ, (0 : ℤ) ≤ (s.queue i).count .shutdown := fun i _ => Int.natCast_nonneg _
  have hsum := Finset.sum_nonneg hnonneg
  simp only [hexit, WorkerPc.live, Finset.sum_const_zero, sentinels] at hlive
  -- All sentinels are put, and as many workers are alive as are left: none.
  have hnone : ∀ i, .shutdown ∉ s.queue i := by
    intro i hmem
    have hzero := (Finset.sum_eq_zero_iff_of_nonneg hnonneg).mp (by omega) i (Finset.mem_univ i)
    have := count_pos_iff.mpr hmem
    omega
  -- A job before `fini` stands before a sentinel, as long as it is queued.
  have hqueues : ∀ i, (s.queue i).count (.job j) = 0 := by
    intro i
    refine count_eq_zero_of_not_mem fun hmem => hnone i (hI.held i ?_ j hj hmem)
    omega
  have hcount := hI.jobs j
  simp only [whereabouts, hqueues, hexit, WorkerPc.has_exited, Nat.cast_zero, Finset.sum_const_zero] at hcount
  omega

/-- A job is run at most once, and a `submit` returns what its run returned; when no worker lives, every job put
before `fini` has been run. -/
theorem jobs_run_once (h : (pool n fn).Reachable s) : (∀ j, s.runs.count j ≤ 1) ∧ (s.fini = some n →
      (Finset.univ.filter fun w => s.worker w ≠ .exited).card = ∑ i, (s.queue i).count .shutdown) ∧
    ((∀ w, s.worker w = .exited) → ∀ j ∈ s.early, s.runs.count j = 1) ∧
    (∀ j r, s.returned j = some r → s.runs.count j = 1 ∧ r = (fn j).map some) := by
  have hI := inv_of_reachable h
  have hone : ∀ j, s.runs.count j ≤ 1 := fun j =>
    (hI.count_runs_le j).trans (nodup_iff_count_le_one.mp hI.nodup j)
  refine ⟨hone, fun hfini => ?_, fun hexit j hj => ?_, fun j r hr => ?_⟩
  · have hlive := hI.live
    rw [sum_live_eq_card, sentinels] at hlive
    rw [show s.put = n by simp [State.put, hfini], sub_self, add_zero] at hlive
    exact_mod_cast hlive
  · rw [hI.drained hexit hj]
    exact count_eq_one_of_mem hI.nodup (hI.early j hj)
  · obtain ⟨hmem, hout⟩ := hI.returned j r hr
    have := count_pos_iff.mpr hmem
    have := hone j
    exact ⟨by omega, hout⟩

def started : State 2 (Fin 2) ℕ Unit := ⟨fun _ => [], fun _ => .polling, fun _ => .empty, fun _ => none, none, [], [],
  []⟩

/-- Worker 1 takes both jobs of worker 0, and the sentinel too; worker 0 leaves with that of worker 1. -/
theorem jobs_run_once_stolen :
    ∃ s, (pool 2 fun j : Fin 2 => (.ok j : Except Unit ℕ)).Reachable s ∧ (∀ w, s.worker w = .exited) ∧
      s.runs.count 0 = 1 ∧ s.runs.count 1 = 1 ∧ s.returned 0 = some (.ok (some 0)) := by
  obtain ⟨s, hr, hp⟩ := (pool 2 fun j : Fin 2 => (.ok j : Except Unit ℕ)).reaches
    (fun s => decide ((∀ w, s.worker w = .exited) ∧ 0 ∈ s.early ∧ 1 ∈ s.early) && (s.returned 0).isSome)
    [.submit 0 0, .submit 1 0, .next 1 true, .next 1 false, .next 1 false, .next 1 false, .collect 0, .fini, .fini,
      .next 1 true, .next 1 false, .fini, .next 1 false, .next 1 false, .next 1 true, .next 1 false,
      .next 0 true, .next 0 false]
    (s := started) ⟨fun _ => rfl, fun _ => rfl, fun _ => rfl, fun _ => rfl, rfl, rfl, rfl, rfl⟩ (by decide +kernel)
  obtain ⟨hstate, hret⟩ := Bool.and_eq_true_iff.mp hp
  obtain ⟨hexit, h0, h1⟩ := of_decide_eq_true hstate
  obtain ⟨-, -, hdrained, hreturned⟩ := jobs_run_once hr
  obtain ⟨r, hr0⟩ := Option.isSome_iff_exists.mp hret
  refine ⟨s, hr, hexit, hdrained hexit 0 h0, hdrained hexit 1 h1, ?_⟩
  rw [hr0, (hreturned 0 r hr0).2]
  rfl

end Runloom.ThreadPool
