import Mathlib.Algebra.BigOperators.Intervals
import Runloom.JoinSet.Model
import Runloom.Transition.Update

/-!
# The books of the join set

`spawn` counts its task in the wait group before the runner exists.  The counter is the number of runners that have
not come to their `done`, of the spawns that failed, and of the one that is under way.  A place in the two lists
holds what the runner of that index has written.
-/

namespace Runloom.JoinSet

open Transition Handoff

variable {V E : Type*} {foreign : Bool} {s t : State V E} {a : Action V E} {i : ℕ} {f : Fiber}

/-- What one step does. -/
inductive Moves (foreign : Bool) (s : State V E) : State V E → Prop where
  | spawn (ho : s.owner = .idle) : Moves foreign s { s with
      n := s.n + 1, results := s.results ++ [none], errs := s.errs ++ [none], owner := .adding s.n }
  | created {i : ℕ} (ho : s.owner = .creating i) (hpc : s.wg.lobby.pc .owner = .idle) :
    Moves foreign s ({ s with owner := .idle }.setRunner i .running)
  | failed {i : ℕ} (ho : s.owner = .creating i) (hpc : s.wg.lobby.pc .owner = .idle) :
    Moves foreign s { s with owner := .idle, failed := s.failed + 1 }
  | join {call : Call} (ho : s.owner = .idle) : Moves foreign s { s with owner := .joining call }
  | add {i : ℕ} (ho : s.owner = .adding i) :
    Moves foreign s { s with wg := s.wg.add .owner 1, owner := .creating i }
  | wait {call : Call} (ho : s.owner = .joining call)
      (hpc : s.wg.lobby.pc .owner = .idle ∨ s.wg.lobby.pc .owner = .woken ()) :
    Moves foreign s { s with wg := s.wg.wait .owner }
  | poll {call : Call} (ho : s.owner = .joining call) : Moves foreign s s
  | joined {call : Call} (ho : s.owner = .joining call)
      (hn : s.wg.n = 0 ∨ ∃ r, s.wg.lobby.pc .owner = .returned r) :
    Moves foreign s { s with owner := .returned (s.collect call) }
  | finish {i : ℕ} {out : Except E V} (hr : s.runner i = .running) :
    Moves foreign s ((s.write i out).setRunner i (.finishing out))
  | done {i : ℕ} {out : Except E V} (hr : s.runner i = .finishing out) :
    Moves foreign s ({ s with wg := s.wg.done (.runner i) }.setRunner i (.leaving out))
  | ended {i : ℕ} {out : Except E V} (hr : s.runner i = .leaving out) (hpc : s.wg.lobby.pc (.runner i) = .idle) :
    Moves foreign s (s.setRunner i (.ended out))
  | ownerNext {lobby : Lobby Fiber Unit WaitGroup.Result} (ho : (∃ i, s.owner = .creating i) ∨
        ∃ call, s.owner = .joining call ∧ s.wg.lobby.pc .owner ≠ .idle ∧ ∀ r, s.wg.lobby.pc .owner ≠ .returned r)
      (h : s.wg.lobby.next (fun _ => false) .owner = some lobby) :
    Moves foreign s { s with wg := { s.wg with lobby := lobby } }
  | runnerNext {i : ℕ} {out : Except E V} {lobby : Lobby Fiber Unit WaitGroup.Result}
      (hr : s.runner i = .leaving out) (hpc : s.wg.lobby.pc (.runner i) ≠ .idle)
      (h : s.wg.lobby.next (fun _ => false) (.runner i) = some lobby) :
    Moves foreign s { s with wg := { s.wg with lobby := lobby } }
  | elsewhere {f : Fiber} {lobby : Lobby Fiber Unit WaitGroup.Result} (h : s.wg.lobby.elsewhere f = some lobby) :
    Moves foreign s { s with wg := { s.wg with lobby := lobby } }
  | poke {f : Fiber} : Moves foreign s { s with wg := { s.wg with lobby := s.wg.lobby.poke f } }

theorem moves_of_wait {call : Call} (ho : s.owner = .joining call) (h : s.wait foreign call = some t) :
    Moves foreign s t := by
  unfold State.wait at h
  split at h
  -- A foreign thread reads the counter.
  · cases h
    split
    next hn => exact .joined ho (.inl hn)
    next => exact .poll ho
  · split at h
    next hpc =>
      cases h
      exact .wait ho (.inl hpc)
    next hpc =>
      cases h
      exact .wait ho (.inr hpc)
    next r hpc =>
      cases h
      exact .joined ho (.inr ⟨r, hpc⟩)
    next hidle _ hret =>
      obtain ⟨lobby, hl, rfl⟩ := Option.map_eq_some_iff.mp h
      exact .ownerNext (.inr ⟨call, ho, hidle, hret⟩) hl

theorem moves_of_step (h : step foreign s a = some t) : Moves foreign s t := by
  cases a with
  | spawn =>
    simp only [step] at h
    split at h <;> cases h
    next ho => exact .spawn ho
  | create ok =>
    simp only [step] at h
    split at h <;> cases h
    next i ho hpc =>
      cases ok with
      | true => exact .created ho hpc
      | false => exact .failed ho hpc
  | join call =>
    simp only [step] at h
    split at h <;> cases h
    next ho => exact .join ho
  | owner =>
    simp only [step] at h
    split at h
    next i ho =>
      cases h
      exact .add ho
    next i ho =>
      obtain ⟨lobby, hl, rfl⟩ := Option.map_eq_some_iff.mp h
      exact .ownerNext (.inl ⟨i, ho⟩) hl
    next call ho => exact moves_of_wait ho h
    next => cases h
  | finish i out =>
    simp only [step] at h
    split at h <;> cases h
    next hr => exact .finish hr
  | runner i =>
    simp only [step] at h
    split at h
    next out hr =>
      cases h
      exact .done hr
    next out hr =>
      split at h
      next hpc =>
        cases h
        exact .ended hr hpc
      next hpc =>
        obtain ⟨lobby, hl, rfl⟩ := Option.map_eq_some_iff.mp h
        exact .runnerNext hr hpc hl
    next => cases h
  | elsewhere f =>
    obtain ⟨lobby, hl, rfl⟩ := Option.map_eq_some_iff.mp h
    exact .elsewhere hl
  | poke f =>
    cases h
    exact .poke

/-! ## Where the fibers are in the wait group -/

/-- In no call, or on the way out of `add` or `done`. -/
def inAdd : Place Fiber Unit WaitGroup.Result → Bool
  | .idle | .returned .added | .waking _ .added => true
  | _ => false

/-- In no call, or in `wait`. -/
def inWait : Place Fiber Unit WaitGroup.Result → Bool
  | .idle | .waiting () | .parked () | .woken () | .returned .waited => true
  | _ => false

def OwnerPc.allows : OwnerPc V E → Place Fiber Unit WaitGroup.Result → Bool
  | .idle, p | .adding _, p => p = .idle
  | .creating _, p => p = .idle || p = .returned .added
  | .joining _, p | .returned _, p => inWait p

def RunnerPc.allows : RunnerPc V E → Place Fiber Unit WaitGroup.Result → Bool
  | .leaving _, p => inAdd p
  | _, p => p = .idle

structure Places (s : State V E) : Prop where
  owner : s.owner.allows (s.wg.lobby.pc .owner) = true
  runner : ∀ i, (s.runner i).allows (s.wg.lobby.pc (.runner i)) = true

theorem inWait_toWake {p : Place Fiber Unit WaitGroup.Result} (h : inWait p = true) : p.toWake = [] := by
  cases p <;> first | rfl | cases h

theorem inAdd_finish (fs : List Fiber) : inAdd (.finish fs .added) = true := by
  cases fs <;> rfl

variable {x x' : Lobby Fiber Unit WaitGroup.Result}

theorem inWait_next (h : inWait (x.pc f) = true) (hn : x.next (fun _ => false) f = some x') :
    inWait (x'.pc f) = true := by
  unfold Lobby.next at hn
  split at hn
  next =>
    split at hn
    next hlate => cases hlate
    split at hn <;> cases hn <;> rw [Lobby.goto_self] <;> rfl
  next =>
    cases hn
    rw [Lobby.goto_self]
    rfl
  next hpc =>
    rw [hpc] at h
    cases h
  next =>
    cases hn
    rw [Lobby.goto_self]
    rfl
  next => cases hn

theorem inAdd_next (h : inAdd (x.pc f) = true) (hn : x.next (fun _ => false) f = some x') :
    inAdd (x'.pc f) = true := by
  unfold Lobby.next at hn
  split at hn
  next hpc =>
    rw [hpc] at h
    cases h
  next hpc =>
    rw [hpc] at h
    cases h
  next g fs r hpc =>
    rw [hpc] at h
    cases hn
    rw [Lobby.goto_self]
    cases r with
    | added => exact inAdd_finish fs
    | waited | negative => cases h
  next =>
    cases hn
    rw [Lobby.goto_self]
    rfl
  next => cases hn

/-- The only step out of the guard that the owner has in `spawn` is the return of `add`. -/
theorem creating_next (h : OwnerPc.allows (.creating i : OwnerPc V E) (x.pc f) = true)
    (hn : x.next (fun _ => false) f = some x') : x'.pc f = .idle := by
  rcases Bool.or_eq_true_iff.mp h with h | h
  · simp [Lobby.next, of_decide_eq_true h] at hn
  · simp only [Lobby.next, of_decide_eq_true h, Option.some.injEq] at hn
    rw [← hn]
    exact Lobby.goto_self

/-! ## The books -/

/-- A runner that has not come to its `done`. -/
def RunnerPc.pending : RunnerPc V E → ℤ
  | .running | .finishing _ => 1
  | _ => 0

def RunnerPc.missing : RunnerPc V E → ℤ
  | .absent => 1
  | _ => 0

def OwnerPc.counted : OwnerPc V E → ℤ
  | .creating _ => 1
  | _ => 0

def OwnerPc.spawning : OwnerPc V E → Option ℕ
  | .adding i | .creating i => some i
  | _ => none

def RunnerPc.outcome : RunnerPc V E → Option (Except E V)
  | .finishing out | .leaving out | .ended out => some out
  | _ => none

def resultOf : Option (Except E V) → Option V
  | some (.ok v) => some v
  | _ => none

def errOf : Option (Except E V) → Option E
  | some (.error e) => some e
  | _ => none

structure Books (s : State V E) : Prop where
  counter : s.wg.n = ∑ i ∈ Finset.range s.n, (s.runner i).pending + s.failed + s.owner.counted
  missing : ∑ i ∈ Finset.range s.n, (s.runner i).missing = s.failed + (s.owner.spawning.isSome.toNat : ℤ)
  fresh : ∀ i, s.n ≤ i → s.runner i = .absent
  spawning : ∀ i ∈ s.owner.spawning, i < s.n ∧ s.runner i = .absent
  results : s.results = (List.range s.n).map fun i => resultOf (s.runner i).outcome
  errs : s.errs = (List.range s.n).map fun i => errOf (s.runner i).outcome

theorem RunnerPc.pending_nonneg (r : RunnerPc V E) : 0 ≤ r.pending := by
  unfold pending
  split <;> decide

theorem RunnerPc.missing_nonneg (r : RunnerPc V E) : 0 ≤ r.missing := by
  unfold missing
  split <;> decide

theorem OwnerPc.counted_nonneg (o : OwnerPc V E) : 0 ≤ o.counted := by
  unfold counted
  split <;> decide

theorem Books.lt_of_runner (hB : Books s) (h : s.runner i ≠ .absent) : i < s.n :=
  Nat.lt_of_not_le fun hle => h (hB.fresh i hle)

theorem Books.nonneg (hB : Books s) : 0 ≤ s.wg.n := by
  rw [hB.counter]
  have hsum : 0 ≤ ∑ i ∈ Finset.range s.n, (s.runner i).pending :=
    Finset.sum_nonneg fun i _ => (s.runner i).pending_nonneg
  have hcount := s.owner.counted_nonneg
  omega

theorem Books.pos_of_pending (hB : Books s) (h : (s.runner i).pending = 1) : 1 ≤ s.wg.n := by
  have hi : i < s.n := hB.lt_of_runner fun hr => by rw [hr] at h; cases h
  have hle : (s.runner i).pending ≤ ∑ j ∈ Finset.range s.n, (s.runner j).pending :=
    Finset.single_le_sum (fun j _ => (s.runner j).pending_nonneg) (Finset.mem_range.mpr hi)
  have hcount := s.owner.counted_nonneg
  rw [hB.counter]
  omega

theorem Books.congr (hB : Books s) (hn : t.n = s.n) (hrunner : t.runner = s.runner) (hwg : t.wg.n = s.wg.n)
    (hfailed : t.failed = s.failed) (hcounted : t.owner.counted = s.owner.counted)
    (hspawning : t.owner.spawning = s.owner.spawning) (hresults : t.results = s.results) (herrs : t.errs = s.errs) :
    Books t where
  counter := by rw [hwg, hn, hrunner, hfailed, hcounted, hB.counter]
  missing := by rw [hn, hrunner, hfailed, hspawning, hB.missing]
  fresh i hi := by
    rw [hn] at hi
    rw [hrunner, hB.fresh i hi]
  spawning i hi := by
    rw [hspawning] at hi
    rw [hn, hrunner]
    exact hB.spawning i hi
  results := by rw [hresults, hn, hrunner, hB.results]
  errs := by rw [herrs, hn, hrunner, hB.errs]

theorem set_map_range {α : Type*} (n i : ℕ) (g : ℕ → α) (y : α) :
    ((List.range n).map g).set i y = (List.range n).map (update g i y) := by
  apply List.ext_getElem?
  intro j
  by_cases hj : j < n
  · by_cases hij : i = j
    · subst hij
      simp [hj]
    · rw [List.getElem?_set_ne hij]
      simp [hj, update_of_ne (Ne.symm hij)]
  · simp [hj]

theorem map_update {α : Type*} (g : RunnerPc V E → α) (runner : ℕ → RunnerPc V E) (i : ℕ) (r : RunnerPc V E) :
    (fun j => g (update runner i r j)) = update (fun j => g (runner j)) i (g r) :=
  funext fun j => Function.apply_update (fun _ => g) runner i r j

variable {r : RunnerPc V E}

section

variable (hB : Books s)
include hB

theorem Books.move (hi : i < s.n) (hn : t.n = s.n) (hrunner : t.runner = update s.runner i r)
    (hcounter : t.wg.n - t.failed - t.owner.counted - r.pending =
      s.wg.n - s.failed - s.owner.counted - (s.runner i).pending)
    (hmissing : r.missing - t.failed - (t.owner.spawning.isSome.toNat : ℤ) =
      (s.runner i).missing - s.failed - (s.owner.spawning.isSome.toNat : ℤ))
    (hspawning : ∀ j ∈ t.owner.spawning, j ≠ i ∧ j ∈ s.owner.spawning)
    (hresults : t.results = s.results.set i (resultOf r.outcome))
    (herrs : t.errs = s.errs.set i (errOf r.outcome)) : Books t where
  counter := by
    have hsum := sum_comp_update (Finset.mem_range.mpr hi) RunnerPc.pending s.runner r
    have := hB.counter
    rw [hn, hrunner]
    omega
  missing := by
    have hsum := sum_comp_update (Finset.mem_range.mpr hi) RunnerPc.missing s.runner r
    have := hB.missing
    rw [hn, hrunner]
    omega
  fresh j hj := by
    rw [hn] at hj
    rw [hrunner, update_of_ne (Nat.ne_of_gt (Nat.lt_of_lt_of_le hi hj))]
    exact hB.fresh j hj
  spawning j hj := by
    obtain ⟨hne, hmem⟩ := hspawning j hj
    rw [hn, hrunner, update_of_ne hne]
    exact hB.spawning j hmem
  results := by
    rw [hresults, hB.results, hn, hrunner, map_update (fun r => resultOf r.outcome), set_map_range]
  errs := by
    rw [herrs, hB.errs, hn, hrunner, map_update (fun r => errOf r.outcome), set_map_range]

theorem Books.results_set
    (h : resultOf r.outcome = resultOf (s.runner i).outcome) : s.results.set i (resultOf r.outcome) = s.results := by
  rw [hB.results, set_map_range, h, update_eq_self]

theorem Books.errs_set (h : errOf r.outcome = errOf (s.runner i).outcome) :
    s.errs.set i (errOf r.outcome) = s.errs := by
  rw [hB.errs, set_map_range, h, update_eq_self]

theorem Books.spawning_ne (hr : s.runner i ≠ .absent) : ∀ j ∈ s.owner.spawning, j ≠ i ∧ j ∈ s.owner.spawning := by
  refine fun j hj => ⟨?_, hj⟩
  rintro rfl
  exact hr (hB.spawning j hj).2

theorem Books.spawn (ho : s.owner = .idle) : Books { s with
      n := s.n + 1, results := s.results ++ [none], errs := s.errs ++ [none], owner := .adding s.n } := by
  have habsent : s.runner s.n = .absent := hB.fresh s.n (Nat.le_refl _)
  have hcounter := hB.counter
  have hmissing := hB.missing
  rw [ho] at hcounter hmissing
  refine ⟨?_, ?_, fun j hj => hB.fresh j (Nat.le_of_succ_le hj), ?_, ?_, ?_⟩
  · show s.wg.n = _
    rw [Finset.sum_range_succ, habsent, hcounter]
    simp [RunnerPc.pending, OwnerPc.counted]
  · rw [Finset.sum_range_succ, habsent, hmissing]
    simp [RunnerPc.missing, OwnerPc.spawning]
  · rintro j ⟨⟩
    exact ⟨Nat.lt_succ_self _, habsent⟩
  · rw [List.range_succ, List.map_append, hB.results]
    simp [habsent, RunnerPc.outcome, resultOf]
  · rw [List.range_succ, List.map_append, hB.errs]
    simp [habsent, RunnerPc.outcome, errOf]

theorem Books.created (ho : s.owner = .creating i) : Books ({ s with owner := .idle }.setRunner i .running) := by
  obtain ⟨hi, habsent⟩ := hB.spawning i (by rw [ho]; rfl)
  refine hB.move (i := i) (r := .running) hi rfl rfl ?_ ?_ nofun (hB.results_set ?_).symm (hB.errs_set ?_).symm
  · rw [ho, habsent]
    simp [State.setRunner, OwnerPc.counted, RunnerPc.pending]
  · rw [ho, habsent]
    simp [State.setRunner, OwnerPc.spawning, RunnerPc.missing]
  · rw [habsent]
    rfl
  · rw [habsent]
    rfl

theorem Books.failed (ho : s.owner = .creating i) : Books { s with owner := .idle, failed := s.failed + 1 } := by
  have hcounter := hB.counter
  have hmissing := hB.missing
  rw [ho] at hcounter hmissing
  refine ⟨?_, ?_, hB.fresh, nofun, hB.results, hB.errs⟩
  · simp only [OwnerPc.counted] at hcounter ⊢
    push_cast
    omega
  · simp only [OwnerPc.spawning, Option.isSome_some, Bool.toNat_true, Option.isSome_none, Bool.toNat_false]
      at hmissing ⊢
    push_cast at hmissing ⊢
    omega

theorem Books.add (ho : s.owner = .adding i) :
    Books { s with wg := s.wg.add .owner 1, owner := .creating i } := by
  have hcounter := hB.counter
  have hmissing := hB.missing
  rw [ho] at hcounter hmissing
  refine ⟨?_, hmissing, hB.fresh, fun j hj => hB.spawning j ?_, hB.results, hB.errs⟩
  · simp only [OwnerPc.counted, WaitGroup.add_n] at hcounter ⊢
    omega
  · rw [ho]
    exact hj

theorem Books.finish (hr : s.runner i = .running) (out : Except E V) :
    Books ((s.write i out).setRunner i (.finishing out)) := by
  have hi : i < s.n := hB.lt_of_runner (by rw [hr]; nofun)
  have hspawning := hB.spawning_ne (i := i) (by rw [hr]; nofun)
  cases out with
  | ok v =>
    refine hB.move (i := i) (r := .finishing (.ok v)) hi rfl rfl ?_ ?_ hspawning rfl
      (hB.errs_set (i := i) (r := .finishing (.ok v)) ?_).symm
    · rw [hr]
      rfl
    · rw [hr]
      rfl
    · rw [hr]
      rfl
  | error e =>
    refine hB.move (i := i) (r := .finishing (.error e)) hi rfl rfl ?_ ?_ hspawning
      (hB.results_set (i := i) (r := .finishing (.error e)) ?_).symm rfl
    · rw [hr]
      rfl
    · rw [hr]
      rfl
    · rw [hr]
      rfl

end

variable {out : Except E V}

theorem Books.done (hB : Books s) (hr : s.runner i = .finishing out) :
    Books ({ s with wg := s.wg.done (.runner i) }.setRunner i (.leaving out)) := by
  have hne : s.runner i ≠ .absent := by rw [hr]; nofun
  refine hB.move (i := i) (r := .leaving out) (hB.lt_of_runner hne) rfl rfl ?_ ?_ (hB.spawning_ne hne)
    (hB.results_set ?_).symm (hB.errs_set ?_).symm
  · rw [hr]
    simp only [State.setRunner, WaitGroup.State.done, WaitGroup.add_n, RunnerPc.pending]
    omega
  · rw [hr]
    rfl
  · rw [hr]
    rfl
  · rw [hr]
    rfl

theorem Books.ended (hB : Books s) (hr : s.runner i = .leaving out) : Books (s.setRunner i (.ended out)) := by
  have hne : s.runner i ≠ .absent := by rw [hr]; nofun
  refine hB.move (i := i) (r := .ended out) (hB.lt_of_runner hne) rfl rfl ?_ ?_ (hB.spawning_ne hne)
    (hB.results_set ?_).symm (hB.errs_set ?_).symm
  · rw [hr]
    rfl
  · rw [hr]
    rfl
  · rw [hr]
    rfl
  · rw [hr]
    rfl

theorem Books.moves (hB : Books s) (h : Moves foreign s t) : Books t := by
  cases h with
  | spawn ho => exact hB.spawn ho
  | created ho hpc => exact hB.created ho
  | failed ho hpc => exact hB.failed ho
  | join ho | joined ho hn => exact hB.congr rfl rfl rfl rfl (by rw [ho]; rfl) (by rw [ho]; rfl) rfl rfl
  | add ho => exact hB.add ho
  | wait ho hpc => exact hB.congr rfl rfl (WaitGroup.wait_n ..) rfl rfl rfl rfl rfl
  | poll ho => exact hB
  | finish hr => exact hB.finish hr _
  | done hr => exact hB.done hr
  | ended hr hpc => exact hB.ended hr
  | ownerNext ho hl | runnerNext hr hpc hl | elsewhere hl | poke => exact hB.congr rfl rfl rfl rfl rfl rfl rfl rfl

/-! ## The invariant -/

structure Inv (s : State V E) : Prop where
  books : Books s
  places : Places s
  wg : WaitGroup.Inv s.wg

theorem Places.congr (hP : Places s) (hpc : t.wg.lobby.pc = s.wg.lobby.pc) (howner : t.owner = s.owner)
    (hrunner : t.runner = s.runner) : Places t where
  owner := by
    rw [hpc, howner]
    exact hP.owner
  runner i := by
    rw [hpc, hrunner]
    exact hP.runner i

theorem Places.moveOwner (hP : Places s) (howner : t.owner.allows (t.wg.lobby.pc .owner) = true)
    (hpc : ∀ i, t.wg.lobby.pc (.runner i) = s.wg.lobby.pc (.runner i)) (hrunner : t.runner = s.runner) : Places t where
  owner := howner
  runner i := by
    rw [hpc, hrunner]
    exact hP.runner i

theorem Places.moveRunner (hP : Places s) (howner : t.owner = s.owner)
    (hown : t.wg.lobby.pc .owner = s.wg.lobby.pc .owner)
    (hpc : ∀ j ≠ i, t.wg.lobby.pc (.runner j) = s.wg.lobby.pc (.runner j))
    (hrunner : t.runner = update s.runner i r) (hr : r.allows (t.wg.lobby.pc (.runner i)) = true) :
    Places t where
  owner := by
    rw [howner, hown]
    exact hP.owner
  runner j := by
    by_cases hji : j = i
    · subst hji
      rwa [hrunner, update_self]
    · rw [hrunner, update_of_ne hji, hpc j hji]
      exact hP.runner j

variable {wg : WaitGroup.State Fiber}

theorem add_inAdd {d : ℤ} (h : 0 ≤ wg.n + d) : inAdd ((wg.add f d).lobby.pc f) = true := by
  unfold WaitGroup.State.add
  dsimp only
  split
  next hn => exact absurd h (Int.not_le.mpr hn)
  split
  · rw [WaitGroup.State.goto_self]
    exact inAdd_finish _
  · rw [WaitGroup.State.goto_self]
    rfl

/-- An `add` of the owner brings the counter above zero, and has nobody to wake. -/
theorem add_returned {d : ℤ} (h : 0 < wg.n + d) : (wg.add f d).lobby.pc f = .returned .added := by
  unfold WaitGroup.State.add
  dsimp only
  split
  next hn => omega
  split
  next h0 => omega
  next => rw [WaitGroup.State.goto_self]

theorem wait_inWait : inWait ((wg.wait f).lobby.pc f) = true := by
  unfold WaitGroup.State.wait
  split <;> rw [WaitGroup.State.goto_self] <;> rfl

theorem Places.runner_idle (hP : Places s) (h : ∀ out, s.runner i ≠ .leaving out) :
    s.wg.lobby.pc (.runner i) = .idle := by
  have hallows := hP.runner i
  cases hr : s.runner i with
  | leaving out => exact absurd hr (h out)
  | _ =>
    rw [hr] at hallows
    exact of_decide_eq_true hallows

section

variable (hI : Inv s)
include hI

theorem Inv.created (ho : s.owner = .creating i) (hpc : s.wg.lobby.pc .owner = .idle) :
    Places ({ s with owner := .idle }.setRunner i .running) := by
  have habsent := (hI.books.spawning i (by rw [ho]; rfl)).2
  have hidle : s.wg.lobby.pc (.runner i) = .idle := hI.places.runner_idle fun out h => by rw [habsent] at h; cases h
  have howner : Places { s with owner := .idle } := hI.places.moveOwner (by rw [hpc]; rfl) (fun _ => rfl) rfl
  exact howner.moveRunner (i := i) (r := .running) rfl rfl (fun _ _ => rfl) rfl (decide_eq_true hidle)

theorem Inv.add (ho : s.owner = .adding i) : Inv { s with wg := s.wg.add .owner 1, owner := .creating i } := by
  have hidle : s.wg.lobby.pc .owner = .idle := by
    have := hI.places.owner
    rw [ho] at this
    exact of_decide_eq_true this
  have hpos : 0 < s.wg.n + 1 := by
    have := hI.books.nonneg
    omega
  refine ⟨hI.books.add ho, hI.places.moveOwner ?_ (fun j => ?_) rfl, hI.wg.add (by rw [hidle]; rfl) 1⟩
  · rw [add_returned hpos]
    rfl
  · exact WaitGroup.add_pc_of_ne 1 nofun

theorem Inv.wait {call : Call} (ho : s.owner = .joining call)
    (hpc : s.wg.lobby.pc .owner = .idle ∨ s.wg.lobby.pc .owner = .woken ()) :
    Inv { s with wg := s.wg.wait .owner } := by
  refine ⟨?_, hI.places.moveOwner ?_ (fun j => ?_) rfl, hI.wg.wait ?_⟩
  · exact hI.books.congr rfl rfl (WaitGroup.wait_n ..) rfl rfl rfl rfl rfl
  · show s.owner.allows _ = true
    rw [ho]
    exact wait_inWait
  · exact WaitGroup.wait_pc_of_ne nofun
  · rcases hpc with hpc | hpc <;> rw [hpc] <;> rfl

theorem Inv.done (hr : s.runner i = .finishing out) :
    Inv ({ s with wg := s.wg.done (.runner i) }.setRunner i (.leaving out)) := by
  have hidle : s.wg.lobby.pc (.runner i) = .idle := hI.places.runner_idle fun out h => by rw [hr] at h; cases h
  have hpos := hI.books.pos_of_pending (i := i) (by rw [hr]; rfl)
  refine ⟨hI.books.done hr, ?_, hI.wg.add (by rw [hidle]; rfl) (-1)⟩
  refine hI.places.moveRunner (i := i) (r := .leaving out) rfl ?_ (fun j hj => ?_) rfl (add_inAdd ?_)
  · exact WaitGroup.add_pc_of_ne (-1) nofun
  · exact WaitGroup.add_pc_of_ne (-1) fun h => hj (Fiber.runner.inj h)
  · omega

theorem Inv.ownerNext (ho : (∃ i, s.owner = .creating i) ∨
      ∃ call, s.owner = .joining call ∧ s.wg.lobby.pc .owner ≠ .idle ∧ ∀ r, s.wg.lobby.pc .owner ≠ .returned r)
    (h : s.wg.lobby.next (fun _ => false) .owner = some x) : Inv { s with wg := { s.wg with lobby := x } } := by
  refine ⟨hI.books.congr rfl rfl rfl rfl rfl rfl rfl rfl, hI.places.moveOwner ?_ (fun j => ?_) rfl, ?_⟩
  · have hallows := hI.places.owner
    show s.owner.allows (x.pc .owner) = true
    rcases ho with ⟨i, ho⟩ | ⟨call, ho, -⟩
    · rw [ho] at hallows ⊢
      rw [creating_next hallows h]
      rfl
    · rw [ho] at hallows ⊢
      exact inWait_next hallows h
  · exact Lobby.next_pc_of_ne h nofun
  · exact hI.wg.step (a := .next .owner) (Option.map_eq_some_iff.mpr ⟨x, h, rfl⟩)

theorem Inv.runnerNext (hr : s.runner i = .leaving out)
    (h : s.wg.lobby.next (fun _ => false) (.runner i) = some x) : Inv { s with wg := { s.wg with lobby := x } } := by
  have hallows := hI.places.runner i
  rw [hr] at hallows
  refine ⟨hI.books.congr rfl rfl rfl rfl rfl rfl rfl rfl, ?_, ?_⟩
  · refine hI.places.moveRunner (i := i) (r := .leaving out) rfl ?_ (fun j hj => ?_) ?_ (inAdd_next hallows h)
    · exact Lobby.next_pc_of_ne h nofun
    · exact Lobby.next_pc_of_ne h fun h => hj (Fiber.runner.inj h)
    · rw [← hr, update_eq_self]
  · exact hI.wg.step (a := .next (.runner i)) (Option.map_eq_some_iff.mpr ⟨x, h, rfl⟩)

theorem Inv.moves (h : Moves foreign s t) : Inv t := by
  have hB : Books t := hI.books.moves h
  cases h with
  | spawn ho | joined ho hn =>
    refine ⟨hB, hI.places.moveOwner ?_ (fun _ => rfl) rfl, hI.wg⟩
    have := hI.places.owner
    rwa [ho] at this
  | created ho hpc => exact ⟨hB, hI.created ho hpc, hI.wg⟩
  | failed ho hpc => exact ⟨hB, hI.places.moveOwner (by rw [hpc]; rfl) (fun _ => rfl) rfl, hI.wg⟩
  | join ho =>
    refine ⟨hB, hI.places.moveOwner ?_ (fun _ => rfl) rfl, hI.wg⟩
    have := hI.places.owner
    rw [ho] at this
    rw [of_decide_eq_true this]
    rfl
  | add ho => exact hI.add ho
  | wait ho hpc => exact hI.wait ho hpc
  | poll ho => exact hI
  | @finish i out hr =>
    have hidle : s.wg.lobby.pc (.runner i) = .idle := hI.places.runner_idle fun out h => by rw [hr] at h; cases h
    cases out with
    | ok v | error e =>
      exact ⟨hB, hI.places.moveRunner rfl rfl (fun _ _ => rfl) rfl (decide_eq_true hidle), hI.wg⟩
  | done hr => exact hI.done hr
  | ended hr hpc =>
    exact ⟨hB, hI.places.moveRunner rfl rfl (fun _ _ => rfl) rfl (decide_eq_true hpc), hI.wg⟩
  | ownerNext ho hl => exact hI.ownerNext ho hl
  | runnerNext hr hpc hl => exact hI.runnerNext hr hl
  | @elsewhere f _ hl =>
    refine ⟨hB, hI.places.congr (Lobby.elsewhere_pc hl) rfl rfl, ?_⟩
    exact hI.wg.step (a := .elsewhere f) (Option.map_eq_some_iff.mpr ⟨_, hl, rfl⟩)
  | @poke f => exact ⟨hB, hI.places.congr rfl rfl rfl, hI.wg.step (a := .poke f) rfl⟩

end

theorem Inv.init (h : Init s) : Inv s where
  books := {
    counter := by simp [h.wg.n, h.n, h.failed, h.owner, OwnerPc.counted]
    missing := by simp [h.n, h.failed, h.owner, OwnerPc.spawning]
    fresh := fun i _ => h.runner i
    spawning := by simp [h.owner, OwnerPc.spawning]
    results := by simp [h.results, h.n]
    errs := by simp [h.errs, h.n] }
  places := {
    owner := by
      rw [h.owner, h.wg.pc]
      rfl
    runner := fun i => by
      rw [h.runner, h.wg.pc]
      rfl }
  wg := WaitGroup.Inv.init h.wg

theorem inv_of_reachable (h : (joinSet V E foreign).Reachable s) : Inv s :=
  h.invariant (fun _ hs => Inv.init hs) fun _ _ _ hI _ hs => hI.moves (moves_of_step hs)

end Runloom.JoinSet
