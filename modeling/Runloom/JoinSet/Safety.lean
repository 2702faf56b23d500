import Runloom.JoinSet.Invariant

/-!
# The join set: when `join_all` returns

Where the creation of a runner raises, its task stays counted in the wait group, and nobody is there to take it off.
So the wait ends if and only if no spawn failed; the places of the results are then those of the tasks, in spawn
order.
-/

namespace Runloom.JoinSet

open Transition Handoff List

variable {V E : Type*} {foreign : Bool} {s t : State V E} {i : ℕ} {f : Fiber}

/-! ## After the wait the counter is zero -/

def State.Waited (s : State V E) : Prop :=
  s.wg.lobby.pc .owner = .returned .waited ∨ ∃ out, s.owner = .returned out

variable {call : Call}

theorem zero_of_joined (hI : Inv s) (hz : s.Waited → s.wg.n = 0) (ho : s.owner = .joining call)
    (hn : s.wg.n = 0 ∨ ∃ r, s.wg.lobby.pc .owner = .returned r) : s.wg.n = 0 := by
  rcases hn with hn | ⟨r, hr⟩
  · exact hn
  · apply hz
    have hallows := hI.places.owner
    rw [ho, hr] at hallows
    cases r with
    | waited => exact .inl hr
    | added | negative => cases hallows

theorem waited_moves (hI : Inv s) (hz : s.Waited → s.wg.n = 0) (h : Moves foreign s t) (hw : t.Waited) :
    t.wg.n = 0 := by
  cases h with
  | spawn ho | created ho hpc | failed ho hpc | join ho => exact hz (hw.imp id nofun)
  | add ho =>
    have hpos : 0 < s.wg.n + 1 := by
      have := hI.books.nonneg
      omega
    rcases hw with hw | ⟨out, hw⟩
    · rw [add_returned hpos] at hw
      cases hw
    · cases hw
  | wait ho hpc =>
    rcases hw with hw | ⟨out, hw⟩
    · rw [WaitGroup.wait_n]
      exact WaitGroup.zero_of_waited hw
    · rw [show s.owner = .returned out from hw] at ho
      cases ho
  | poll ho | ended hr hpc | poke => exact hz hw
  | joined ho hn =>
    show s.wg.n = 0
    exact zero_of_joined hI hz ho hn
  | @finish i out hr => cases out <;> exact hz hw
  | @done i out hr =>
    have hpos := hI.books.pos_of_pending (i := i) (by rw [hr]; rfl)
    have hold : s.Waited := by
      refine hw.imp (fun hw => ?_) id
      rwa [← WaitGroup.add_pc_of_ne (-1) (s := s.wg) (f := .runner i) (g := .owner) nofun]
    have := hz hold
    omega
  | ownerNext ho hl | runnerNext hr hpc hl =>
    exact hz (hw.imp (hI.wg.wakers.returned_of_next hl nofun) id)
  | elsewhere hl =>
    refine hz (hw.imp (fun hw => ?_) id)
    rwa [← Lobby.elsewhere_pc hl]

theorem zero_of_waited (h : (joinSet V E foreign).Reachable s) (hw : s.Waited) : s.wg.n = 0 := by
  have hboth : Inv s ∧ (s.Waited → s.wg.n = 0) :=
    h.invariant (P := fun s => Inv s ∧ (s.Waited → s.wg.n = 0))
      (fun s (hs : Init s) => ⟨Inv.init hs, fun _ => hs.wg.n⟩)
      fun _ _ _ hI _ hs => ⟨hI.1.moves (moves_of_step hs), waited_moves hI.1 hI.2 (moves_of_step hs)⟩
  exact hboth.2 hw

theorem Books.failed_le (hB : Books s) : (s.failed : ℤ) ≤ s.wg.n := by
  rw [hB.counter]
  have hsum : 0 ≤ ∑ i ∈ Finset.range s.n, (s.runner i).pending :=
    Finset.sum_nonneg fun i _ => (s.runner i).pending_nonneg
  have hcount := s.owner.counted_nonneg
  omega

theorem failed_mono (h : Moves foreign s t) : s.failed ≤ t.failed := by
  cases h with
  | failed ho hpc => exact Nat.le_succ _
  | @finish i out hr => cases out <;> exact Nat.le_refl _
  | _ => exact Nat.le_refl _

/-! ## What the owner gets -/

def State.AllEnded (s : State V E) : Prop :=
  ∀ i, s.runner i = .absent ∨ ∃ out, s.runner i = .ended out

def State.outcomes (s : State V E) : List (Except E V) :=
  (List.range s.n).filterMap fun i => (s.runner i).outcome

def gather : List (Except E V) → Except E (List V)
  | [] => .ok []
  | .error e :: _ => .error e
  | .ok v :: outs => (gather outs).map (v :: ·)

def expected (outs : List (Except E V)) : Call → Joined V E
  | .joinAll =>
    match gather outs with
    | .error e => .raised e
    | .ok vs => .results (vs.map some)
  | .exit raised =>
    if raised then .exited
    else
      match gather outs with
      | .error e => .raised e
      | .ok _ => .exited

theorem gather_spec (outs : List (Except E V)) :
    match gather outs with
    | .error e => (outs.map fun out => errOf (some out)).findSome? id = some e
    | .ok vs => (outs.map fun out => errOf (some out)).findSome? id = none ∧
        (outs.map fun out => resultOf (some out)) = vs.map some := by
  induction outs with
  | nil => exact ⟨rfl, rfl⟩
  | cons out outs ih =>
    cases out with
    | error e => rfl
    | ok v =>
      rw [gather]
      cases hg : gather outs with
      | error e =>
        rw [hg] at ih
        simpa [Except.map, errOf] using ih
      | ok vs =>
        rw [hg] at ih
        refine ⟨by simpa [errOf] using ih.1, ?_⟩
        simpa [Except.map, resultOf] using ih.2

theorem Books.map_outcomes (hB : Books s) (ho : s.owner = .joining call) (hended : s.AllEnded)
    (hf : s.failed = 0) {α : Type*} (g : Option (Except E V) → α) :
    (List.range s.n).map (fun i => g (s.runner i).outcome) = s.outcomes.map fun out => g (some out) := by
  have hmissing : ∑ i ∈ Finset.range s.n, (s.runner i).missing = 0 := by
    rw [hB.missing, ho, hf]
    rfl
  have hsome : ∀ i ∈ List.range s.n, ∃ out, (s.runner i).outcome = some out := by
    intro i hi
    rcases hended i with habsent | ⟨out, hout⟩
    · have hle : (s.runner i).missing ≤ ∑ j ∈ Finset.range s.n, (s.runner j).missing :=
        Finset.single_le_sum (fun j _ => (s.runner j).missing_nonneg) (Finset.mem_range.mpr (mem_range.mp hi))
      rw [habsent, hmissing] at hle
      exact absurd hle (show ¬(1 : ℤ) ≤ 0 by decide)
    · exact ⟨out, by rw [hout]; rfl⟩
  unfold State.outcomes
  generalize List.range s.n = is at hsome
  induction is with
  | nil => rfl
  | cons i is ih =>
    obtain ⟨out, hout⟩ := hsome i mem_cons_self
    rw [map_cons, filterMap_cons, hout, map_cons, ih fun j hj => hsome j (mem_cons_of_mem i hj)]

theorem collect_eq (hB : Books s) (ho : s.owner = .joining call) (hended : s.AllEnded)
    (hf : s.failed = 0) : s.collect call = expected s.outcomes call := by
  have herrs : s.errs = s.outcomes.map fun out => errOf (some out) := by
    rw [hB.errs]
    exact hB.map_outcomes ho hended hf errOf
  have hresults : s.results = s.outcomes.map fun out => resultOf (some out) := by
    rw [hB.results]
    exact hB.map_outcomes ho hended hf resultOf
  have hgather := gather_spec s.outcomes
  cases hg : gather s.outcomes with
  | error e =>
    rw [hg] at hgather
    cases call with
    | joinAll | exit raised => simp [State.collect, expected, herrs, hg, hgather]
  | ok vs =>
    rw [hg] at hgather
    cases call with
    | joinAll => simp only [State.collect, expected, herrs, hresults, hg, hgather.1, hgather.2]
    | exit raised => simp only [State.collect, expected, herrs, hg, hgather.1]

theorem Books.counter_of_ended (hB : Books s) (ho : s.owner = .joining call) (hended : s.AllEnded) :
    s.wg.n = s.failed := by
  have hsum : ∑ i ∈ Finset.range s.n, (s.runner i).pending = 0 := by
    refine Finset.sum_eq_zero fun i _ => ?_
    rcases hended i with h | ⟨out, h⟩ <;> rw [h] <;> rfl
  rw [hB.counter, hsum, ho]
  simp [OwnerPc.counted]

def State.Stranded (s : State V E) : Prop :=
  (s.wg.lobby.pc .owner).sleeps.isSome ∧ s.wg.lobby.credit .owner = 0

theorem Inv.toWake_of_ended (hI : Inv s) (ho : s.owner = .joining call) (hended : s.AllEnded)
    (f : Fiber) : (s.wg.lobby.pc f).toWake = [] := by
  cases f with
  | owner =>
    have hallows := hI.places.owner
    rw [ho] at hallows
    exact inWait_toWake hallows
  | runner i =>
    rw [hI.places.runner_idle fun out h => ?_]
    · rfl
    · rcases hended i with hr | ⟨out', hr⟩ <;> rw [hr] at h <;> cases h

theorem Inv.not_stranded (hI : Inv s) (ho : s.owner = .joining call) (hended : s.AllEnded)
    (hf : s.failed = 0) : ¬s.Stranded := by
  rintro ⟨hsleeps, hcredit⟩
  have hn : s.wg.n = 0 := by rw [hI.books.counter_of_ended ho hended, hf]; rfl
  obtain ⟨u, hu⟩ := Option.isSome_iff_exists.mp hsleeps
  have := hI.wg.safe.credit_pos hu (hI.wg.zero hn) (hI.toWake_of_ended ho hended)
  omega

section OwnerRun

variable {call : Call}

section

variable (ho : s.owner = .joining call)
include ho

theorem returned_run (hpc : ∃ r, s.wg.lobby.pc .owner = .returned r) :
    ∃ t, (joinSet V E false).run s [.owner] = some t ∧ t.owner = .returned (s.collect call) := by
  obtain ⟨r, hpc⟩ := hpc
  refine ⟨{ s with owner := .returned (s.collect call) }, ?_, rfl⟩
  rw [System.run_cons (by simp only [joinSet, step, ho, State.wait, hpc]; rfl)]
  rfl

theorem look_run (hn : s.wg.n = 0) (hpc : s.wg.lobby.pc .owner = .idle ∨ s.wg.lobby.pc .owner = .woken ()) :
    ∃ t, (joinSet V E false).run s [.owner, .owner] = some t ∧ t.owner = .returned (s.collect call) := by
  have hstep : (joinSet V E false).step s .owner = some { s with wg := s.wg.wait .owner } := by
    rcases hpc with hpc | hpc <;> simp only [joinSet, step, ho, State.wait, hpc] <;> rfl
  rw [System.run_cons hstep]
  refine returned_run (s := { s with wg := s.wg.wait .owner }) ho ⟨.waited, ?_⟩
  show (s.wg.wait .owner).lobby.pc .owner = _
  rw [WaitGroup.State.wait, if_pos hn]
  exact WaitGroup.State.goto_self ..

theorem sleep_run (hn : s.wg.n = 0) (hpc : s.wg.lobby.pc .owner = .waiting () ∨ s.wg.lobby.pc .owner = .parked ())
    (hcredit : 0 < s.wg.lobby.credit .owner) :
    ∃ t, (joinSet V E false).run s [.owner, .owner, .owner] = some t ∧ t.owner = .returned (s.collect call) := by
  have hstep : (joinSet V E false).step s .owner =
      some { s with wg := { s.wg with lobby := (s.wg.lobby.eat .owner).goto .owner (.woken ()) } } := by
    rcases hpc with hpc | hpc
    · simp only [joinSet, step, ho, State.wait, hpc, State.wgNext, Lobby.next]
      simp [hcredit]
    · simp only [joinSet, step, ho, State.wait, hpc, State.wgNext, Lobby.next]
      rfl
  rw [System.run_cons hstep]
  exact look_run (s := { s with wg := { s.wg with lobby := _ } }) ho hn (.inr Lobby.goto_self)

end

end OwnerRun

theorem Inv.owner_run (hI : Inv s) (foreign : Bool) (ho : s.owner = .joining call)
    (hended : s.AllEnded) (hf : s.failed = 0) :
    ∃ k ≤ 3, ∃ t, (joinSet V E foreign).run s (List.replicate k .owner) = some t ∧
      t.owner = .returned (s.collect call) := by
  have hn : s.wg.n = 0 := by rw [hI.books.counter_of_ended ho hended, hf]; rfl
  cases foreign with
  | true =>
    refine ⟨1, by decide, { s with owner := .returned (s.collect call) }, ?_, rfl⟩
    show (joinSet V E true).run s [.owner] = _
    rw [System.run_cons (by simp only [joinSet, step, ho, State.wait, hn, if_true]; rfl)]
    rfl
  | false =>
    have hallows := hI.places.owner
    rw [ho] at hallows
    have hcredit : (s.wg.lobby.pc .owner).sleeps.isSome → 0 < s.wg.lobby.credit .owner := fun hs =>
      Nat.pos_of_ne_zero fun h0 => hI.not_stranded ho hended hf ⟨hs, h0⟩
    cases hpc : s.wg.lobby.pc .owner with
    | idle => exact ⟨2, by decide, look_run ho hn (.inl hpc)⟩
    | waiting u => exact ⟨3, by decide, sleep_run ho hn (.inl hpc) (hcredit (by rw [hpc]; rfl))⟩
    | parked u => exact ⟨3, by decide, sleep_run ho hn (.inr hpc) (hcredit (by rw [hpc]; rfl))⟩
    | woken u => exact ⟨2, by decide, look_run ho hn (.inr hpc)⟩
    | returned r => exact ⟨1, by decide, returned_run ho ⟨r, hpc⟩⟩
    | _ =>
      rw [hpc] at hallows
      cases hallows

theorem not_returned_of_failed (h : (joinSet V E foreign).Reachable s) (hf : s.failed ≠ 0)
    {as : List (Action V E)} (hrun : (joinSet V E foreign).run s as = some t) (out : Joined V E) :
    t.owner ≠ .returned out := by
  intro hout
  have ht : (joinSet V E foreign).Reachable t := h.run (System.meets_true as) hrun
  have hle : s.failed ≤ t.failed :=
    System.run_invariant (M := joinSet V E foreign) (P := fun u => s.failed ≤ u.failed)
      (fun _ _ _ hu hs => hu.trans (failed_mono (moves_of_step hs))) (Nat.le_refl _) hrun
  have hfailed := (inv_of_reachable ht).books.failed_le
  rw [zero_of_waited ht (.inr ⟨out, hout⟩)] at hfailed
  omega

/-- With all tasks ended, the owner returns by its own steps iff no spawn failed. -/
theorem join_returns_iff_none_failed {call : Call} (h : (joinSet V E foreign).Reachable s)
    (ho : s.owner = .joining call) (hended : s.AllEnded) :
    ((¬s.Stranded ∧ ∃ k t, (joinSet V E foreign).run s (List.replicate k .owner) = some t ∧
      t.owner = .returned (expected s.outcomes call)) ↔ s.failed = 0) ∧
    (s.failed ≠ 0 → ∀ as t out, (joinSet V E foreign).run s as = some t → t.owner ≠ .returned out) := by
  have hI := inv_of_reachable h
  refine ⟨⟨fun hret => ?_, fun hf => ⟨hI.not_stranded ho hended hf, ?_⟩⟩, fun hf as t out hrun => ?_⟩
  · by_contra hf
    obtain ⟨-, k, t, hrun, hout⟩ := hret
    exact not_returned_of_failed h hf hrun _ hout
  · obtain ⟨k, -, t, hrun, hout⟩ := hI.owner_run foreign ho hended hf
    rw [collect_eq hI.books ho hended hf] at hout
    exact ⟨k, t, hrun, hout⟩
  · exact not_returned_of_failed h hf hrun out

def fresh : State ℕ ℕ where
  wg := ⟨0, [], ⟨fun _ => .idle, fun _ => 0⟩⟩
  results := []
  errs := []
  n := 0
  owner := .idle
  runner _ := .absent
  failed := 0

theorem fresh_init : (joinSet ℕ ℕ foreign).init fresh :=
  ⟨⟨rfl, rfl, fun _ => rfl⟩, rfl, rfl, rfl, rfl, fun _ => rfl, rfl⟩

/-- One `spawn`, up to the creation of the runner. -/
def spawn (ok : Bool) : List (Action ℕ ℕ) := [.spawn, .owner, .owner, .create ok]

/-- The second ends first, and the first with an error while the owner sleeps; `join_all` raises it. -/
theorem join_returns_iff_none_failed_twoTasks :
    ∃ s, (joinSet ℕ ℕ false).Reachable s ∧ s.outcomes = [.error 7, .ok 5] ∧
      ∃ k t, (joinSet ℕ ℕ false).run s (List.replicate k .owner) = some t ∧ t.owner = .returned (.raised 7) := by
  obtain ⟨s, hr, ho, hn, hf, h0, h1⟩ := (joinSet ℕ ℕ false).reaches
    (fun s => s.owner = .joining .joinAll ∧ s.n = 2 ∧ s.failed = 0 ∧
      s.runner 0 = .ended (.error 7) ∧ s.runner 1 = .ended (.ok 5))
    (spawn true ++ spawn true ++ [Action.join .joinAll, .owner, .owner, .finish 1 (.ok 5), .runner 1, .runner 1,
      .runner 1, .finish 0 (.error 7), .runner 0, .runner 0, .runner 0, .runner 0]) fresh_init (by decide +kernel)
  have hended : s.AllEnded := by
    intro i
    match i with
    | 0 => exact .inr ⟨_, h0⟩
    | 1 => exact .inr ⟨_, h1⟩
    | i + 2 => exact .inl ((inv_of_reachable hr).books.fresh _ (by omega))
  have houtcomes : s.outcomes = [.error 7, .ok 5] := by
    simp [State.outcomes, hn, range_succ, h0, h1, RunnerPc.outcome]
  obtain ⟨-, k, t, hrun, hout⟩ := (join_returns_iff_none_failed hr ho hended).1.mpr hf
  rw [houtcomes] at hout
  exact ⟨s, hr, houtcomes, k, t, hrun, hout⟩

/-- The one spawn fails, and the owner sleeps in `join_all` with nobody to wake it. -/
theorem join_stranded_after_failed_spawn :
    ∃ s, (joinSet ℕ ℕ false).Reachable s ∧ s.owner = .joining .joinAll ∧ s.AllEnded ∧ s.outcomes = [] ∧
      s.Stranded ∧ (∀ f, (s.wg.lobby.pc f).toWake = []) ∧
      ∀ as t out, (joinSet ℕ ℕ false).run s as = some t → t.owner ≠ .returned out := by
  obtain ⟨s, hr, ho, hn, hf, h0, hpc, hcredit⟩ := (joinSet ℕ ℕ false).reaches
    (fun s => s.owner = .joining .joinAll ∧ s.n = 1 ∧ s.failed = 1 ∧ s.runner 0 = .absent ∧
      s.wg.lobby.pc .owner = .parked () ∧ s.wg.lobby.credit .owner = 0)
    (spawn false ++ [Action.join .joinAll, .owner, .owner]) fresh_init (by decide +kernel)
  have hI := inv_of_reachable hr
  have hended : s.AllEnded := by
    intro i
    match i with
    | 0 => exact .inl h0
    | i + 1 => exact .inl (hI.books.fresh _ (by omega))
  refine ⟨s, hr, ho, hended, ?_, ⟨by rw [hpc]; rfl, hcredit⟩, hI.toWake_of_ended ho hended, fun as t out hrun => ?_⟩
  · simp [State.outcomes, hn, range_succ, h0, RunnerPc.outcome]
  · exact not_returned_of_failed hr (by omega) hrun out

end Runloom.JoinSet
