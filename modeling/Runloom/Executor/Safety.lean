import Runloom.Executor.Model
import Runloom.Transition.Ledger

/-!
# The initializer and the workers

One task is elected to run the initializer; where that stands is the *stage* of the pool.  The other tasks wait until
the stage is settled, and then either all of them go on or all of them find the pool broken.
-/

namespace Runloom.Executor

open Transition

variable {C : Type*}

/-! ## The stage -/

inductive Stage (C : Type*) where
  | before
  | calling (c : C)
  | running (c : C)
  /-- The initializer has raised, and `_broken` is not stored. -/
  | unpublished (c : C)
  /-- Before `_init_done` is set. -/
  | finishing (c : C) (ok : Bool)
  | settled (ok : Bool)

def Stage.place : Stage C → Option (C × Pc)
  | .before | .settled _ => none
  | .calling c => some (c, .initCall)
  | .running c => some (c, .initRunning)
  | .unpublished c => some (c, .publish)
  | .finishing c ok => some (c, .setDone ok)

/-- The elected task is in `_run_initializer`, past the election. -/
def Pc.elected : Pc → Bool
  | .initCall | .initRunning | .publish | .setDone _ => true
  | _ => false

namespace Stage

def started : Stage C → Bool
  | .before => false
  | _ => true

def done : Stage C → Bool
  | .settled _ => true
  | _ => false

def broken : Stage C → Bool
  | .finishing _ ok | .settled ok => !ok
  | _ => false

def calls : Stage C → ℕ
  | .before | .calling _ => 0
  | _ => 1

def returned : Stage C → Bool
  | .finishing _ ok | .settled ok => ok
  | _ => false

def raised : Stage C → Bool
  | .unpublished _ => true
  | .finishing _ ok | .settled ok => !ok
  | _ => false

theorem calls_le_one (st : Stage C) : st.calls ≤ 1 := by
  cases st with
  | before | calling c => exact Nat.zero_le 1
  | _ => exact Nat.le_refl 1

/-- The fields of the pool are those of the stage. -/
structure Shows (st : Stage C) (s : State C) : Prop where
  started : s.initStarted = st.started
  done : s.initDone = st.done
  broken : s.broken = st.broken
  calls : s.calls = st.calls
  returned : s.returned = st.returned
  raised : s.raised = st.raised

end Stage

def Pc.Knows (st : Stage C) : Pc → Prop
  | .isBroken => ∃ ok, st = .settled ok
  | .fnCall | .fnRunning => st = .settled true
  | .settle o | .release o | .taskDone o | .ended o =>
    match o with
    | .cancelled => True
    | .broken => (∃ c, st = .finishing c false) ∨ st = .settled false
    | .result | .error => st = .settled true
  | _ => True

def Pc.holding : Pc → Bool
  | .start | .isDone | .isBroken | .elect | .await | .initCall | .initRunning | .publish | .setDone _ | .fnCall
  | .fnRunning | .settle _ | .release _ => true
  | _ => false

structure Inv (maxWorkers : ℕ) (st : Stage C) (s : State C) : Prop where
  workers : 0 < maxWorkers
  shows : st.Shows s
  place : ∀ c, (s.pc c).elected = true → st.place = some (c, s.pc c)
  placed : ∀ c p, st.place = some (c, p) → s.pc c = p
  knows : ∀ c, (s.pc c).Knows st
  permits : Counted (fun c => (s.pc c).holding = true) (maxWorkers - s.sem)

variable {maxWorkers : ℕ} {st st' : Stage C} {s s' : State C} {c : C} {pc pc₀ : Pc}

theorem elected_of_place (h : st.place = some (c, pc)) : pc.elected = true := by
  cases st with
  | before | settled ok => cases h
  | calling d | running d | unpublished d | finishing d ok =>
    cases h
    rfl

theorem eq_settled_of_done (h : st.done = true) : ∃ ok, st = .settled ok := by
  cases st with
  | settled ok => exact ⟨ok, rfl⟩
  | _ => cases h

theorem failed_of_broken (h : st.broken = true) : (∃ c, st = .finishing c false) ∨ st = .settled false := by
  cases st with
  | finishing c ok =>
    cases ok with
    | true => cases h
    | false => exact .inl ⟨c, rfl⟩
  | settled ok =>
    cases ok with
    | true => cases h
    | false => exact .inr rfl
  | _ => cases h

theorem Pc.Knows.grow (h : pc.Knows st) (hsettled : ∀ ok, st ≠ .settled ok)
    (hfailed : ∀ c, st = .finishing c false → st' = .settled false) : pc.Knows st' := by
  have hout : ∀ o, (Pc.settle o).Knows st → (Pc.settle o).Knows st' := by
    intro o ho
    cases o with
    | cancelled => trivial
    | broken =>
      rcases ho with ⟨c, hc⟩ | hset
      · exact .inr (hfailed c hc)
      · exact absurd hset (hsettled _)
    | result | error => exact absurd ho (hsettled _)
  cases pc with
  | isBroken =>
    obtain ⟨ok, hok⟩ := h
    exact absurd hok (hsettled ok)
  | fnCall | fnRunning => exact absurd h (hsettled _)
  | settle o | release o | taskDone o | ended o => exact hout o h
  | _ => trivial

theorem Inv.init (h : 0 < maxWorkers) (hs : Init maxWorkers s) : Inv maxWorkers .before s where
  workers := h
  shows := ⟨hs.initStarted, hs.initDone, hs.broken, hs.calls, hs.returned, hs.raised⟩
  place c hc := by
    rw [hs.pc] at hc
    cases hc
  placed c p hp := by cases hp
  knows c := by
    rw [hs.pc]
    trivial
  permits := by
    rw [hs.sem, Int.sub_self]
    apply counted_zero
    intro c hc
    rw [hs.pc] at hc
    cases hc

/-! ## One task moves -/

variable [DecidableEq C]

section

variable (hI : Inv maxWorkers st s)
include hI

/-- The permits, when `c` moves and neither takes one nor gives one back. -/
theorem Inv.permits_same (hpc₀ : s.pc c = pc₀) (hpc : s'.pc = update s.pc c pc)
    (hhold : pc.holding = pc₀.holding) (hsem : s'.sem = s.sem) :
    Counted (fun c => (s'.pc c).holding = true) (maxWorkers - s'.sem) := by
  rw [hsem]
  refine hI.permits.congr fun d => ?_
  by_cases hdc : d = c
  · rw [hpc, hdc, update_self, hhold, hpc₀]
  · rw [hpc, update_of_ne hdc]

theorem Inv.move (hpc₀ : s.pc c = pc₀) (hpc : s'.pc = update s.pc c pc)
    (hshows : st.Shows s') (hel₀ : pc₀.elected = false) (hel : pc.elected = false) (hknows : pc.Knows st)
    (hpermits : Counted (fun c => (s'.pc c).holding = true) (maxWorkers - s'.sem)) :
    Inv maxWorkers st s' where
  workers := hI.workers
  shows := hshows
  place d hd := by
    by_cases hdc : d = c
    · rw [hpc, hdc, update_self, hel] at hd
      cases hd
    · rw [hpc, update_of_ne hdc] at hd ⊢
      exact hI.place d hd
  placed d p hp := by
    have hd := hI.placed d p hp
    have hdc : d ≠ c := by
      rintro rfl
      have := elected_of_place hp
      rw [← hd, hpc₀, hel₀] at this
      cases this
    rw [hpc, update_of_ne hdc]
    exact hd
  knows d := by
    by_cases hdc : d = c
    · rw [hpc, hdc, update_self]
      exact hknows
    · rw [hpc, update_of_ne hdc]
      exact hI.knows d
  permits := hpermits

theorem Inv.advance (hpc₀ : s.pc c = pc₀) (hpc : s'.pc = update s.pc c pc)
    (hshows : st'.Shows s') (hplace₀ : st.place = none ∨ st.place = some (c, pc₀))
    (hplace : st'.place = if pc.elected then some (c, pc) else none)
    (hgrow : ∀ p : Pc, p.Knows st → p.Knows st') (hknows : pc.Knows st')
    (hhold : pc.holding = pc₀.holding) (hsem : s'.sem = s.sem) : Inv maxWorkers st' s' where
  workers := hI.workers
  shows := hshows
  place d hd := by
    by_cases hdc : d = c
    · rw [hpc, hdc, update_self] at hd ⊢
      rw [hplace, if_pos hd]
    · rw [hpc, update_of_ne hdc] at hd
      have := hI.place d hd
      rcases hplace₀ with hnone | hsome
      · rw [hnone] at this
        cases this
      · rw [hsome] at this
        exact absurd (congrArg Prod.fst (Option.some.inj this)).symm hdc
  placed d p hp := by
    rw [hplace] at hp
    split at hp <;> cases hp
    rw [hpc, update_self]
  knows d := by
    by_cases hdc : d = c
    · rw [hpc, hdc, update_self]
      exact hknows
    · rw [hpc, update_of_ne hdc]
      exact hgrow _ (hI.knows d)
  permits := hI.permits_same hpc₀ hpc hhold hsem

theorem Inv.acquire (hpc : s.pc c = .acquire) (hpos : 0 < s.sem) :
    Inv maxWorkers st ({ s with sem := s.sem - 1 }.goto c .start) := by
  refine hI.move hpc rfl { hI.shows with } rfl rfl trivial ?_
  have hsem : ((maxWorkers : ℤ) - (s.sem - 1 : ℕ)) = maxWorkers - s.sem + 1 := by omega
  show Counted _ ((maxWorkers : ℤ) - (s.sem - 1 : ℕ))
  rw [hsem]
  refine hI.permits.gain (x := c) (fun h => ?_) fun d => ?_
  · rw [hpc] at h
    cases h
  · by_cases hdc : d = c
    · refine iff_of_true ?_ (.inl hdc)
      simp only [State.goto, hdc, update_self]
      rfl
    · simp only [State.goto, update_of_ne hdc]
      rw [or_iff_right hdc]

theorem Inv.release {o : Outcome} (hpc : s.pc c = .release o) :
    Inv maxWorkers st ({ s with sem := s.sem + 1 }.goto c (.taskDone o)) := by
  have hknows := hI.knows c
  rw [hpc] at hknows
  refine hI.move hpc rfl { hI.shows with } rfl rfl hknows ?_
  have hsem : ((maxWorkers : ℤ) - (s.sem + 1 : ℕ)) = maxWorkers - s.sem - 1 := by omega
  show Counted _ ((maxWorkers : ℤ) - (s.sem + 1 : ℕ))
  rw [hsem]
  refine hI.permits.lose (x := c) ?_ fun d => ?_
  · rw [hpc]
    rfl
  · by_cases hdc : d = c
    · refine iff_of_false ?_ fun h => h.1 hdc
      simp only [State.goto, hdc, update_self]
      exact fun h => by cases h
    · simp only [State.goto, update_of_ne hdc]
      rw [and_iff_right hdc]

theorem Inv.goto (hpc₀ : s.pc c = pc₀) (hel₀ : pc₀.elected = false)
    (hel : pc.elected = false) (hhold : pc.holding = pc₀.holding) (hknows : pc.Knows st) :
    Inv maxWorkers st (s.goto c pc) :=
  hI.move hpc₀ rfl { hI.shows with } hel₀ hel hknows (hI.permits_same hpc₀ rfl hhold rfl)

theorem Inv.elect (hpc : s.pc c = .elect) (hstarted : ¬s.initStarted = true) :
    Inv maxWorkers (.calling c) ({ s with initStarted := true }.goto c .initCall) := by
  have hbefore : st = .before := by
    rw [hI.shows.started] at hstarted
    cases st with
    | before => rfl
    | _ => exact absurd rfl hstarted
  subst hbefore
  have hshows := hI.shows
  exact hI.advance hpc rfl
    ⟨rfl, hshows.done, hshows.broken, hshows.calls, hshows.returned, hshows.raised⟩ (.inl rfl) rfl
    (fun p hp => hp.grow (fun ok h => by cases h) fun d h => by cases h) trivial rfl rfl

end

theorem Inv.setDone {ok : Bool} (hI : Inv maxWorkers (.finishing c ok) s) (hpc : s.pc c = .setDone ok) :
    Inv maxWorkers (.settled ok)
      ({ s with initDone := true }.goto c (if ok then .fnCall else .settle .broken)) := by
  have hshows := hI.shows
  have hshows' : (Stage.settled ok : Stage C).Shows
      ({ s with initDone := true }.goto c (if ok then .fnCall else .settle .broken)) :=
    ⟨hshows.started, rfl, hshows.broken, hshows.calls, hshows.returned, hshows.raised⟩
  cases ok with
  | true =>
    exact hI.advance hpc rfl hshows' (.inr rfl) rfl
      (fun p hp => hp.grow (fun ok h => by cases h) fun d h => by cases h) rfl rfl rfl
  | false =>
    exact hI.advance hpc rfl hshows' (.inr rfl) rfl
      (fun p hp => hp.grow (fun ok h => by cases h) fun d h => rfl) (.inr rfl) rfl rfl

theorem Inv.run (hI : Inv maxWorkers st s) (h : s.run c = some s') : ∃ st', Inv maxWorkers st' s' := by
  have hknows := hI.knows c
  have hplace : ∀ pc, s.pc c = pc → pc.elected = true → st.place = some (c, pc) := by
    rintro pc rfl hel
    exact hI.place c hel
  unfold State.run at h
  cases hpc : s.pc c with
  | idle | refused r | initRunning | fnRunning | ended o =>
    rw [hpc] at h
    cases h
  | subShutdown | subBroken | start =>
    rw [hpc] at h
    cases h
    refine ⟨st, ?_⟩
    split <;> exact hI.goto hpc rfl rfl rfl trivial
  | subGuard =>
    rw [hpc] at h
    refine ⟨st, ?_⟩
    dsimp only at h
    split at h <;> cases h
    · exact hI.goto hpc rfl rfl rfl trivial
    · exact hI.goto hpc rfl rfl rfl trivial
  | acquire =>
    rw [hpc] at h
    dsimp only at h
    split at h <;> cases h
    next hpos => exact ⟨st, hI.acquire hpc hpos⟩
  | isDone =>
    rw [hpc] at h
    cases h
    refine ⟨st, ?_⟩
    split
    next hdone =>
      rw [hI.shows.done] at hdone
      exact hI.goto hpc rfl rfl rfl (eq_settled_of_done hdone)
    next => exact hI.goto hpc rfl rfl rfl trivial
  | isBroken =>
    rw [hpc] at h hknows
    cases h
    obtain ⟨ok, rfl⟩ := hknows
    refine ⟨.settled ok, ?_⟩
    have hbroken : s.broken = !ok := hI.shows.broken
    rw [hbroken]
    cases ok with
    | true => exact hI.goto hpc rfl rfl rfl rfl
    | false => exact hI.goto hpc rfl rfl rfl (.inr rfl)
  | elect =>
    rw [hpc] at h
    dsimp only at h
    split at h
    next hbroken =>
      cases h
      rw [hI.shows.broken] at hbroken
      exact ⟨st, hI.goto hpc rfl rfl rfl (failed_of_broken hbroken)⟩
    next hwhole =>
      split at h
      next hdone =>
        cases h
        rw [hI.shows.done] at hdone
        obtain ⟨ok, rfl⟩ := eq_settled_of_done hdone
        cases ok with
        | true => exact ⟨_, hI.goto hpc rfl rfl rfl rfl⟩
        -- `_broken` was stored before the event was set, and this section has seen both.
        | false => exact absurd hI.shows.broken hwhole
      next =>
        split at h <;> cases h
        next => exact ⟨st, hI.goto hpc rfl rfl rfl trivial⟩
        next hstarted => exact ⟨.calling c, hI.elect hpc hstarted⟩
  | await =>
    rw [hpc] at h
    dsimp only at h
    split at h <;> cases h
    next hdone =>
      rw [hI.shows.done] at hdone
      exact ⟨st, hI.goto hpc rfl rfl rfl (eq_settled_of_done hdone)⟩
  | initCall =>
    rw [hpc] at h
    cases h
    have hst := hplace _ hpc rfl
    cases st with
    | calling d =>
      cases hst
      have hshows := hI.shows
      refine ⟨.running c, hI.advance hpc rfl
        ⟨hshows.started, hshows.done, hshows.broken, ?_, hshows.returned, hshows.raised⟩ (.inr rfl) rfl
        (fun p hp => hp.grow (fun ok h => by cases h) fun d h => by cases h) trivial rfl rfl⟩
      exact congrArg (· + 1) hshows.calls
    | _ => cases hst
  | publish =>
    rw [hpc] at h
    cases h
    have hst := hplace _ hpc rfl
    cases st with
    | unpublished d =>
      cases hst
      have hshows := hI.shows
      exact ⟨.finishing c false, hI.advance hpc rfl
        ⟨hshows.started, hshows.done, rfl, hshows.calls, hshows.returned, hshows.raised⟩ (.inr rfl) rfl
        (fun p hp => hp.grow (fun ok h => by cases h) fun d h => by cases h) trivial rfl rfl⟩
    | _ => cases hst
  | setDone ok =>
    rw [hpc] at h
    cases h
    have hst := hplace _ hpc rfl
    cases st with
    | finishing d ok' =>
      cases hst
      exact ⟨.settled ok, hI.setDone hpc⟩
    | _ => cases hst
  | fnCall | settle o | taskDone o =>
    rw [hpc] at h hknows
    cases h
    exact ⟨st, hI.goto hpc rfl rfl rfl hknows⟩
  | release o =>
    rw [hpc] at h
    cases h
    exact ⟨st, hI.release hpc⟩

theorem Inv.step (hI : Inv maxWorkers st s) {a : Action C} (h : step s a = some s') :
    ∃ st', Inv maxWorkers st' s' := by
  cases a with
  | submit c =>
    simp only [Executor.step] at h
    split at h <;> cases h
    next hpc => exact ⟨st, hI.move hpc rfl { hI.shows with } rfl rfl trivial (hI.permits_same hpc rfl rfl rfl)⟩
  | run c => exact hI.run h
  | initEnds c ok =>
    simp only [Executor.step] at h
    split at h
    next hpc =>
      have hst : st.place = some (c, .initRunning) := by
        rw [← hpc]
        apply hI.place
        rw [hpc]
        rfl
      have hshows := hI.shows
      cases st with
      | running d =>
        cases hst
        cases ok with
        | true =>
          cases h
          exact ⟨.finishing c true, hI.advance hpc rfl
            ⟨hshows.started, hshows.done, hshows.broken, hshows.calls, rfl, hshows.raised⟩ (.inr rfl) rfl
            (fun p hp => hp.grow (fun ok h => by cases h) fun d h => by cases h) trivial rfl rfl⟩
        | false =>
          cases h
          exact ⟨.unpublished c, hI.advance hpc rfl
            ⟨hshows.started, hshows.done, hshows.broken, hshows.calls, hshows.returned, rfl⟩ (.inr rfl) rfl
            (fun p hp => hp.grow (fun ok h => by cases h) fun d h => by cases h) trivial rfl rfl⟩
      | _ => cases hst
    next => cases h
  | fnEnds c ok =>
    simp only [Executor.step] at h
    split at h <;> cases h
    next hpc =>
      have hknows := hI.knows c
      rw [hpc] at hknows
      refine ⟨st, hI.goto hpc rfl rfl rfl ?_⟩
      cases ok <;> exact hknows
  | cancel c =>
    have hsame : Inv maxWorkers st { s with cancelled := update s.cancelled c true } :=
      { hI with shows := { hI.shows with } }
    simp only [Executor.step] at h
    split at h <;> cases h
    · exact ⟨st, hsame⟩
    · exact ⟨st, hsame⟩
  | shutdown =>
    cases h
    exact ⟨st, { hI with shows := { hI.shows with } }⟩

/-! ## What one step of a task does -/

def Pc.rank : Pc → ℕ
  | .idle => 21
  | .subShutdown => 20
  | .subBroken => 19
  | .subGuard => 18
  | .acquire => 17
  | .start => 16
  | .isDone => 15
  | .elect => 14
  | .await => 13
  | .isBroken => 12
  | .initCall => 11
  | .initRunning => 10
  | .publish => 9
  | .setDone _ => 8
  | .fnCall => 7
  | .fnRunning => 6
  | .settle _ => 5
  | .release _ => 4
  | .taskDone _ => 3
  | .refused _ | .ended _ => 0

def Pc.outcome : Pc → Option Outcome
  | .settle o | .release o | .taskDone o | .ended o => some o
  | _ => none

def Pc.spawned : Pc → Bool
  | .idle | .subShutdown | .subBroken | .subGuard | .refused _ => false
  | _ => true

/-- A step of a task moves that task on, and no other. -/
structure Moves (s : State C) (c : C) (p : Pc) (s' : State C) : Prop where
  pc : s'.pc = update s.pc c p
  rank : p.rank < (s.pc c).rank
  late : s'.late = s.late
  cancelled : s'.cancelled = s.cancelled
  broken : s.broken = true → s'.broken = true
  outcome : p.outcome = some .cancelled → (s.pc c).outcome = some .cancelled ∨ s.cancelled c = true

theorem Moves.plain (hpc₀ : s.pc c = pc₀) (hpc : s'.pc = update s.pc c pc) (hlate : s'.late = s.late)
    (hcancelled : s'.cancelled = s.cancelled) (hbroken : s.broken = true → s'.broken = true)
    (hrank : pc.rank < pc₀.rank) (hout : pc.outcome ≠ some .cancelled) : Moves s c pc s' := by
  refine ⟨hpc, ?_, hlate, hcancelled, hbroken, fun h => absurd h hout⟩
  rw [hpc₀]
  exact hrank

theorem Moves.keep (hpc₀ : s.pc c = pc₀) (hpc : s'.pc = update s.pc c pc) (hlate : s'.late = s.late)
    (hcancelled : s'.cancelled = s.cancelled) (hbroken : s'.broken = s.broken) (hrank : pc.rank < pc₀.rank)
    (hout : pc.outcome = pc₀.outcome) : Moves s c pc s' := by
  refine ⟨hpc, ?_, hlate, hcancelled, fun h => hbroken.trans h, fun h => .inl ?_⟩
  · rw [hpc₀]
    exact hrank
  · rw [hpc₀, ← hout]
    exact h

theorem run_moves (h : s.run c = some s') : ∃ p, Moves s c p s' := by
  unfold State.run at h
  cases hpc : s.pc c with
  | subShutdown | subBroken | isDone | isBroken =>
    rw [hpc] at h
    cases h
    split <;> exact ⟨_, .plain hpc rfl rfl rfl id (by decide) (by decide)⟩
  | subGuard =>
    rw [hpc] at h
    dsimp only at h
    split at h <;> cases h
    next r _ =>
      have hrank : (Pc.refused r).rank < Pc.subGuard.rank := Nat.zero_lt_succ _
      exact ⟨_, .plain hpc rfl rfl rfl id hrank fun h => by cases h⟩
    next => exact ⟨_, .plain hpc rfl rfl rfl id (by decide) (by decide)⟩
  | acquire | await =>
    rw [hpc] at h
    dsimp only at h
    split at h <;> cases h
    exact ⟨_, .plain hpc rfl rfl rfl id (by decide) (by decide)⟩
  | start =>
    rw [hpc] at h
    cases h
    split
    next hcancelled =>
      -- The future was cancelled before the task could start.
      refine ⟨_, rfl, ?_, rfl, rfl, id, fun _ => .inr hcancelled⟩
      rw [hpc]
      decide
    next => exact ⟨_, .plain hpc rfl rfl rfl id (by decide) (by decide)⟩
  | elect =>
    rw [hpc] at h
    dsimp only at h
    split at h
    · cases h
      exact ⟨_, .plain hpc rfl rfl rfl id (by decide) (by decide)⟩
    · split at h
      · cases h
        exact ⟨_, .plain hpc rfl rfl rfl id (by decide) (by decide)⟩
      · split at h <;> cases h
        · exact ⟨_, .plain hpc rfl rfl rfl id (by decide) (by decide)⟩
        · exact ⟨_, .plain hpc rfl rfl rfl id (by decide) (by decide)⟩
  | initCall | fnCall =>
    rw [hpc] at h
    cases h
    exact ⟨_, .plain hpc rfl rfl rfl id (by decide) (by decide)⟩
  | publish =>
    rw [hpc] at h
    cases h
    exact ⟨_, .plain hpc rfl rfl rfl (fun _ => rfl) (by decide) (by decide)⟩
  | setDone ok =>
    rw [hpc] at h
    cases h
    cases ok with
    | true | false => exact ⟨_, .plain hpc rfl rfl rfl id (by decide) (by decide)⟩
  | settle o =>
    rw [hpc] at h
    cases h
    exact ⟨_, .keep hpc rfl rfl rfl rfl (Nat.lt_succ_self 4) rfl⟩
  | release o =>
    rw [hpc] at h
    cases h
    exact ⟨_, .keep hpc rfl rfl rfl rfl (Nat.lt_succ_self 3) rfl⟩
  | taskDone o =>
    rw [hpc] at h
    cases h
    exact ⟨_, .keep hpc rfl rfl rfl rfl (Nat.zero_lt_succ 2) rfl⟩
  | _ =>
    rw [hpc] at h
    cases h

theorem stuck_cases (h : s.run c = none) (hspawned : (s.pc c).spawned = true) :
    (∃ o, s.pc c = .ended o) ∨ s.pc c = .acquire ∧ s.sem = 0 ∨ s.pc c = .await ∧ s.initDone = false ∨
      s.pc c = .initRunning ∨ s.pc c = .fnRunning := by
  unfold State.run at h
  cases hpc : s.pc c with
  | ended o => exact .inl ⟨o, rfl⟩
  | initRunning => exact .inr (.inr (.inr (.inl rfl)))
  | fnRunning => exact .inr (.inr (.inr (.inr rfl)))
  | acquire =>
    rw [hpc] at h
    dsimp only at h
    split at h
    next => cases h
    next hzero => exact .inr (.inl ⟨rfl, Nat.eq_zero_of_not_pos hzero⟩)
  | await =>
    rw [hpc] at h
    dsimp only at h
    split at h
    next => cases h
    next hdone => exact .inr (.inr (.inl ⟨rfl, Bool.eq_false_iff.mpr hdone⟩))
  | elect =>
    rw [hpc] at h
    dsimp only at h
    split at h
    · cases h
    · split at h
      · cases h
      · split at h <;> cases h
  | idle | subGuard | refused r =>
    rw [hpc] at hspawned
    cases hspawned
  | _ =>
    rw [hpc] at h
    cases h

/-! ## Late submissions, and cancelled tasks -/

/-- No submission begins while the initializer has raised and `_broken` is not stored, and no later one finds the
pool shut down. -/
def Timely (s : State C) : Action C → Prop
  | .submit _ => s.raised = true → s.broken = true
  | .run c => s.pc c = .subShutdown → s.late c = true → s.shutdown = false
  | _ => True

/-- On the way to `BrokenThreadPool`, or there. -/
def Pc.turned : Pc → Bool
  | .subShutdown | .subBroken | .refused .broken => true
  | _ => false

structure Side (s : State C) : Prop where
  late : ∀ c, s.late c = true → s.broken = true ∧ (s.pc c).turned = true
  cancelled : ∀ c, (s.pc c).outcome = some .cancelled → s.cancelled c = true

omit [DecidableEq C] in
theorem Side.init (h : Init maxWorkers s) : Side s where
  late c hc := by
    rw [h.late] at hc
    cases hc
  cancelled c hc := by
    rw [h.pc] at hc
    cases hc

theorem turned_of_run (h : s.run c = some s') (hlate : s.late c = true) (hC : Timely s (.run c))
    (hbroken : s.broken = true) (hturned : (s.pc c).turned = true) : (s'.pc c).turned = true := by
  unfold State.run at h
  cases hpc : s.pc c with
  | subShutdown =>
    rw [hpc] at h
    rw [hC hpc hlate] at h
    cases h
    simp only [State.goto, update_self]
    rfl
  | subBroken =>
    rw [hpc] at h
    rw [hbroken] at h
    cases h
    simp only [State.goto, update_self]
    rfl
  | refused r =>
    rw [hpc] at h
    cases h
  | _ =>
    rw [hpc] at hturned
    cases hturned

theorem Side.goto (hS : Side s) (hlate : s'.late = s.late) (hcancelled : s'.cancelled = s.cancelled)
    (hbroken : s'.broken = s.broken) (hpc : s'.pc = update s.pc c pc)
    (hturned : (s.pc c).turned = false) (hout : pc.outcome ≠ some .cancelled) : Side s' where
  late d hd := by
    rw [hlate] at hd
    have hdc : d ≠ c := by
      rintro rfl
      rw [(hS.late d hd).2] at hturned
      cases hturned
    rw [hbroken, hpc, update_of_ne hdc]
    exact hS.late d hd
  cancelled d hd := by
    rw [hcancelled]
    by_cases hdc : d = c
    · rw [hpc, hdc, update_self] at hd
      exact absurd hd hout
    · rw [hpc, update_of_ne hdc] at hd
      exact hS.cancelled d hd

theorem Side.run (hS : Side s) (h : s.run c = some s') (hC : Timely s (.run c)) : Side s' := by
  obtain ⟨p, hm⟩ := run_moves h
  constructor
  · intro d hd
    rw [hm.late] at hd
    obtain ⟨hbroken, hturned⟩ := hS.late d hd
    refine ⟨hm.broken hbroken, ?_⟩
    by_cases hdc : d = c
    · subst hdc
      exact turned_of_run h hd hC hbroken hturned
    · rw [hm.pc, update_of_ne hdc]
      exact hturned
  · intro d hd
    rw [hm.cancelled]
    by_cases hdc : d = c
    · subst hdc
      rw [hm.pc, update_self] at hd
      exact (hm.outcome hd).elim (hS.cancelled d) id
    · rw [hm.pc, update_of_ne hdc] at hd
      exact hS.cancelled d hd

theorem Side.step (hS : Side s) {a : Action C} (hC : Timely s a) (h : step s a = some s') : Side s' := by
  cases a with
  | submit c =>
    simp only [Executor.step] at h
    split at h <;> cases h
    next hpc =>
      refine ⟨fun d hd => ?_, fun d hd => ?_⟩
      · by_cases hdc : d = c
        · subst hdc
          simp only [State.goto, update_self] at hd ⊢
          exact ⟨hC hd, rfl⟩
        · simp only [State.goto, update_of_ne hdc] at hd ⊢
          exact hS.late d hd
      · by_cases hdc : d = c
        · subst hdc
          simp only [State.goto, update_self] at hd
          cases hd
        · simp only [State.goto, update_of_ne hdc] at hd
          exact hS.cancelled d hd
  | run c => exact hS.run h hC
  | initEnds c ok =>
    simp only [Executor.step] at h
    split at h
    next hpc =>
      have hturned : (s.pc c).turned = false := by
        rw [hpc]
        rfl
      split at h
      all_goals
        cases h
        exact hS.goto rfl rfl rfl rfl hturned fun h => by cases h
    next => cases h
  | fnEnds c ok =>
    simp only [Executor.step] at h
    split at h
    next hpc =>
      have hturned : (s.pc c).turned = false := by
        rw [hpc]
        rfl
      cases h
      refine hS.goto rfl rfl rfl rfl hturned fun h => ?_
      cases ok <;> cases h
    next => cases h
  | cancel c =>
    have hmore : Side { s with cancelled := update s.cancelled c true } := by
      refine ⟨hS.late, fun d hd => ?_⟩
      by_cases hdc : d = c
      · simp only [hdc, update_self]
      · simp only [update_of_ne hdc]
        exact hS.cancelled d hd
    simp only [Executor.step] at h
    split at h <;> cases h
    · exact hmore
    · exact hmore
  | shutdown =>
    cases h
    exact { hS with }

theorem inv_of_reachable (h : (executor C maxWorkers).ReachableWith Timely s) :
    (∃ st, Inv maxWorkers st s) ∧ Side s := by
  refine h.invariant (P := fun s => (∃ st, Inv maxWorkers st s) ∧ Side s) (fun s hs => ?_) ?_
  · exact ⟨⟨.before, Inv.init hs.1 hs.2⟩, Side.init hs.2⟩
  · rintro s a s' ⟨⟨st, hI⟩, hS⟩ hC hs
    exact ⟨hI.step hs, hS.step hC hs⟩

/-! ## The verdict -/

theorem Inv.ended_of_stuck (hI : Inv maxWorkers st s) (hraised : s.raised = true)
    (hstuck : ∀ c, s.run c = none) (hspawned : (s.pc c).spawned = true) : ∃ o, s.pc c = .ended o := by
  rw [hI.shows.raised] at hraised
  -- A task past the election is at a step that it can take.
  have hdone : st.done = true := by
    cases st with
    | settled ok => rfl
    | unpublished d | finishing d ok =>
      have hpc := hI.placed d _ rfl
      have := hstuck d
      rw [State.run, hpc] at this
      cases this
    | _ => cases hraised
  have hrest : ∀ d, (s.pc d).spawned = true → (∃ o, s.pc d = .ended o) ∨ s.pc d = .acquire ∧ s.sem = 0 := by
    intro d hd
    rcases stuck_cases (hstuck d) hd with hended | hacquire | ⟨hpc, hwait⟩ | hpc | hpc
    · exact .inl hended
    · exact .inr hacquire
    · rw [hI.shows.done, hdone] at hwait
      cases hwait
    · have := hI.place d (by rw [hpc]; rfl)
      obtain ⟨ok, rfl⟩ := eq_settled_of_done hdone
      cases this
    · have hknows := hI.knows d
      rw [hpc] at hknows
      rw [show st = .settled true from hknows] at hraised
      cases hraised
  rcases hrest c hspawned with hended | ⟨-, hzero⟩
  · exact hended
  · -- Nobody waits for a permit: one of those who have one would be able to move.
    have hpermits := hI.permits
    have hworkers := hI.workers
    obtain ⟨S, hS, hcard⟩ := hpermits
    have hpos : 0 < S.card := by omega
    obtain ⟨d, hd⟩ := Finset.card_pos.mp hpos
    have hholding : (s.pc d).holding = true := (hS d).mp hd
    have hspawned' : (s.pc d).spawned = true := by
      cases hpc : s.pc d with
      | idle | subShutdown | subBroken | subGuard | refused r =>
        rw [hpc] at hholding
        cases hholding
      | _ => rfl
    rcases hrest d hspawned' with ⟨o, ho⟩ | ⟨hacquire, -⟩
    · rw [ho] at hholding
      cases hholding
    · rw [hacquire] at hholding
      cases hholding

omit [DecidableEq C] in
theorem Inv.returned (hI : Inv maxWorkers st s)
    (hc : s.pc c = .fnCall ∨ s.pc c = .fnRunning ∨ (s.pc c).outcome = some .result ∨
      (s.pc c).outcome = some .error) : s.returned = true ∧ s.raised = false := by
  have hsettled : st = .settled true := by
    have hknows := hI.knows c
    cases hpc : s.pc c with
    | fnCall | fnRunning =>
      rw [hpc] at hknows
      exact hknows
    | settle o | release o | taskDone o | ended o =>
      rw [hpc] at hknows hc
      rcases hc with h | h | h | h <;> cases h <;> exact hknows
    | _ =>
      rw [hpc] at hc
      rcases hc with h | h | h | h <;> cases h
  rw [hI.shows.returned, hI.shows.raised, hsettled]
  exact ⟨rfl, rfl⟩

/-- If submissions are timely, the initializer runs at most once and first, and if it has raised every task ends
with `BrokenThreadPool`. -/
theorem initializer_and_workers (h : (executor C maxWorkers).ReachableWith Timely s) : s.calls ≤ 1 ∧
    (∀ c, s.pc c = .fnCall ∨ s.pc c = .fnRunning ∨ (s.pc c).outcome = some .result ∨
      (s.pc c).outcome = some .error → s.returned = true ∧ s.raised = false) ∧
    (s.raised = true → ∀ c o, s.pc c = .ended o → s.cancelled c = false → o = .broken) ∧
    (s.raised = true → (∀ c, s.run c = none) → ∀ c, (s.pc c).spawned = true → ∃ o, s.pc c = .ended o) ∧
    (∀ c s', s.run c = some s' → (s'.pc c).rank < (s.pc c).rank ∧ ∀ d, d ≠ c → s'.pc d = s.pc d) ∧
    (∀ c, s.late c = true → s.pc c = .subShutdown ∨ s.pc c = .subBroken ∨ s.pc c = .refused .broken) ∧
    (∀ S : Finset C, (∀ c ∈ S, s.pc c = .fnRunning) → S.card ≤ maxWorkers) := by
  obtain ⟨⟨st, hI⟩, hS⟩ := inv_of_reachable h
  refine ⟨?_, fun c => hI.returned, fun hraised c o hpc hkept => ?_, fun hraised hstuck c => ?_,
    fun c s' hrun => ?_, fun c hc => ?_, fun S hS' => ?_⟩
  · rw [hI.shows.calls]
    exact st.calls_le_one
  · cases o with
    | broken => rfl
    | cancelled =>
      have := hS.cancelled c (by rw [hpc]; rfl)
      rw [hkept] at this
      cases this
    | result =>
      have := (hI.returned (c := c) (.inr (.inr (.inl (by rw [hpc]; rfl))))).2
      rw [hraised] at this
      cases this
    | error =>
      have := (hI.returned (c := c) (.inr (.inr (.inr (by rw [hpc]; rfl))))).2
      rw [hraised] at this
      cases this
  · exact hI.ended_of_stuck hraised hstuck
  · obtain ⟨p, hm⟩ := run_moves hrun
    refine ⟨?_, fun d hd => ?_⟩
    · rw [hm.pc, update_self]
      exact hm.rank
    · rw [hm.pc, update_of_ne hd]
  · have hturned := (hS.late c hc).2
    cases hpc : s.pc c with
    | subShutdown => exact .inl rfl
    | subBroken => exact .inr (.inl rfl)
    | refused r =>
      rw [hpc] at hturned
      cases r with
      | shutdown => cases hturned
      | broken => exact .inr (.inr rfl)
    | _ =>
      rw [hpc] at hturned
      cases hturned
  · obtain ⟨S₀, hmem, hcard⟩ := hI.permits
    have hsub : S ⊆ S₀ := by
      intro c hc
      refine (hmem c).mpr ?_
      show (s.pc c).holding = true
      rw [hS' c hc]
      rfl
    have := Finset.card_le_card hsub
    omega

/-! ## Two submissions -/

def fresh : State Bool :=
  ⟨false, false, false, false, 1, fun _ => .idle, fun _ => false, 0, false, false, fun _ => false⟩

theorem init_fresh : Init 1 fresh :=
  ⟨rfl, rfl, rfl, rfl, rfl, fun _ => rfl, fun _ => rfl, rfl, rfl, rfl, fun _ => rfl⟩

instance (s : State C) : ∀ a, Decidable (Timely s a)
  | .submit _ => inferInstanceAs (Decidable (s.raised = true → s.broken = true))
  | .run c => inferInstanceAs (Decidable (s.pc c = .subShutdown → s.late c = true → s.shutdown = false))
  | .initEnds _ _ | .fnEnds _ _ | .cancel _ | .shutdown => .isTrue trivial

/-- The pool is shut down, and the second submission gets a plain `RuntimeError`. -/
theorem shutdown_hides_broken : ¬∀ s : State Bool, (executor Bool 1).Reachable s → ∀ c, s.late c = true →
      s.pc c = .subShutdown ∨ s.pc c = .subBroken ∨ s.pc c = .refused .broken := by
  intro hall
  obtain ⟨s, hr, hlate, hpc⟩ := (executor Bool 1).reaches
    (fun s => s.late true = true ∧ s.pc true = .refused .shutdown)
    [.submit false, .run false, .run false, .run false, .run false, .run false, .run false, .run false,
      .run false, .initEnds false false, .run false, .run false, .run false, .run false, .run false,
      .shutdown, .submit true, .run true]
    (s := fresh) ⟨by decide, init_fresh⟩ (by decide +kernel)
  rcases hall s hr true hlate with h | h | h
  all_goals
    rw [hpc] at h
    cases h

/-- Without the shutdown, and with the first task ended. -/
theorem initializer_and_workers_raised :
    ∃ s : State Bool, (executor Bool 1).ReachableWith Timely s ∧ s.raised = true ∧
      s.pc false = .ended .broken ∧ s.late true = true ∧ s.pc true = .refused .broken ∧ s.calls ≤ 1 := by
  obtain ⟨s, hr, hraised, -, hpc, hlate, hne, hne'⟩ := (executor Bool 1).reachesWith Timely
    (fun s => s.raised = true ∧ s.cancelled false = false ∧ s.pc false = .ended .broken ∧
      s.late true = true ∧ s.pc true ≠ .subShutdown ∧ s.pc true ≠ .subBroken)
    [.submit false, .run false, .run false, .run false, .run false, .run false, .run false, .run false,
      .run false, .initEnds false false, .run false, .run false, .run false, .run false, .run false,
      .submit true, .run true, .run true]
    (s := fresh) ⟨by decide, init_fresh⟩ (by decide +kernel)
  obtain ⟨hcalls, -, -, -, -, hsubmit, -⟩ := initializer_and_workers hr
  exact ⟨s, hr, hraised, hpc, hlate, ((hsubmit true hlate).resolve_left hne).resolve_left hne', hcalls⟩

end Runloom.Executor
