import Mathlib.Data.Int.Notation
import Runloom.Handoff.Lobby
import Runloom.Transition.History

/-!
# The wait group

Model of `sync.WaitGroup`: `add`, `done` and `wait`, called by fibers.  A step is a section under the guard `_mu`, a
park or its return, or one wake after the guard is left.

A fiber that looks again after its park appends its handle once more, so `_waiters` may have a handle several times,
and handles of fibers that are not in `wait` any more.
-/

namespace Runloom.WaitGroup

open Transition Handoff

inductive Result where
  /-- `wait` returned. -/
  | waited
  /-- `add` returned. -/
  | added
  /-- `ValueError`, "WaitGroup counter went negative". -/
  | negative
deriving DecidableEq

structure State (F : Type*) where
  n : ℤ
  waiters : List F
  lobby : Lobby F Unit Result

inductive Action (F : Type*) where
  /-- `add`, up to the end of its section. -/
  | add (f : F) (delta : ℤ)
  | done (f : F)
  /-- A turn of the loop of `wait`, up to the end of its section. -/
  | wait (f : F)
  | next (f : F)
  | elsewhere (f : F)
  | poke (f : F)

variable {F : Type*} [DecidableEq F]

namespace State

def goto (s : State F) (f : F) (p : Place F Unit Result) : State F :=
  { s with lobby := s.lobby.goto f p }

@[simp] theorem goto_self (s : State F) (f : F) (p : Place F Unit Result) : (s.goto f p).lobby.pc f = p :=
  Lobby.goto_self

theorem goto_of_ne (s : State F) (p : Place F Unit Result) {f g : F} (h : g ≠ f) :
    (s.goto f p).lobby.pc g = s.lobby.pc g := Lobby.goto_of_ne h

def add (s : State F) (f : F) (delta : ℤ) : State F :=
  let n := s.n + delta
  -- The counter keeps its negative value.
  if n < 0 then { s with n := n }.goto f (.returned .negative)
  else if n = 0 ∧ s.waiters ≠ [] then { s with n := n, waiters := [] }.goto f (.finish s.waiters .added)
  else { s with n := n }.goto f (.returned .added)

def done (s : State F) (f : F) : State F := s.add f (-1)

def wait (s : State F) (f : F) : State F :=
  if s.n = 0 then s.goto f (.returned .waited)
  else { s with waiters := s.waiters ++ [f] }.goto f (.waiting ())

end State

def step (s : State F) : Action F → Option (State F)
  | .add f delta =>
    match s.lobby.pc f with
    | .idle => some (s.add f delta)
    | _ => none
  | .done f =>
    match s.lobby.pc f with
    | .idle => some (s.done f)
    | _ => none
  | .wait f =>
    match s.lobby.pc f with
    | .idle | .woken () => some (s.wait f)
    | _ => none
  -- `wait` has no deadline.
  | .next f => (s.lobby.next (fun _ => false) f).map fun lobby => { s with lobby := lobby }
  | .elsewhere f => (s.lobby.elsewhere f).map fun lobby => { s with lobby := lobby }
  | .poke f => some { s with lobby := s.lobby.poke f }

structure Init (s : State F) : Prop where
  n : s.n = 0
  waiters : s.waiters = []
  pc : ∀ f, s.lobby.pc f = .idle

def waitGroup (F : Type*) [DecidableEq F] : System (State F) (Action F) where
  init := Init
  step := step

end Runloom.WaitGroup

/-!
## The wait group: no wake is lost

A fiber sleeps in `wait` only while a wake will come to it: its handle is in `_waiters`, or some `add` that
emptied `_waiters` still has to wake it, or it has a credit.  With the counter at zero `_waiters` is empty,
which leaves the last two.
-/

namespace Runloom.WaitGroup

open Transition Handoff

variable {F : Type*} [DecidableEq F] {s t : State F} {f : F} {a : Action F}

structure Inv (s : State F) : Prop where
  zero : s.n = 0 → s.waiters = []
  safe : s.lobby.Safe fun _ => s.waiters
  wakers : s.lobby.Wakers .added

omit [DecidableEq F] in
theorem Inv.init (h : Init s) : Inv s where
  zero _ := h.waiters
  safe := Lobby.safe_of_idle h.pc
  wakers f fs r hf := by
    rw [h.pc] at hf
    cases hf

theorem Inv.add (hI : Inv s) (hw : (s.lobby.pc f).toWake = []) (delta : ℤ) : Inv (s.add f delta) := by
  unfold State.add
  dsimp only
  split
  next hn =>
    refine ⟨fun h0 => ?_, hI.safe.goto hw (fun _ _ _ => Or.inl) nofun, hI.wakers.goto nofun⟩
    rw [show s.n + delta = 0 from h0] at hn
    exact absurd hn (Int.lt_irrefl 0)
  split
  -- The counter falls to zero: the section takes the list, and the wakes are to come.
  next h0 =>
    refine ⟨fun _ => rfl, hI.safe.goto hw (fun g _ _ hg => ?_) fun _ hs => ?_,
      hI.wakers.goto fun _ _ => Place.waking_finish⟩
    · rw [Place.toWake_finish]
      exact .inr hg
    · rw [Place.sleeps_finish] at hs
      cases hs
  next hn h0 =>
    refine ⟨fun h => ?_, hI.safe.goto hw (fun _ _ _ => Or.inl) nofun, hI.wakers.goto nofun⟩
    by_contra hne
    exact h0 ⟨h, hne⟩

theorem Inv.wait (hI : Inv s) (hw : (s.lobby.pc f).toWake = []) : Inv (s.wait f) := by
  unfold State.wait
  split
  · exact ⟨hI.zero, hI.safe.goto hw (fun _ _ _ => Or.inl) nofun, hI.wakers.goto nofun⟩
  -- Above zero the fiber is in the list before it goes to its park, each time round.
  next hn =>
    refine ⟨fun h => absurd h hn, hI.safe.goto hw (fun g _ _ hg => ?_) fun _ _ => ?_, hI.wakers.goto nofun⟩
    · exact .inl (List.mem_append_left _ hg)
    · exact List.mem_append_right _ (List.mem_singleton_self f)

theorem step_cases (h : step s a = some t) : (∃ f delta, s.lobby.pc f = .idle ∧ t = s.add f delta) ∨
    (∃ f, a = .wait f ∧ (s.lobby.pc f = .idle ∨ s.lobby.pc f = .woken ()) ∧ t = s.wait f) ∨
    (∃ f lobby, s.lobby.next (fun _ => false) f = some lobby ∧ t = { s with lobby := lobby }) ∨
    (∃ f lobby, s.lobby.elsewhere f = some lobby ∧ t = { s with lobby := lobby }) ∨
    ∃ f, t = { s with lobby := s.lobby.poke f } := by
  cases a with
  | add f delta =>
    simp only [step] at h
    split at h
    next hpc => exact .inl ⟨f, delta, hpc, (Option.some.inj h).symm⟩
    next => cases h
  | done f =>
    simp only [step] at h
    split at h
    next hpc => exact .inl ⟨f, -1, hpc, (Option.some.inj h).symm⟩
    next => cases h
  | wait f =>
    simp only [step] at h
    split at h
    next hpc => exact .inr (.inl ⟨f, rfl, .inl hpc, (Option.some.inj h).symm⟩)
    next hpc => exact .inr (.inl ⟨f, rfl, .inr hpc, (Option.some.inj h).symm⟩)
    next => cases h
  | next f =>
    obtain ⟨lobby, hn, rfl⟩ := Option.map_eq_some_iff.mp h
    exact .inr (.inr (.inl ⟨f, lobby, hn, rfl⟩))
  | elsewhere f =>
    obtain ⟨lobby, hn, rfl⟩ := Option.map_eq_some_iff.mp h
    exact .inr (.inr (.inr (.inl ⟨f, lobby, hn, rfl⟩)))
  | poke f => exact .inr (.inr (.inr (.inr ⟨f, (Option.some.inj h).symm⟩)))

theorem Inv.step (hI : Inv s) (h : step s a = some t) : Inv t := by
  obtain ⟨f, delta, hpc, rfl⟩ | ⟨f, -, hpc, rfl⟩ | ⟨f, lobby, hn, rfl⟩ | ⟨f, lobby, hn, rfl⟩ | ⟨f, rfl⟩ :=
    step_cases h
  · exact hI.add (by rw [hpc]; rfl) delta
  · apply hI.wait
    rcases hpc with hpc | hpc <;> rw [hpc] <;> rfl
  · exact ⟨hI.zero, hI.safe.next hn, hI.wakers.next hn⟩
  · refine ⟨hI.zero, hI.safe.elsewhere hn, fun g fs r hg => ?_⟩
    rw [Lobby.elsewhere_pc hn] at hg
    exact hI.wakers g fs r hg
  · exact ⟨hI.zero, hI.safe.poke, hI.wakers⟩

theorem inv_of_reachable (h : (waitGroup F).Reachable s) : Inv s :=
  h.invariant (fun _ hs => Inv.init hs) fun _ _ _ hI _ hs => hI.step hs

/-! ## When `wait` returns -/

@[simp] theorem add_n (s : State F) (f : F) (d : ℤ) : (s.add f d).n = s.n + d := by
  unfold State.add
  dsimp only
  split
  · rfl
  · split <;> rfl

@[simp] theorem wait_n (s : State F) (f : F) : (s.wait f).n = s.n := by
  unfold State.wait
  split <;> rfl

theorem add_ne_waited (delta : ℤ) : (s.add f delta).lobby.pc f ≠ .returned .waited := by
  unfold State.add
  dsimp only
  split
  · exact fun h => by simp [State.goto] at h
  split
  next h0 =>
    rw [State.goto_self]
    cases hl : s.waiters with
    | nil => exact absurd hl h0.2
    | cons w ws => exact nofun
  · exact fun h => by simp [State.goto] at h

theorem add_pc_of_ne (delta : ℤ) {g : F} (h : g ≠ f) : (s.add f delta).lobby.pc g = s.lobby.pc g := by
  unfold State.add
  dsimp only
  split
  · exact State.goto_of_ne _ _ h
  split <;> exact State.goto_of_ne _ _ h

theorem wait_pc_of_ne {g : F} (h : g ≠ f) : (s.wait f).lobby.pc g = s.lobby.pc g := by
  unfold State.wait
  split <;> exact State.goto_of_ne _ _ h

theorem zero_of_waited (h : (s.wait f).lobby.pc f = .returned .waited) : s.n = 0 := by
  unfold State.wait at h
  split at h
  next h0 => exact h0
  next =>
    rw [State.goto_self] at h
    cases h

theorem Inv.returns (hI : Inv s) (h : WaitGroup.step s a = some t) (hnew : t.lobby.pc f = .returned .waited)
    (hold : s.lobby.pc f ≠ .returned .waited) : a = .wait f ∧ s.n = 0 := by
  obtain ⟨g, delta, -, rfl⟩ | ⟨g, rfl, -, rfl⟩ | ⟨g, lobby, hn, rfl⟩ | ⟨g, lobby, hn, rfl⟩ | ⟨g, rfl⟩ :=
    step_cases h
  · by_cases hfg : f = g
    · subst hfg
      exact absurd hnew (add_ne_waited delta)
    · rw [add_pc_of_ne delta hfg] at hnew
      exact absurd hnew hold
  · by_cases hfg : f = g
    · subst hfg
      exact ⟨rfl, zero_of_waited hnew⟩
    · rw [wait_pc_of_ne hfg] at hnew
      exact absurd hnew hold
  · exact absurd (hI.wakers.returned_of_next (r := .waited) hn nofun hnew) hold
  · rw [Lobby.elsewhere_pc hn] at hnew
    exact absurd hnew hold
  · exact absurd hnew hold

/-- A `wait` returns only by a section that reads zero, and whoever is blocked after that has a credit. -/
theorem wait_not_stranded (h : (waitGroup F).Reachable s) :
    (∀ a t f, step s a = some t → t.lobby.pc f = .returned .waited → s.lobby.pc f ≠ .returned .waited →
      a = .wait f ∧ s.n = 0) ∧
    (s.n = 0 → (∀ d, (s.lobby.pc d).toWake = []) → ∀ f, (s.lobby.pc f).sleeps.isSome → 0 < s.lobby.credit f) := by
  have hI := inv_of_reachable h
  refine ⟨fun a t f hstep hnew hold => hI.returns hstep hnew hold, fun h0 hw f hf => ?_⟩
  obtain ⟨u, hu⟩ := Option.isSome_iff_exists.mp hf
  exact hI.safe.credit_pos hu (hI.zero h0) hw

def unused : State (Fin 3) := ⟨0, [], ⟨fun _ => .idle, fun _ => 0⟩⟩

/-- The park of fiber 1 returns early and it registers again, so that the `done` of fiber 2 wakes it twice. -/
theorem wait_not_stranded_twoWakes :
    ∃ s, (waitGroup (Fin 3)).Reachable s ∧ s.n = 0 ∧ s.lobby.pc 1 = .parked () ∧ 0 < s.lobby.credit 1 := by
  obtain ⟨s, hr, h0, hpc, hw⟩ := (waitGroup (Fin 3)).reaches
    (fun s => s.n = 0 ∧ s.lobby.pc 1 = .parked () ∧ ∀ d, (s.lobby.pc d).toWake = [])
    [.add 0 1, .next 0, .wait 1, .next 1, .next 1, .wait 1, .next 1, .done 2, .next 2, .next 2]
    (s := unused) ⟨rfl, rfl, fun _ => rfl⟩ (by decide +kernel)
  refine ⟨s, hr, h0, hpc, (wait_not_stranded hr).2 h0 hw 1 ?_⟩
  rw [hpc]
  rfl

end Runloom.WaitGroup

/-!
## The wait group: the counter and the accepted calls

`add` adds its delta to the counter before it looks at the sum, and an `add` that raises `ValueError` leaves it
added.  The counter is then below what the accepted calls sum up to, and stays so; a `wait` that should return does
not.  In the runs without such a call the counter is the sum of the accepted deltas.
-/

namespace Runloom.WaitGroup

open Transition Handoff

variable {F : Type*} [DecidableEq F] {s t : State F} {f : F} {a : Action F} {p q : State F × ℤ}

def accepted (sum : ℤ) (s : State F) (a : Action F) (_ : State F) : ℤ :=
  match a with
  | .add _ delta => if s.n + delta < 0 then sum else sum + delta
  | .done _ => if s.n + -1 < 0 then sum else sum + -1
  | _ => sum

def adds (F : Type*) [DecidableEq F] : System (State F × ℤ) (Action F) :=
  (waitGroup F).withHistory 0 accepted

/-- The delta of a call of `add` or `done` that begins. -/
def delta (s : State F) : Action F → Option ℤ
  | .add f delta => if s.lobby.pc f = .idle then some delta else none
  | .done f => if s.lobby.pc f = .idle then some (-1) else none
  | _ => none

def Accepted (p : State F × ℤ) (a : Action F) : Prop :=
  ∀ d ∈ delta p.1 a, 0 ≤ p.1.n + d

instance (p : State F × ℤ) (a : Action F) : Decidable (Accepted p a) :=
  inferInstanceAs (Decidable (∀ d ∈ delta p.1 a, 0 ≤ p.1.n + d))

/-- The group as its callers count on it. -/
structure Usable (p : State F × ℤ) : Prop where
  counter : p.1.n = p.2
  nonneg : 0 ≤ p.1.n
  /-- A `wait`, or a turn of its loop, returns. -/
  returns : p.2 = 0 → ∀ f, (p.1.wait f).lobby.pc f = .returned .waited
  /-- Whoever is blocked has a wake, once the `add`s have made theirs. -/
  woken : p.2 = 0 → (∀ d, (p.1.lobby.pc d).toWake = []) → ∀ f, (p.1.lobby.pc f).sleeps.isSome →
    0 < p.1.lobby.credit f

/-- The group is usable all along, and an `add` that raises changes nothing. -/
structure Kept (s : State F) (as : List (Action F)) : Prop where
  usable : ∀ bs p, bs <+: as → (adds F).run (s, 0) bs = some p → Usable p
  rejected : ∀ bs a p q d, bs ++ [a] <+: as → (adds F).run (s, 0) bs = some p → (adds F).step p a = some q →
    d ∈ delta p.1 a → p.1.n + d < 0 → q.1.n = p.1.n ∧ q.1.waiters = p.1.waiters

/-! ## One step -/

theorem step_n (h : step s a = some t) : t.n = s.n + (delta s a).getD 0 := by
  cases a with
  | add f d =>
    simp only [step] at h
    split at h <;> cases h
    next hpc => simp [delta, hpc]
  | done f =>
    simp only [step] at h
    split at h <;> cases h
    next hpc => simp [delta, hpc, State.done]
  | wait f =>
    simp only [step] at h
    split at h <;> cases h <;> simp [delta]
  | next f | elsewhere f =>
    obtain ⟨lobby, -, rfl⟩ := Option.map_eq_some_iff.mp h
    simp [delta]
  | poke f =>
    cases h
    simp [delta]

theorem delta_of_add {d : ℤ} (h : step s (.add f d) = some t) : delta s (.add f d) = some d := by
  simp only [step] at h
  split at h
  next hpc => exact if_pos hpc
  next => cases h

theorem delta_of_done (h : step s (.done f) = some t) : delta s (.done f) = some (-1) := by
  simp only [step] at h
  split at h
  next hpc => exact if_pos hpc
  next => cases h

theorem accepted_eq {sum : ℤ} (h : step s a = some t) (hA : Accepted (s, sum) a) :
    accepted sum s a t = sum + (delta s a).getD 0 := by
  cases a with
  | add f d =>
    have hd := delta_of_add h
    have hn : 0 ≤ s.n + d := hA d hd
    rw [hd]
    exact if_neg (Int.not_lt.mpr hn)
  | done f =>
    have hd := delta_of_done h
    have hn : 0 ≤ s.n + -1 := hA (-1) hd
    rw [hd]
    exact if_neg (Int.not_lt.mpr hn)
  | wait f | next f | elsewhere f | poke f => simp [accepted, delta]

/-! ## Whole runs -/

structure Balanced (p : State F × ℤ) : Prop where
  counter : p.1.n = p.2
  nonneg : 0 ≤ p.1.n

theorem Balanced.step (hB : Balanced p) (hA : Accepted p a) (h : (adds F).step p a = some q) : Balanced q := by
  obtain ⟨hs, hsum⟩ := System.withHistory_step h
  have hn : q.1.n = p.1.n + (delta p.1 a).getD 0 := step_n hs
  refine ⟨?_, ?_⟩
  · rw [hn, hsum, accepted_eq hs hA, hB.counter]
  · rw [hn]
    cases hd : delta p.1 a with
    | none => simpa using hB.nonneg
    | some d => exact hA d hd

theorem balanced_of_reachableWith (h : (adds F).ReachableWith Accepted p) : Balanced p :=
  h.invariant (fun p (hp : Init p.1 ∧ p.2 = 0) => ⟨by rw [hp.1.n, hp.2], Int.le_of_eq hp.1.n.symm⟩) fun _ _ _ hB hA hs => hB.step hA hs

theorem usable_of_reachableWith (h : (adds F).ReachableWith Accepted p) : Usable p := by
  have hB := balanced_of_reachableWith h
  have hr : (waitGroup F).Reachable p.1 := System.ReachableWith.forget (C := fun _ _ => True) h.reachable
  refine ⟨hB.counter, hB.nonneg, fun h0 f => ?_, fun h0 hw f hf => ?_⟩
  · have hn : p.1.n = 0 := hB.counter.trans h0
    rw [State.wait, if_pos hn]
    exact State.goto_self ..
  · have hI := inv_of_reachable hr
    obtain ⟨u, hu⟩ := Option.isSome_iff_exists.mp hf
    exact hI.safe.credit_pos hu (hI.zero (hB.counter.trans h0)) hw

theorem kept_of_meets {as : List (Action F)} (hs : Init s) (h : (adds F).Meets Accepted (s, 0) as) : Kept s as where
  usable bs p hbs hr := by
    obtain ⟨cs, rfl⟩ := hbs
    have hinit : (adds F).init (s, 0) := ⟨hs, rfl⟩
    exact usable_of_reachableWith ((System.ReachableWith.init hinit).run h.of_append hr)
  -- No call is rejected at all.
  rejected bs a p q d hbs hr _ hd hn := by
    obtain ⟨cs, rfl⟩ := hbs
    exact absurd hn (Int.not_lt.mpr (h.of_append.snoc hr d hd))

theorem meets_of_kept {as : List (Action F)} (h : Kept s as) : (adds F).Meets Accepted (s, 0) as := by
  refine System.meets_of_forall_prefix fun bs a p hbs hr d hd => ?_
  by_contra hn
  cases hq : (adds F).step p a with
  | some q =>
    have hrun : (adds F).run (s, 0) (bs ++ [a]) = some q := by
      rw [System.run_append hr, System.run_cons hq]
      rfl
    have hnonneg := (h.usable (bs ++ [a]) q hbs hrun).nonneg
    rw [step_n (System.withHistory_step hq).1, hd] at hnonneg
    exact hn hnonneg
  | none =>
    -- A call that begins has a step to make.
    cases a with
    | add f e | done f =>
      have hpc : p.1.lobby.pc f = .idle := by
        by_contra hpc
        rw [delta, if_neg hpc] at hd
        cases hd
      simp [adds, System.withHistory, waitGroup, step, hpc] at hq
    | wait f | next f | elsewhere f | poke f => cases hd

/-- A run keeps the group usable if and only if no call of `add` or `done` in it takes the counter below zero. -/
theorem usable_iff_none_rejected (hs : Init s) (as : List (Action F)) :
    Kept s as ↔ (adds F).Meets Accepted (s, 0) as :=
  ⟨meets_of_kept, kept_of_meets hs⟩

/-- Fiber 1 waits for the one call that fiber 0 announced, and fiber 2 makes it. -/
theorem usable_iff_none_rejected_oneDone : Kept unused [.add 0 1, .wait 1, .next 1, .done 2] :=
  (usable_iff_none_rejected ⟨rfl, rfl, fun _ => rfl⟩ _).mpr (System.meets_of_replay (by decide))

/-- A `done` too many leaves the counter at `-1`, and the next `add(1)` makes it zero. -/
theorem rejected_done_counts :
    (∃ p, (adds (Fin 3)).run (unused, 0) [.done 0] = some p ∧ p.1.lobby.pc 0 = .returned .negative ∧ p.1.n = -1 ∧
      p.2 = 0 ∧ (p.1.wait 1).lobby.pc 1 = .waiting ()) ∧
    ∃ p, (adds (Fin 3)).run (unused, 0) [.done 0, .add 1 1] = some p ∧ p.1.lobby.pc 1 = .returned .added ∧
      p.1.n = 0 ∧ p.2 = 1 := by
  refine ⟨?_, ?_⟩
  · obtain ⟨p, hrun, -, hp⟩ := System.exists_reachable_of_run (M := adds (Fin 3))
      (p := fun p => decide (p.1.lobby.pc 0 = .returned .negative ∧ p.1.n = -1 ∧ p.2 = 0 ∧
        (p.1.wait 1).lobby.pc 1 = .waiting ()))
      [.done 0] (s := (unused, 0)) ⟨⟨rfl, rfl, fun _ => rfl⟩, rfl⟩ (by decide +kernel)
    exact ⟨p, hrun, of_decide_eq_true hp⟩
  · obtain ⟨p, hrun, -, hp⟩ := System.exists_reachable_of_run (M := adds (Fin 3))
      (p := fun p => decide (p.1.lobby.pc 1 = .returned .added ∧ p.1.n = 0 ∧ p.2 = 1))
      [.done 0, .add 1 1] (s := (unused, 0)) ⟨⟨rfl, rfl, fun _ => rfl⟩, rfl⟩ (by decide +kernel)
    exact ⟨p, hrun, of_decide_eq_true hp⟩

end Runloom.WaitGroup
