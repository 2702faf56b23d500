import Runloom.Handoff.Lobby
import Runloom.Transition.System

/-!
# Once

Model of `sync.Once.do`, called by fibers.  A step is a section under the guard `_mu`, the end of the function, a
park or its return, or one wake after the guard is left.  The function is not modelled: it takes as long as it
likes, and returns or raises.
-/

namespace Runloom.Once

open Transition Handoff

/-- What a caller is at. -/
inductive Phase where
  /-- The executor, in `fn`. -/
  | fn
  /-- The executor, with `fn` behind it and before the section of its `finally`. -/
  | finishing (raised : Bool)
  | wait
deriving DecidableEq

inductive Result where
  | none
  /-- The executor is back, or has let the exception of `fn` through. -/
  | ran (raised : Bool)
deriving DecidableEq

structure State (F : Type*) where
  done : Bool
  running : Bool
  waiters : List F
  lobby : Lobby F Phase Result
  started : List F
  ended : List Bool

inductive Action (F : Type*) where
  /-- `do`, up to the end of its first section. -/
  | call (f : F)
  | fn (f : F) (raised : Bool)
  /-- The section of the `finally`. -/
  | complete (f : F)
  | look (f : F)
  | next (f : F)
  | elsewhere (f : F)
  | poke (f : F)

variable {F : Type*} [DecidableEq F]

namespace State

def goto (s : State F) (f : F) (p : Place F Phase Result) : State F :=
  { s with lobby := s.lobby.goto f p }

@[simp] theorem goto_self (s : State F) (f : F) (p : Place F Phase Result) : (s.goto f p).lobby.pc f = p :=
  Lobby.goto_self

theorem goto_of_ne (s : State F) (p : Place F Phase Result) {f g : F} (h : g ≠ f) :
    (s.goto f p).lobby.pc g = s.lobby.pc g := Lobby.goto_of_ne h

def register (s : State F) (f : F) : State F :=
  { s with waiters := s.waiters ++ [f] }.goto f (.waiting .wait)

def call (s : State F) (f : F) : State F :=
  if s.done then s.goto f (.returned .none)
  else if !s.running then { s with running := true, started := s.started ++ [f] }.goto f (.busy .fn)
  else s.register f

def complete (s : State F) (f : F) (raised : Bool) : State F :=
  { s with done := true, running := false, waiters := [] }.goto f (.finish s.waiters (.ran raised))

def look (s : State F) (f : F) : State F :=
  if s.done then s.goto f (.returned .none)
  else s.register f

end State

def step (s : State F) : Action F → Option (State F)
  | .call f =>
    match s.lobby.pc f with
    | .idle => some (s.call f)
    | _ => none
  | .fn f raised =>
    match s.lobby.pc f with
    | .busy .fn => some ({ s with ended := s.ended ++ [raised] }.goto f (.busy (.finishing raised)))
    | _ => none
  | .complete f =>
    match s.lobby.pc f with
    | .busy (.finishing raised) => some (s.complete f raised)
    | _ => none
  | .look f =>
    match s.lobby.pc f with
    | .woken _ => some (s.look f)
    | _ => none
  | .next f => (s.lobby.next (fun _ => false) f).map fun lobby => { s with lobby := lobby }
  | .elsewhere f => (s.lobby.elsewhere f).map fun lobby => { s with lobby := lobby }
  | .poke f => some { s with lobby := s.lobby.poke f }

structure Init (s : State F) : Prop where
  done : s.done = false
  running : s.running = false
  waiters : s.waiters = []
  pc : ∀ f, s.lobby.pc f = .idle
  started : s.started = []
  ended : s.ended = []

/-- A `Once` and the fibers that use it. -/
def once (F : Type*) [DecidableEq F] : System (State F) (Action F) where
  init := Init
  step := step

end Runloom.Once

/-!
## Once: one run

The first caller sets `_running` in its first section, so that whoever comes later finds `_running` or `_done`.
A caller that waits registers before every park, and the section that sets `_done` takes everybody out of
`_waiters` and owes each a wake.
-/

namespace Runloom.Once

open Transition Handoff

variable {F : Type*} [DecidableEq F] {s t : State F} {a : Action F} {f g : F} {p : Place F Phase Result}

/-- What the flags say of the run. -/
inductive Stage (s : State F) : Prop where
  | fresh (hd : s.done = false) (hr : s.running = false) (hstarted : s.started = []) (hended : s.ended = [])
    (hpc : ∀ f, s.lobby.pc f = .idle)
  /-- `g` is the executor, in its function or past it. -/
  | running (g : F) (hd : s.done = false) (hr : s.running = true) (hstarted : s.started = [g])
    (hg : (s.lobby.pc g).begun = some .fn ∧ s.ended = [] ∨
      ∃ raised, (s.lobby.pc g).begun = some (.finishing raised) ∧ s.ended = [raised])
    (hother : ∀ f, f ≠ g → (s.lobby.pc f).begun = none) (hres : ∀ f, (s.lobby.pc f).result = none)
  | done (hd : s.done = true) (hr : s.running = false) (hstarted : s.started.length = 1)
    (hended : s.ended.length = 1) (hwaiters : s.waiters = []) (hpc : ∀ f, (s.lobby.pc f).begun = none)
    (hran : ∀ f raised, (s.lobby.pc f).result = some (.ran raised) → s.ended = [raised])

structure Inv (s : State F) : Prop where
  stage : Stage s
  safe : s.lobby.Safe fun _ => s.waiters

omit [DecidableEq F] in
theorem Inv.init (h : Init s) : Inv s where
  stage := .fresh h.done h.running h.started h.ended h.pc
  safe := Lobby.safe_of_idle h.pc

theorem step_cases (h : step s a = some t) : (∃ f, s.lobby.pc f = .idle ∧ t = s.call f) ∨
    (∃ f raised, s.lobby.pc f = .busy .fn ∧
      t = { s with ended := s.ended ++ [raised] }.goto f (.busy (.finishing raised))) ∨
    (∃ f raised, s.lobby.pc f = .busy (.finishing raised) ∧ t = s.complete f raised) ∨
    (∃ f b, s.lobby.pc f = .woken b ∧ t = s.look f) ∨
    (∃ f lobby, s.lobby.next (fun _ => false) f = some lobby ∧ t = { s with lobby := lobby }) ∨
    ∃ lobby, lobby.pc = s.lobby.pc ∧ (∀ lists, s.lobby.Safe lists → lobby.Safe lists) ∧
      t = { s with lobby := lobby } := by
  cases a with
  | call f =>
    simp only [step] at h
    split at h
    next hpc => exact .inl ⟨f, hpc, (Option.some.inj h).symm⟩
    next => cases h
  | fn f raised =>
    simp only [step] at h
    split at h
    next hpc => exact .inr (.inl ⟨f, raised, hpc, (Option.some.inj h).symm⟩)
    next => cases h
  | complete f =>
    simp only [step] at h
    split at h
    next raised hpc => exact .inr (.inr (.inl ⟨f, raised, hpc, (Option.some.inj h).symm⟩))
    next => cases h
  | look f =>
    simp only [step] at h
    split at h
    next b hpc => exact .inr (.inr (.inr (.inl ⟨f, b, hpc, (Option.some.inj h).symm⟩)))
    next => cases h
  | next f =>
    obtain ⟨lobby, hn, rfl⟩ := Option.map_eq_some_iff.mp h
    exact .inr (.inr (.inr (.inr (.inl ⟨f, lobby, hn, rfl⟩))))
  | elsewhere f =>
    obtain ⟨lobby, hn, rfl⟩ := Option.map_eq_some_iff.mp h
    exact .inr (.inr (.inr (.inr (.inr ⟨lobby, Lobby.elsewhere_pc hn, fun _ hs => hs.elsewhere hn, rfl⟩))))
  | poke f =>
    exact .inr (.inr (.inr (.inr (.inr ⟨s.lobby.poke f, rfl, fun _ hs => hs.poke, (Option.some.inj h).symm⟩))))

omit [DecidableEq F] in
theorem Stage.setLobby {lobby : Lobby F Phase Result} {waiters : List F} (h : Stage s)
    (hidle : s.done = false → s.running = false → (∀ f, s.lobby.pc f = .idle) → ∀ f, lobby.pc f = .idle)
    (hbegun : ∀ f, (lobby.pc f).begun = (s.lobby.pc f).begun)
    (hres : ∀ f r, (lobby.pc f).result = some r → (s.lobby.pc f).result = some r ∨ s.done = true ∧ r = .none)
    (hw : s.done = true → waiters = []) : Stage { s with lobby := lobby, waiters := waiters } := by
  cases h with
  | fresh hd hr hstarted hended hpc => exact .fresh hd hr hstarted hended (hidle hd hr hpc)
  | running g hd hr hstarted hg hother hres' =>
    refine .running g hd hr hstarted ?_ (fun f hf => ?_) fun f => ?_
    · show (lobby.pc g).begun = _ ∧ _ ∨ ∃ _, (lobby.pc g).begun = _ ∧ _
      rw [hbegun]
      exact hg
    · show (lobby.pc f).begun = none
      rw [hbegun]
      exact hother f hf
    · show (lobby.pc f).result = none
      rw [Option.eq_none_iff_forall_ne_some]
      intro r hr'
      rcases hres f r hr' with h | ⟨h, -⟩
      · rw [hres' f] at h
        cases h
      · rw [hd] at h
        cases h
  | done hd hr hstarted hended hwaiters hpc hran =>
    refine .done hd hr hstarted hended (hw hd) (fun f => ?_) fun f raised hf => ?_
    · show (lobby.pc f).begun = none
      rw [hbegun]
      exact hpc f
    · rcases hres f _ hf with h | ⟨-, h⟩
      · exact hran f raised h
      · cases h

theorem Stage.goto {waiters : List F} (h : Stage s) (hf : s.done = true ∨ s.running = true) (hold : (s.lobby.pc f).begun = none)
    (hnew : p.begun = none) (hres : ∀ r, p.result = some r → s.done = true ∧ r = .none)
    (hw : s.done = true → waiters = []) : Stage ({ s with waiters := waiters }.goto f p) := by
  refine h.setLobby (fun hd hr => ?_) (fun g => ?_) (fun g r hr => ?_) hw
  · rw [hd, hr] at hf
    exact hf.elim nofun nofun
  · by_cases hgf : g = f
    · subst hgf
      rw [Lobby.goto_self, hold, hnew]
    · rw [Lobby.goto_of_ne hgf]
  · by_cases hgf : g = f
    · subst hgf
      rw [Lobby.goto_self] at hr
      exact .inr (hres r hr)
    · rw [Lobby.goto_of_ne hgf] at hr
      exact .inl hr

section

omit [DecidableEq F]

theorem Stage.waiters_of_done (h : Stage s) (hd : s.done = true) : s.waiters = [] := by
  cases h with
  | fresh hd' | running g hd' =>
    rw [hd] at hd'
    cases hd'
  | done _ _ _ _ hw _ _ => exact hw

theorem Stage.flag (h : Stage s) (hf : s.lobby.pc f ≠ .idle) : s.done = true ∨ s.running = true := by
  cases h with
  | fresh _ _ _ _ hpc => exact absurd (hpc f) hf
  | running _ _ hr => exact .inr hr
  | done hd => exact .inl hd

end

theorem Inv.register (hI : Inv s) (hflag : s.running = true) (hd : s.done = false)
    (hold : (s.lobby.pc f).begun = none) (hw : (s.lobby.pc f).toWake = []) : Inv (s.register f) where
  stage := by
    refine hI.stage.goto (.inr hflag) hold rfl nofun fun h => ?_
    rw [hd] at h
    cases h
  safe := by
    refine hI.safe.goto hw (fun g _ _ hg => .inl (List.mem_append_left _ hg)) fun _ _ => ?_
    exact List.mem_append_right _ (List.mem_singleton_self f)

theorem Inv.skip (hI : Inv s) (hd : s.done = true) (hold : (s.lobby.pc f).begun = none)
    (hw : (s.lobby.pc f).toWake = []) : Inv (s.goto f (.returned .none)) where
  stage := by
    refine hI.stage.goto (.inl hd) hold rfl (fun r hr => ?_) hI.stage.waiters_of_done
    cases hr
    exact ⟨hd, rfl⟩
  safe := hI.safe.goto hw (fun _ _ _ => Or.inl) nofun

theorem Inv.call (hI : Inv s) (hpc : s.lobby.pc f = .idle) : Inv (s.call f) := by
  have hold : (s.lobby.pc f).begun = none := by
    rw [hpc]
    rfl
  have hw : (s.lobby.pc f).toWake = [] := by
    rw [hpc]
    rfl
  unfold State.call
  split
  next hd => exact hI.skip hd hold hw
  next hd =>
    split
    next hr =>
      -- The election: no flag is set, so nobody has been here before.
      refine ⟨?_, hI.safe.goto hw (fun _ _ _ => Or.inl) nofun⟩
      cases hI.stage with
      | fresh hd' hr' hstarted hended hidle =>
        refine .running f hd' rfl ?_ (.inl ⟨?_, hended⟩) (fun g hg => ?_) fun g => ?_
        · show s.started ++ [f] = [f]
          rw [hstarted]
          rfl
        · rw [State.goto_self]
          rfl
        · rw [State.goto_of_ne _ _ hg, hidle]
          rfl
        · by_cases hgf : g = f
          · subst hgf
            rw [State.goto_self]
            rfl
          · rw [State.goto_of_ne _ _ hgf, hidle]
            rfl
      | running _ _ hr' =>
        rw [hr'] at hr
        cases hr
      | done hd' => exact absurd hd' hd
    next hr =>
      -- A run is on its way: the fiber waits for its end.
      refine hI.register ?_ (Bool.eq_false_iff.mpr hd) hold hw
      simpa using hr

theorem Inv.look (hI : Inv s) {b : Phase} (hpc : s.lobby.pc f = .woken b) : Inv (s.look f) := by
  have hold : (s.lobby.pc f).begun = none := by
    rw [hpc]
    rfl
  have hw : (s.lobby.pc f).toWake = [] := by
    rw [hpc]
    rfl
  have hflag := hI.stage.flag (f := f) (by rw [hpc]; exact nofun)
  unfold State.look
  split
  next hd => exact hI.skip hd hold hw
  next hd => exact hI.register (hflag.resolve_left hd) (Bool.eq_false_iff.mpr hd) hold hw

theorem Stage.executor (h : Stage s) {b : Phase} (hf : (s.lobby.pc f).begun = some b) :
    s.done = false ∧ s.running = true ∧ s.started = [f] ∧
      (b = .fn ∧ s.ended = [] ∨ ∃ raised, b = .finishing raised ∧ s.ended = [raised]) ∧
      (∀ g, g ≠ f → (s.lobby.pc g).begun = none) ∧ ∀ g, (s.lobby.pc g).result = none := by
  cases h with
  | fresh _ _ _ _ hidle =>
    rw [hidle] at hf
    cases hf
  | running g hd hr hstarted hg hother hres =>
    have hfg : f = g := by
      by_contra hne
      rw [hother f hne] at hf
      cases hf
    subst hfg
    refine ⟨hd, hr, hstarted, ?_, hother, hres⟩
    rw [hf] at hg
    rcases hg with ⟨hb, he⟩ | ⟨raised, hb, he⟩
    · exact .inl ⟨Option.some.inj hb, he⟩
    · exact .inr ⟨raised, Option.some.inj hb, he⟩
  | done _ _ _ _ _ hpc =>
    rw [hpc] at hf
    cases hf

theorem Inv.fn (hI : Inv s) (hpc : s.lobby.pc f = .busy .fn) (raised : Bool) :
    Inv ({ s with ended := s.ended ++ [raised] }.goto f (.busy (.finishing raised))) := by
  obtain ⟨hd, hr, hstarted, hended, hother, hres⟩ := hI.stage.executor (f := f) (b := .fn) (by rw [hpc]; rfl)
  have hnone : s.ended = [] := by
    rcases hended with ⟨-, h⟩ | ⟨_, h, -⟩
    · exact h
    · cases h
  refine ⟨.running f hd hr hstarted (.inr ⟨raised, ?_, ?_⟩) (fun g hg => ?_) fun g => ?_,
    hI.safe.goto (by rw [hpc]; rfl) (fun _ _ _ => Or.inl) nofun⟩
  · rw [State.goto_self]
    rfl
  · show s.ended ++ [raised] = [raised]
    rw [hnone]
    rfl
  · rw [State.goto_of_ne _ _ hg]
    exact hother g hg
  · by_cases hgf : g = f
    · subst hgf
      rw [State.goto_self]
      rfl
    · rw [State.goto_of_ne _ _ hgf]
      exact hres g

theorem Inv.complete (hI : Inv s) {raised : Bool} (hpc : s.lobby.pc f = .busy (.finishing raised)) :
    Inv (s.complete f raised) := by
  obtain ⟨hd, hr, hstarted, hended, hother, hres⟩ :=
    hI.stage.executor (f := f) (b := .finishing raised) (by rw [hpc]; rfl)
  -- The function has ended once, whether or not it raised.
  have hone : s.ended = [raised] := by
    rcases hended with ⟨h, -⟩ | ⟨_, h, he⟩
    · cases h
    · cases h
      exact he
  have hself : (s.complete f raised).lobby.pc f = .finish s.waiters (.ran raised) := Lobby.goto_self
  have hne : ∀ g, g ≠ f → (s.complete f raised).lobby.pc g = s.lobby.pc g := fun g hg => Lobby.goto_of_ne hg
  refine ⟨.done rfl rfl ?_ ?_ rfl (fun g => ?_) fun g e hg => ?_, ?_⟩
  · show s.started.length = 1
    rw [hstarted]
    rfl
  · show s.ended.length = 1
    rw [hone]
    rfl
  · by_cases hgf : g = f
    · subst hgf
      rw [hself, Place.begun_finish]
    · rw [hne g hgf]
      exact hother g hgf
  · show s.ended = [e]
    by_cases hgf : g = f
    · subst hgf
      rw [hself, Place.result_finish] at hg
      cases hg
      exact hone
    · rw [hne g hgf, hres g] at hg
      cases hg
  -- The executor takes the list, and owes the wakes.
  · refine hI.safe.goto (by rw [hpc]; rfl) (fun g _ _ hg => ?_) fun _ h => ?_
    · rw [Place.toWake_finish]
      exact .inr hg
    · rw [Place.sleeps_finish] at h
      cases h

theorem Inv.next (hI : Inv s) {lobby : Lobby F Phase Result} {late : Phase → Bool}
    (hn : s.lobby.next late f = some lobby) : Inv { s with lobby := lobby } := by
  refine ⟨hI.stage.setLobby (fun _ _ hidle => ?_) (Lobby.next_begun hn) (fun g r hr => ?_)
    hI.stage.waiters_of_done, hI.safe.next hn⟩
  · -- A fiber that is in no call has no step to make.
    unfold Lobby.next at hn
    rw [hidle f] at hn
    cases hn
  · left
    by_cases hgf : g = f
    · subst hgf
      obtain ⟨w, fs, hpc⟩ := Lobby.result_of_next hn hr
      rw [hpc]
      rfl
    · rwa [Lobby.next_pc_of_ne hn hgf] at hr

theorem Inv.step (hI : Inv s) (h : Once.step s a = some t) : Inv t := by
  obtain ⟨f, hpc, rfl⟩ | ⟨f, raised, hpc, rfl⟩ | ⟨f, raised, hpc, rfl⟩ | ⟨f, b, hpc, rfl⟩ |
    ⟨f, lobby, hn, rfl⟩ | ⟨lobby, hpc, hsafe, rfl⟩ := step_cases h
  · exact hI.call hpc
  · exact hI.fn hpc raised
  · exact hI.complete hpc
  · exact hI.look hpc
  · exact hI.next hn
  · refine ⟨hI.stage.setLobby (fun _ _ hidle f => ?_) (fun f => ?_) (fun f r hr => .inl ?_)
      hI.stage.waiters_of_done, hsafe _ hI.safe⟩
    · rw [hpc]
      exact hidle f
    · rw [hpc]
    · rwa [hpc] at hr

theorem inv_of_reachable (h : (once F).Reachable s) : Inv s :=
  h.invariant (fun _ hs => Inv.init hs) fun _ _ _ hI _ hs => hI.step hs

/-! ## What the callers see -/

section

variable (h : (once F).Reachable s)
include h

theorem started_of_called (hf : s.lobby.pc f ≠ .idle) : s.started.length = 1 := by
  cases (inv_of_reachable h).stage with
  | fresh _ _ _ _ hidle => exact absurd (hidle f) hf
  | running g _ _ hstarted =>
    rw [hstarted]
    rfl
  | done _ _ hstarted => exact hstarted

theorem started_le_one : s.started.length ≤ 1 := by
  cases (inv_of_reachable h).stage with
  | fresh _ _ hstarted =>
    rw [hstarted]
    exact Nat.zero_le _
  | running g _ _ hstarted =>
    rw [hstarted]
    exact Nat.le_refl _
  | done _ _ hstarted => exact Nat.le_of_eq hstarted

theorem ended_of_result {r : Result} (hf : (s.lobby.pc f).result = some r) : s.ended.length = 1 := by
  cases (inv_of_reachable h).stage with
  | fresh _ _ _ _ hidle =>
    rw [hidle] at hf
    cases hf
  | running g _ _ _ _ _ hres =>
    rw [hres] at hf
    cases hf
  | done _ _ _ hended => exact hended

theorem woken_of_ended (he : s.ended ≠ []) (hf : (s.lobby.pc f).sleeps.isSome) :
    (f ∈ s.waiters ∧ ∃ g raised, s.lobby.pc g = .busy (.finishing raised)) ∨ 0 < s.lobby.credit f ∨
      ∃ d, f ∈ (s.lobby.pc d).toWake := by
  have hI := inv_of_reachable h
  obtain ⟨b, hb⟩ := Option.isSome_iff_exists.mp hf
  refine (hI.safe f b hb).imp (fun hmem => ⟨hmem, ?_⟩) id
  cases hI.stage with
  | fresh _ _ _ hended => exact absurd hended he
  | running g _ _ _ hg =>
    rcases hg with ⟨-, hended⟩ | ⟨raised, hbegun, -⟩
    · exact absurd hended he
    · exact ⟨g, raised, Place.begun_eq_some.mp hbegun⟩
  | done _ _ _ _ hwaiters =>
    rw [hwaiters] at hmem
    cases hmem

end

end Runloom.Once
