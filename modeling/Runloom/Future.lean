import Mathlib.Data.Int.Notation
import Mathlib.Data.List.Nodup
import Runloom.Handoff.Lobby
import Runloom.Transition.System

/-!
# The future

Model of `sync.Future`: `_resolve` with its two faces `set_result` and `set_exception`, and `result`, called by
fibers.  A step is a section under the guard `_mu`, a read of the clock, a park or its return, or one wake after the
guard is left.

A Python `None` is `none`, and an exception class that is handed to `set_exception` is here as the instance that it is
made into.
-/

namespace Runloom.Future

open Transition Handoff

/-- What an awaiter gets. -/
inductive Outcome (V E : Type*) where
  | value (v : Option V)
  | raised (e : E)
deriving DecidableEq

structure Cell (F V E : Type*) where
  done : Bool
  result : Option V
  exc : Option E
  waiters : List F

namespace Cell

variable {F V E : Type*}

def empty : Cell F V E := ⟨false, none, none, []⟩

def outcome (c : Cell F V E) : Outcome V E :=
  match c.exc with
  | some e => .raised e
  | none => .value c.result

/-- The section of `_resolve`: the new cell, and the handles to wake. -/
def resolve (c : Cell F V E) (result : Option V) (exc : Option E) : Option (Cell F V E × List F) :=
  -- "Future already resolved"
  if c.done then none
  else some (⟨true, result, exc, []⟩, c.waiters)

def register (c : Cell F V E) (f : F) : Cell F V E := { c with waiters := c.waiters ++ [f] }

def remove [DecidableEq F] (c : Cell F V E) (f : F) : Cell F V E := { c with waiters := c.waiters.erase f }

end Cell

inductive Result (V E : Type*) where
  /-- `_resolve` returned. -/
  | resolved
  /-- `RuntimeError`, "Future already resolved". -/
  | alreadyResolved
  /-- `result` returned or raised what the future holds. -/
  | outcome (o : Outcome V E)
  /-- `TimeoutError`, "Future.result timed out". -/
  | timedOut
deriving DecidableEq

/-- The deadline of a call; `none` for one that waits for ever. -/
abbrev Deadline := Option ℤ

structure State (F V E : Type*) where
  cell : Cell F V E
  lobby : Lobby F Deadline (Result V E)
  now : ℤ
  /-- What the calls of `_resolve` that returned have written. -/
  log : List (Option V × Option E)

inductive Action (F V E : Type*) where
  | setResult (f : F) (v : Option V)
  | setException (f : F) (e : Option E)
  /-- `result` is called, and computes its deadline. -/
  | result (f : F) (timeout : Option ℤ)
  /-- The first section of `result`. -/
  | enter (f : F)
  | look (f : F)
  | expire (f : F)
  | next (f : F)
  | elsewhere (f : F)
  | poke (f : F)
  | tick (d : ℕ)

variable {F V E : Type*}

def late (now : ℤ) (deadline : Deadline) : Bool := deadline.any fun d => decide (d ≤ now)

variable [DecidableEq F]

namespace State

def goto (s : State F V E) (f : F) (p : Place F Deadline (Result V E)) : State F V E :=
  { s with lobby := s.lobby.goto f p }

@[simp] theorem goto_self (s : State F V E) (f : F) (p : Place F Deadline (Result V E)) : (s.goto f p).lobby.pc f = p :=
  Lobby.goto_self

theorem goto_of_ne (s : State F V E) (p : Place F Deadline (Result V E)) {f g : F} (h : g ≠ f) :
    (s.goto f p).lobby.pc g = s.lobby.pc g := Lobby.goto_of_ne h

def resolve (s : State F V E) (f : F) (result : Option V) (exc : Option E) : State F V E :=
  match s.cell.resolve result exc with
  | none => s.goto f (.returned .alreadyResolved)
  | some (cell, waiters) =>
    { s with cell := cell, log := s.log ++ [(result, exc)] }.goto f (.finish waiters .resolved)

def settle (s : State F V E) (f : F) : State F V E := s.goto f (.returned (.outcome s.cell.outcome))

def enter (s : State F V E) (f : F) (deadline : Deadline) : State F V E :=
  if s.cell.done then s.settle f
  else { s with cell := s.cell.register f }.goto f (.waiting deadline)

def look (s : State F V E) (f : F) (deadline : Deadline) : State F V E :=
  if s.cell.done then s.settle f
  -- Still in `_waiters`.
  else s.goto f (.waiting deadline)

def expire (s : State F V E) (f : F) : State F V E :=
  let s := { s with cell := s.cell.remove f }
  if s.cell.done then s.settle f
  else s.goto f (.returned .timedOut)

end State

def step (s : State F V E) : Action F V E → Option (State F V E)
  | .setResult f v =>
    match s.lobby.pc f with
    | .idle => some (s.resolve f v none)
    | _ => none
  | .setException f e =>
    match s.lobby.pc f with
    | .idle => some (s.resolve f none e)
    | _ => none
  | .result f timeout =>
    match s.lobby.pc f with
    | .idle => some (s.goto f (.busy (timeout.map (s.now + ·))))
    | _ => none
  | .enter f =>
    match s.lobby.pc f with
    | .busy deadline => some (s.enter f deadline)
    | _ => none
  | .look f =>
    match s.lobby.pc f with
    | .woken deadline => some (s.look f deadline)
    | _ => none
  | .expire f =>
    match s.lobby.pc f with
    | .expired _ => some (s.expire f)
    | _ => none
  | .next f => (s.lobby.next (late s.now) f).map fun lobby => { s with lobby := lobby }
  | .elsewhere f => (s.lobby.elsewhere f).map fun lobby => { s with lobby := lobby }
  | .poke f => some { s with lobby := s.lobby.poke f }
  | .tick d => some { s with now := s.now + d }

structure Init (s : State F V E) : Prop where
  cell : s.cell = .empty
  pc : ∀ f, s.lobby.pc f = .idle
  log : s.log = []

def future (F V E : Type*) [DecidableEq F] : System (State F V E) (Action F V E) where
  init := Init
  step := step

end Runloom.Future

/-!
## The future: one outcome, and nobody left behind

A call of `result` registers once and may park many times.  That is enough because its handle stays in `_waiters` for
as long as the future is not resolved: a fiber in the loop of `result` is there exactly once, and nobody else is.
-/

namespace Runloom.Future

open Transition Handoff List

variable {F V E : Type*} {c c' : Cell F V E} {x x' : Lobby F Deadline (Result V E)} {f g : F}

/-! ## Who is in `_waiters` -/

/-- The handles in `_waiters` are those of the fibers in the loop of `result`. -/
structure Listed (c : Cell F V E) (x : Lobby F Deadline (Result V E)) : Prop where
  nodup : c.waiters.Nodup
  empty : c.done = true → c.waiters = []
  mem : ∀ f ∈ c.waiters, (x.pc f).loops.isSome
  loop : ∀ f, c.done = false → (x.pc f).loops.isSome → f ∈ c.waiters

theorem Listed.notMem (h : Listed c x) (hf : (x.pc f).loops = none) : f ∉ c.waiters := by
  intro hmem
  have := h.mem f hmem
  rw [hf] at this
  cases this

theorem listed_empty (h : ∀ f, x.pc f = .idle) : Listed (Cell.empty : Cell F V E) x where
  nodup := nodup_nil
  empty _ := rfl
  mem f hf := by cases hf
  loop f _ hf := by
    rw [h] at hf
    cases hf

theorem Listed.congr (h : Listed c x) (hx : ∀ f, (x'.pc f).loops = (x.pc f).loops) : Listed c x' where
  nodup := h.nodup
  empty := h.empty
  mem f hf := by
    rw [hx]
    exact h.mem f hf
  loop f hd hf := by
    rw [hx] at hf
    exact h.loop f hd hf

variable [DecidableEq F] {p : Place F Deadline (Result V E)}

theorem Listed.goto (h : Listed c x) (hin : p.loops.isSome → (x.pc f).loops.isSome)
    (hout : c.done = false → (x.pc f).loops.isSome → p.loops.isSome) : Listed c (x.goto f p) where
  nodup := h.nodup
  empty := h.empty
  mem g hg := by
    by_cases hgf : g = f
    · subst hgf
      rw [Lobby.goto_self]
      apply hout _ (h.mem g hg)
      rw [Bool.eq_false_iff]
      intro hd
      rw [h.empty hd] at hg
      cases hg
    · rw [Lobby.goto_of_ne hgf]
      exact h.mem g hg
  loop g hd hg := by
    by_cases hgf : g = f
    · subst hgf
      rw [Lobby.goto_self] at hg
      exact h.loop g hd (hin hg)
    · rw [Lobby.goto_of_ne hgf] at hg
      exact h.loop g hd hg

theorem Listed.register (h : Listed c x) (hd : c.done = false) (hf : (x.pc f).loops = none)
    (hp : p.loops.isSome) : Listed (c.register f) (x.goto f p) where
  nodup := nodup_append'.mpr ⟨h.nodup, nodup_singleton f, fun g hg hgf =>
    h.notMem hf (mem_singleton.mp hgf ▸ hg)⟩
  empty hd' := by
    rw [show (c.register f).done = c.done from rfl, hd] at hd'
    cases hd'
  mem g hg := by
    by_cases hgf : g = f
    · subst hgf
      rwa [Lobby.goto_self]
    · rw [Lobby.goto_of_ne hgf]
      rcases mem_append.mp hg with hg | hg
      · exact h.mem g hg
      · exact absurd (mem_singleton.mp hg) hgf
  loop g _ hg := by
    by_cases hgf : g = f
    · exact mem_append_right _ (mem_singleton.mpr hgf)
    · rw [Lobby.goto_of_ne hgf] at hg
      exact mem_append_left _ (h.loop g hd hg)

theorem Listed.remove (h : Listed c x) (hp : p.loops = none) : Listed (c.remove f) (x.goto f p) where
  nodup := h.nodup.erase f
  empty hd := by
    show c.waiters.erase f = []
    rw [h.empty hd]
    rfl
  mem g hg := by
    have hgf : g ≠ f := by
      rintro rfl
      exact h.nodup.not_mem_erase hg
    rw [Lobby.goto_of_ne hgf]
    exact h.mem g (mem_of_mem_erase hg)
  loop g hd hg := by
    have hgf : g ≠ f := by
      rintro rfl
      rw [Lobby.goto_self, hp] at hg
      cases hg
    rw [Lobby.goto_of_ne hgf] at hg
    exact (mem_erase_of_ne hgf).mpr (h.loop g hd hg)

variable {v : Option V} {e : Option E}

theorem Listed.resolve : Listed (⟨true, v, e, []⟩ : Cell F V E) (x.goto f p) where
  nodup := nodup_nil
  empty _ := rfl
  mem g hg := by cases hg
  loop g hd _ := by cases hd

/-! ## The invariant -/

variable {s t : State F V E} {a : Action F V E}

structure Inv (s : State F V E) : Prop where
  listed : Listed s.cell s.lobby
  log : s.log = if s.cell.done then [(s.cell.result, s.cell.exc)] else []
  got : ∀ f o, (s.lobby.pc f).result = some (.outcome o) → s.cell.done = true ∧ o = s.cell.outcome
  late : ∀ f deadline, s.lobby.pc f = .expired deadline → late s.now deadline = true
  safe : s.lobby.Safe fun _ => s.cell.waiters
  wakers : s.lobby.Wakers .resolved

omit [DecidableEq F] in
theorem Inv.init (h : Init s) : Inv s where
  listed := by
    rw [h.cell]
    exact listed_empty h.pc
  log := by
    rw [h.log, h.cell]
    rfl
  got f o hf := by
    rw [h.pc] at hf
    cases hf
  late f deadline hf := by
    rw [h.pc] at hf
    cases hf
  safe := Lobby.safe_of_idle h.pc
  wakers f fs r hf := by
    rw [h.pc] at hf
    cases hf

variable {deadline : Deadline}

omit [DecidableEq F] in
theorem late_mono {now now' : ℤ} (h : now ≤ now') (hl : late now deadline = true) :
    late now' deadline = true := by
  cases deadline with
  | none => cases hl
  | some d =>
    simp only [Future.late, Option.any_some, decide_eq_true_eq] at hl ⊢
    omega

section

variable (hI : Inv s)
include hI

theorem Inv.goto {cell : Cell F V E} {log : List (Option V × Option E)} (hlisted : Listed cell (s.lobby.goto f p))
    (hlog : log = if cell.done then [(cell.result, cell.exc)] else [])
    (hkeep : s.cell.done = true → cell.done = true ∧ cell.outcome = s.cell.outcome)
    (hgot : ∀ o, p.result = some (.outcome o) → cell.done = true ∧ o = cell.outcome)
    (hlate : ∀ deadline, p ≠ .expired deadline)
    (hsafe : (s.lobby.goto f p).Safe fun _ => cell.waiters)
    (hwakers : ∀ fs r, p = .waking fs r → r = .resolved) :
    Inv ({ s with cell := cell, log := log }.goto f p) where
  listed := hlisted
  log := hlog
  got g o hg := by
    by_cases hgf : g = f
    · subst hgf
      rw [State.goto_self] at hg
      exact hgot o hg
    · rw [State.goto_of_ne _ _ hgf] at hg
      obtain ⟨hd, rfl⟩ := hI.got g o hg
      exact ⟨(hkeep hd).1, (hkeep hd).2.symm⟩
  late g deadline hg := by
    by_cases hgf : g = f
    · subst hgf
      rw [State.goto_self] at hg
      exact absurd hg (hlate deadline)
    · rw [State.goto_of_ne _ _ hgf] at hg
      exact hI.late g deadline hg
  safe := hsafe
  wakers := hI.wakers.goto hwakers

theorem Inv.settle (hw : (s.lobby.pc f).toWake = []) (hd : s.cell.done = true) : Inv (s.settle f) := by
  refine hI.goto (hI.listed.goto nofun fun h => ?_) hI.log (fun h => ⟨h, rfl⟩) (fun o ho => ?_) nofun
    (hI.safe.goto hw (fun _ _ _ => Or.inl) nofun) nofun
  · rw [hd] at h
    cases h
  · cases ho
    exact ⟨hd, rfl⟩

theorem Inv.resolve (hpc : s.lobby.pc f = .idle) (v : Option V) (e : Option E) : Inv (s.resolve f v e) := by
  have hw : (s.lobby.pc f).toWake = [] := by
    rw [hpc]
    rfl
  have hl : (s.lobby.pc f).loops.isSome → False := by
    rw [hpc]
    exact nofun
  unfold State.resolve Cell.resolve
  by_cases hd : s.cell.done = true
  -- A second resolve raises, and the cell stays.
  · rw [if_pos hd]
    exact hI.goto (hI.listed.goto nofun fun _ h => (hl h).elim) hI.log (fun h => ⟨h, rfl⟩) nofun nofun
      (hI.safe.goto hw (fun _ _ _ => Or.inl) nofun) nofun
  · rw [if_neg hd]
    -- The first one: whoever sleeps is taken along to be woken.
    have hlog : s.log = [] := by
      rw [hI.log, if_neg hd]
    refine hI.goto .resolve ?_ (fun h => absurd h hd) (fun o ho => ?_) (fun deadline h => ?_)
      (hI.safe.goto hw (fun g _ _ hg => ?_) fun _ h => ?_) fun _ _ => Place.waking_finish
    · rw [hlog]
      rfl
    · rw [Place.result_finish] at ho
      cases ho
    · cases hws : s.cell.waiters <;> rw [hws] at h <;> cases h
    · rw [Place.toWake_finish]
      exact .inr hg
    · rw [Place.sleeps_finish] at h
      cases h

theorem Inv.enter (hpc : s.lobby.pc f = .busy deadline) : Inv (s.enter f deadline) := by
  have hw : (s.lobby.pc f).toWake = [] := by
    rw [hpc]
    rfl
  unfold State.enter
  split
  next hd => exact hI.settle hw hd
  next hd =>
    refine hI.goto (hI.listed.register (Bool.eq_false_iff.mpr hd) (by rw [hpc]; rfl) rfl) hI.log
      (fun h => absurd h hd) nofun nofun (hI.safe.goto hw (fun g _ _ hg => ?_) fun _ _ => ?_) nofun
    · exact .inl (mem_append_left _ hg)
    · exact mem_append_right _ (mem_singleton_self f)

theorem Inv.look (hpc : s.lobby.pc f = .woken deadline) : Inv (s.look f deadline) := by
  have hw : (s.lobby.pc f).toWake = [] := by
    rw [hpc]
    rfl
  have hl : (s.lobby.pc f).loops.isSome := by
    rw [hpc]
    rfl
  unfold State.look
  split
  next hd => exact hI.settle hw hd
  -- A spurious return: an awaiter of an open future is still in the list.
  next hd =>
    refine hI.goto (hI.listed.goto (fun _ => hl) fun _ _ => rfl) hI.log (fun h => ⟨h, rfl⟩) nofun nofun
      (hI.safe.goto hw (fun _ _ _ => Or.inl) fun _ _ => ?_) nofun
    exact hI.listed.loop f (Bool.eq_false_iff.mpr hd) hl

theorem Inv.expire (hpc : s.lobby.pc f = .expired deadline) : Inv (s.expire f) := by
  have hw : (s.lobby.pc f).toWake = [] := by
    rw [hpc]
    rfl
  -- The awaiter takes itself out, with or without an outcome.
  have hleave : ∀ {p : Place F Deadline (Result V E)}, p.sleeps = none →
      (s.lobby.goto f p).Safe fun _ => (s.cell.remove f).waiters := by
    intro p hp
    refine hI.safe.goto hw (fun g _ hgf hg => .inl ((mem_erase_of_ne hgf).mpr hg)) fun _ h => ?_
    rw [hp] at h
    cases h
  unfold State.expire
  dsimp only
  split
  -- Resolved at the last moment.
  next hd =>
    refine hI.goto (hI.listed.remove rfl) hI.log (fun h => ⟨h, rfl⟩) (fun o ho => ?_) nofun (hleave rfl) nofun
    cases ho
    exact ⟨hd, rfl⟩
  next hd =>
    exact hI.goto (hI.listed.remove rfl) hI.log (fun h => ⟨h, rfl⟩) nofun nofun (hleave rfl) nofun

omit [DecidableEq F] in
theorem Inv.setLobby {lobby : Lobby F Deadline (Result V E)} {now : ℤ}
    (hloops : ∀ f, (lobby.pc f).loops = (s.lobby.pc f).loops)
    (hres : ∀ f r, (lobby.pc f).result = some r → (s.lobby.pc f).result = some r)
    (hlate : ∀ f deadline, lobby.pc f = .expired deadline → Future.late now deadline = true)
    (hsafe : lobby.Safe fun _ => s.cell.waiters) (hwakers : lobby.Wakers .resolved) :
    Inv { s with lobby := lobby, now := now } where
  listed := hI.listed.congr hloops
  log := hI.log
  got f o hf := hI.got f o (hres f _ hf)
  late := hlate
  safe := hsafe
  wakers := hwakers

theorem Inv.next {lobby : Lobby F Deadline (Result V E)}
    (hn : s.lobby.next (Future.late s.now) f = some lobby) : Inv { s with lobby := lobby } := by
  refine hI.setLobby (Lobby.next_loops hn) (fun g r hr => ?_) (fun g deadline hg => ?_) (hI.safe.next hn)
    (hI.wakers.next hn)
  · by_cases hgf : g = f
    · subst hgf
      obtain ⟨w, fs, hpc⟩ := Lobby.result_of_next hn hr
      rw [hpc]
      rfl
    · rwa [Lobby.next_pc_of_ne hn hgf] at hr
  · exact (Lobby.expired_of_next hn hg).elim (hI.late g deadline) id

end

/-- What a step can do: a section, the beginning of a call, or a step that leaves the future alone. -/
theorem step_cases (h : step s a = some t) :
    (∃ f v e, (a = .setResult f v ∧ e = none ∨ a = .setException f e ∧ v = none) ∧
      s.lobby.pc f = .idle ∧ t = s.resolve f v e) ∨
    (∃ f deadline, s.lobby.pc f = .idle ∧ t = s.goto f (.busy deadline)) ∨
    (∃ f deadline, s.lobby.pc f = .busy deadline ∧ t = s.enter f deadline) ∨
    (∃ f deadline, s.lobby.pc f = .woken deadline ∧ t = s.look f deadline) ∨
    (∃ f deadline, a = .expire f ∧ s.lobby.pc f = .expired deadline ∧ t = s.expire f) ∨
    (∃ f lobby, s.lobby.next (late s.now) f = some lobby ∧ t = { s with lobby := lobby }) ∨
    ∃ lobby now, lobby.pc = s.lobby.pc ∧ (∀ lists, s.lobby.Safe lists → lobby.Safe lists) ∧ s.now ≤ now ∧
      t = { s with lobby := lobby, now := now } := by
  cases a with
  | setResult f v =>
    simp only [step] at h
    split at h
    next hpc => exact .inl ⟨f, v, none, .inl ⟨rfl, rfl⟩, hpc, (Option.some.inj h).symm⟩
    next => cases h
  | setException f e =>
    simp only [step] at h
    split at h
    next hpc => exact .inl ⟨f, none, e, .inr ⟨rfl, rfl⟩, hpc, (Option.some.inj h).symm⟩
    next => cases h
  | result f timeout =>
    simp only [step] at h
    split at h
    next hpc => exact .inr (.inl ⟨f, _, hpc, (Option.some.inj h).symm⟩)
    next => cases h
  | enter f =>
    simp only [step] at h
    split at h
    next deadline hpc => exact .inr (.inr (.inl ⟨f, deadline, hpc, (Option.some.inj h).symm⟩))
    next => cases h
  | look f =>
    simp only [step] at h
    split at h
    next deadline hpc => exact .inr (.inr (.inr (.inl ⟨f, deadline, hpc, (Option.some.inj h).symm⟩)))
    next => cases h
  | expire f =>
    simp only [step] at h
    split at h
    next deadline hpc =>
      exact .inr (.inr (.inr (.inr (.inl ⟨f, deadline, rfl, hpc, (Option.some.inj h).symm⟩))))
    next => cases h
  | next f =>
    obtain ⟨lobby, hn, rfl⟩ := Option.map_eq_some_iff.mp h
    exact .inr (.inr (.inr (.inr (.inr (.inl ⟨f, lobby, hn, rfl⟩)))))
  | elsewhere f =>
    obtain ⟨lobby, hn, rfl⟩ := Option.map_eq_some_iff.mp h
    exact .inr (.inr (.inr (.inr (.inr (.inr ⟨lobby, s.now, Lobby.elsewhere_pc hn,
      fun _ hs => hs.elsewhere hn, Int.le_refl _, rfl⟩)))))
  | poke f =>
    exact .inr (.inr (.inr (.inr (.inr (.inr ⟨s.lobby.poke f, s.now, rfl, fun _ hs => hs.poke, Int.le_refl _,
      (Option.some.inj h).symm⟩)))))
  | tick d =>
    exact .inr (.inr (.inr (.inr (.inr (.inr ⟨s.lobby, s.now + d, rfl, fun _ => id,
      Int.le_add_of_nonneg_right (Int.natCast_nonneg d), (Option.some.inj h).symm⟩)))))

theorem Inv.step (hI : Inv s) (h : step s a = some t) : Inv t := by
  obtain ⟨f, v, e, -, hpc, rfl⟩ | ⟨f, deadline, hpc, rfl⟩ | ⟨f, deadline, hpc, rfl⟩ | ⟨f, deadline, hpc, rfl⟩ |
    ⟨f, deadline, -, hpc, rfl⟩ | ⟨f, lobby, hn, rfl⟩ | ⟨lobby, now, hpc, hsafe, hnow, rfl⟩ := step_cases h
  · exact hI.resolve hpc v e
  · refine hI.goto (hI.listed.goto nofun fun _ hl => ?_) hI.log (fun h => ⟨h, rfl⟩) nofun nofun
      (hI.safe.goto (by rw [hpc]; rfl) (fun _ _ _ => Or.inl) nofun) nofun
    rw [hpc] at hl
    cases hl
  · exact hI.enter hpc
  · exact hI.look hpc
  · exact hI.expire hpc
  · exact hI.next hn
  · refine hI.setLobby (fun g => ?_) (fun g r hr => ?_) (fun g deadline hg => ?_) (hsafe _ hI.safe)
      fun g fs r hg => ?_
    · rw [hpc]
    · rwa [hpc] at hr
    · rw [hpc] at hg
      exact late_mono hnow (hI.late g deadline hg)
    · rw [hpc] at hg
      exact hI.wakers g fs r hg

theorem inv_of_reachable (h : (future F V E).Reachable s) : Inv s :=
  h.invariant (fun _ hs => Inv.init hs) fun _ _ _ hI _ hs => hI.step hs

/-! ## What the calls return -/

theorem resolve_of_done (hd : s.cell.done = true) : s.resolve f v e = s.goto f (.returned .alreadyResolved) := by
  unfold State.resolve Cell.resolve
  rw [if_pos hd]

theorem resolve_of_not_done (hd : s.cell.done = false) :
    s.resolve f v e = { s with cell := ⟨true, v, e, []⟩, log := s.log ++ [(v, e)] }.goto f
      (.finish s.cell.waiters .resolved) := by
  unfold State.resolve Cell.resolve
  rw [hd]
  rfl

theorem resolve_pc_of_ne (h : g ≠ f) : (s.resolve f v e).lobby.pc g = s.lobby.pc g := by
  unfold State.resolve
  split <;> exact Lobby.goto_of_ne h

theorem resolve_pc_ne_timedOut : (s.resolve f v e).lobby.pc f ≠ .returned .timedOut := by
  unfold State.resolve
  split
  next => exact fun h => by simp [State.goto] at h
  next cell ws _ =>
    rw [State.goto_self]
    cases ws <;> exact nofun

theorem enter_pc_of_ne (h : g ≠ f) : (s.enter f deadline).lobby.pc g = s.lobby.pc g := by
  unfold State.enter
  split <;> exact Lobby.goto_of_ne h

theorem enter_pc_ne_timedOut : (s.enter f deadline).lobby.pc f ≠ .returned .timedOut := by
  unfold State.enter
  split <;> exact fun h => by simp [State.settle, State.goto] at h

theorem look_pc_of_ne (h : g ≠ f) : (s.look f deadline).lobby.pc g = s.lobby.pc g := by
  unfold State.look
  split <;> exact Lobby.goto_of_ne h

theorem look_pc_ne_timedOut : (s.look f deadline).lobby.pc f ≠ .returned .timedOut := by
  unfold State.look
  split <;> exact fun h => by simp [State.settle, State.goto] at h

theorem expire_pc_of_ne (h : g ≠ f) : (s.expire f).lobby.pc g = s.lobby.pc g := by
  simp only [State.expire]
  split <;> exact Lobby.goto_of_ne h

theorem Inv.keeps (hI : Inv s) (h : Future.step s a = some t) (hd : s.cell.done = true) : t.cell = s.cell := by
  obtain ⟨f, v, e, -, hpc, rfl⟩ | ⟨f, deadline, hpc, rfl⟩ | ⟨f, deadline, hpc, rfl⟩ | ⟨f, deadline, hpc, rfl⟩ |
    ⟨f, deadline, -, hpc, rfl⟩ | ⟨f, lobby, hn, rfl⟩ | ⟨lobby, now, hpc, -, -, rfl⟩ := step_cases h
  · rw [resolve_of_done hd]
    rfl
  · rfl
  · rw [State.enter, if_pos hd]
    rfl
  · rw [State.look, if_pos hd]
    rfl
  · -- There is nothing left to take out.
    have hout : s.cell.remove f = s.cell := by
      unfold Cell.remove
      rw [hI.listed.empty hd, erase_nil, ← hI.listed.empty hd]
    simp only [State.expire, hout, if_pos hd]
    rfl
  · rfl
  · rfl

theorem expire_of_timedOut (h : (s.expire f).lobby.pc f = .returned .timedOut) : s.cell.done = false := by
  simp only [State.expire] at h
  split at h
  next hd =>
    rw [State.settle, State.goto_self] at h
    cases h
  next hd => exact Bool.eq_false_iff.mpr hd

theorem Inv.timedOut (hI : Inv s) (h : Future.step s a = some t) (hnew : t.lobby.pc f = .returned .timedOut)
    (hold : s.lobby.pc f ≠ .returned .timedOut) :
    a = .expire f ∧ s.cell.done = false ∧ ∃ d ≤ s.now, s.lobby.pc f = .expired (some d) := by
  -- Every section moves one fiber, so only the section of `f` itself is left to look at.
  have hmoved : ∀ {g : F} {u : State F V E}, (∀ d, d ≠ g → u.lobby.pc d = s.lobby.pc d) →
      u.lobby.pc f = .returned .timedOut → f = g := by
    intro g u hother hu
    by_contra hfg
    rw [hother f hfg] at hu
    exact hold hu
  obtain ⟨g, v, e, -, -, rfl⟩ | ⟨g, deadline, -, rfl⟩ | ⟨g, deadline, -, rfl⟩ | ⟨g, deadline, -, rfl⟩ |
    ⟨g, deadline, rfl, hpc, rfl⟩ | ⟨g, lobby, hn, rfl⟩ | ⟨lobby, now, hpc, -, -, rfl⟩ := step_cases h
  · obtain rfl := hmoved (fun d hd => resolve_pc_of_ne hd) hnew
    exact absurd hnew resolve_pc_ne_timedOut
  · obtain rfl := hmoved (fun d hd => Lobby.goto_of_ne hd) hnew
    rw [State.goto_self] at hnew
    cases hnew
  · obtain rfl := hmoved (fun d hd => enter_pc_of_ne hd) hnew
    exact absurd hnew enter_pc_ne_timedOut
  · obtain rfl := hmoved (fun d hd => look_pc_of_ne hd) hnew
    exact absurd hnew look_pc_ne_timedOut
  · obtain rfl := hmoved (fun d hd => expire_pc_of_ne hd) hnew
    refine ⟨rfl, expire_of_timedOut hnew, ?_⟩
    have hlate := hI.late f deadline hpc
    cases deadline with
    | none => cases hlate
    | some d => exact ⟨d, of_decide_eq_true hlate, hpc⟩
  · exact absurd (hI.wakers.returned_of_next (r := .timedOut) hn nofun hnew) hold
  · rw [show lobby.pc f = s.lobby.pc f by rw [hpc]] at hnew
    exact absurd hnew hold

/-- A future is resolved at most once, every call that does not time out returns what it holds, and nobody blocked
is without a wake. -/
theorem outcome_single_assignment (h : (future F V E).Reachable s) :
    (s.log.length ≤ 1 ∧ (s.cell.done = true ↔ s.log = [(s.cell.result, s.cell.exc)])) ∧
    (∀ a t, step s a = some t → s.cell.done = true → t.cell = s.cell) ∧
    (∀ a t f v e, step s a = some t → a = .setResult f v ∧ e = none ∨ a = .setException f e ∧ v = none →
      if s.cell.done then t = s.goto f (.returned .alreadyResolved)
      else (t.lobby.pc f).result = some .resolved ∧ t.log = [(v, e)]) ∧
    (∀ f o, s.lobby.pc f = .returned (.outcome o) → s.cell.done = true ∧ o = s.cell.outcome) ∧
    (∀ a t f, step s a = some t → t.lobby.pc f = .returned .timedOut → s.lobby.pc f ≠ .returned .timedOut →
      a = .expire f ∧ s.cell.done = false ∧ ∃ d ≤ s.now, s.lobby.pc f = .expired (some d)) ∧
    (s.cell.done = true → ∀ f, (s.lobby.pc f).sleeps.isSome →
      0 < s.lobby.credit f ∨ ∃ d, f ∈ (s.lobby.pc d).toWake) ∧
    (∀ f ∈ s.cell.waiters, (s.lobby.pc f).loops.isSome) := by
  have hI := inv_of_reachable h
  refine ⟨⟨?_, ?_⟩, fun a t hstep hd => hI.keeps hstep hd, fun a t f v e hstep ha => ?_, fun f o hf => ?_,
    fun a t f hstep hnew hold => hI.timedOut hstep hnew hold, fun hd f hf => ?_, hI.listed.mem⟩
  · rw [hI.log]
    split <;> simp
  · rw [hI.log]
    cases s.cell.done <;> simp
  · have ht : t = s.resolve f v e := by
      rcases ha with ⟨rfl, rfl⟩ | ⟨rfl, rfl⟩ <;> simp only [step] at hstep <;> split at hstep
      · exact (Option.some.inj hstep).symm
      · cases hstep
      · exact (Option.some.inj hstep).symm
      · cases hstep
    subst ht
    cases hd : s.cell.done with
    | true => exact resolve_of_done hd
    | false =>
      rw [resolve_of_not_done hd]
      refine ⟨?_, ?_⟩
      · rw [State.goto_self, Place.result_finish]
      · show s.log ++ [(v, e)] = [(v, e)]
        rw [hI.log, hd]
        rfl
  · apply hI.got f o
    rw [hf]
    rfl
  · obtain ⟨deadline, hdl⟩ := Option.isSome_iff_exists.mp hf
    refine (hI.safe f deadline hdl).resolve_left ?_
    rw [hI.listed.empty hd]
    exact not_mem_nil

def unused : State (Fin 3) ℕ ℕ := ⟨.empty, ⟨fun _ => .idle, fun _ => 0⟩, 0, []⟩

/-- Fiber 1 times out. Fiber 2 then resolves, twice: fiber 0 gets the first value, and the second call raises. -/
theorem outcome_single_assignment_threeFibers :
    ∃ s, (future (Fin 3) ℕ ℕ).Reachable s ∧ s.lobby.pc 0 = .returned (.outcome (.value (some 7))) ∧
      s.lobby.pc 1 = .returned .timedOut ∧ s.lobby.pc 2 = .returned .alreadyResolved ∧
      s.cell.outcome = .value (some 7) ∧ s.log.length ≤ 1 ∧ s.cell.done = true := by
  obtain ⟨s, hr, h0, h1, h2⟩ := (future (Fin 3) ℕ ℕ).reaches
    (fun s => s.lobby.pc 0 = .returned (.outcome (.value (some 7))) ∧
      s.lobby.pc 1 = .returned .timedOut ∧ s.lobby.pc 2 = .returned .alreadyResolved)
    [.result 0 none, .enter 0, .next 0, .result 1 (some 2), .enter 1, .next 1, .tick 2, .next 1, .look 1,
      .next 1, .expire 1, .setResult 2 (some 7), .next 2, .next 2, .setResult 2 (some 8), .next 0, .look 0]
    (s := unused) ⟨rfl, fun _ => rfl, rfl⟩ (by decide +kernel)
  obtain ⟨⟨hlog, -⟩, -, -, hgot, -, -, -⟩ := outcome_single_assignment hr
  obtain ⟨hd, ho⟩ := hgot 0 _ h0
  exact ⟨s, hr, h0, h1, h2, ho.symm, hlog, hd⟩

end Runloom.Future
