import Mathlib.Data.Int.Notation
import Mathlib.Data.List.Nodup
import Runloom.Handoff.Lobby
import Runloom.Transition.System

/-!
# The watch cell

Model of `sync.Watch`: `set` and `wait_changed`, called by fibers.  A step is a section under the guard `_mu`, a read
of the clock, a park or its return, or one wake after the guard is left.

`set` empties the list, and wakes whoever was in it; a call that goes back to its park after that is in the list no
more.
-/

namespace Runloom.Watch

open Transition Handoff

/-- The arguments of `wait_changed`, with the timeout as a deadline. -/
structure Call where
  seenVersion : ℤ
  deadline : Option ℤ
deriving DecidableEq

inductive Result (V : Type*) where
  /-- `set` returned. -/
  | set
  /-- `wait_changed` returned `(value, version)`; the call had `seen`. -/
  | changed (seen : ℤ) (value : V) (version : ℕ)
  /-- `wait_changed` returned `None`. -/
  | none
deriving DecidableEq

structure State (F V : Type*) where
  value : V
  version : ℕ
  waiters : List F
  lobby : Lobby F Call (Result V)
  now : ℤ
  history : List V

inductive Action (F V : Type*) where
  | set (f : F) (value : V)
  /-- `wait_changed` is called, and computes its deadline. -/
  | waitChanged (f : F) (seenVersion : ℤ) (timeout : Option ℤ)
  /-- The first section of `wait_changed`. -/
  | enter (f : F)
  | look (f : F)
  | expire (f : F)
  | next (f : F)
  | elsewhere (f : F)
  | poke (f : F)
  | tick (d : ℕ)

def Call.late (now : ℤ) (c : Call) : Bool := c.deadline.any fun d => decide (d ≤ now)

variable {F V : Type*} [DecidableEq F]

namespace State

def goto (s : State F V) (f : F) (p : Place F Call (Result V)) : State F V :=
  { s with lobby := s.lobby.goto f p }

@[simp] theorem goto_self (s : State F V) (f : F) (p : Place F Call (Result V)) : (s.goto f p).lobby.pc f = p :=
  Lobby.goto_self

theorem goto_of_ne (s : State F V) (p : Place F Call (Result V)) {f g : F} (h : g ≠ f) :
    (s.goto f p).lobby.pc g = s.lobby.pc g := Lobby.goto_of_ne h

def set (s : State F V) (f : F) (value : V) : State F V :=
  { s with value := value, version := s.version + 1, waiters := [], history := s.history ++ [value] }.goto f
    (.finish s.waiters .set)

def changed (s : State F V) (c : Call) : Bool := decide (c.seenVersion < s.version)

def pair (s : State F V) (c : Call) : Result V := .changed c.seenVersion s.value s.version

def enter (s : State F V) (f : F) (c : Call) : State F V :=
  if s.changed c then s.goto f (.returned (s.pair c))
  else { s with waiters := s.waiters ++ [f] }.goto f (.waiting c)

def look (s : State F V) (f : F) (c : Call) : State F V :=
  if s.changed c then { s with waiters := s.waiters.erase f }.goto f (.returned (s.pair c))
  -- Back to the park, in `_waiters` or not.
  else s.goto f (.waiting c)

def expire (s : State F V) (f : F) (c : Call) : State F V :=
  let s := { s with waiters := s.waiters.erase f }
  if s.changed c then s.goto f (.returned (s.pair c))
  else s.goto f (.returned .none)

end State

def step (s : State F V) : Action F V → Option (State F V)
  | .set f value =>
    match s.lobby.pc f with
    | .idle => some (s.set f value)
    | _ => none
  | .waitChanged f seenVersion timeout =>
    match s.lobby.pc f with
    | .idle => some (s.goto f (.busy ⟨seenVersion, timeout.map (s.now + ·)⟩))
    | _ => none
  | .enter f =>
    match s.lobby.pc f with
    | .busy c => some (s.enter f c)
    | _ => none
  | .look f =>
    match s.lobby.pc f with
    | .woken c => some (s.look f c)
    | _ => none
  | .expire f =>
    match s.lobby.pc f with
    | .expired c => some (s.expire f c)
    | _ => none
  | .next f => (s.lobby.next (Call.late s.now) f).map fun lobby => { s with lobby := lobby }
  | .elsewhere f => (s.lobby.elsewhere f).map fun lobby => { s with lobby := lobby }
  | .poke f => some { s with lobby := s.lobby.poke f }
  | .tick d => some { s with now := s.now + d }

structure Init (s : State F V) : Prop where
  version : s.version = 0
  waiters : s.waiters = []
  pc : ∀ f, s.lobby.pc f = .idle
  history : s.history = [s.value]

def watch (F V : Type*) [DecidableEq F] : System (State F V) (Action F V) where
  init := Init
  step := step

end Runloom.Watch

/-!
## The watch cell: what is returned, and who is woken

What `wait_changed` returns is right in every run: a version above the one the call has seen, with the value that was
set for it.

Whether the call is woken is another matter.  A call that asks for a version beyond the next one is taken out of
`_waiters` by a `set` that does not satisfy it, and goes back to its park without registering again; no later `set`
finds it.
-/

namespace Runloom.Watch

open Transition Handoff List

variable {F V : Type*} [DecidableEq F] {s t : State F V} {a : Action F V} {f g : F} {c : Call}
  {p : Place F Call (Result V)}

/-- What a step can do: a section, the beginning of a call, or a step that leaves the cell alone. -/
theorem step_cases (h : step s a = some t) : (∃ f v, s.lobby.pc f = .idle ∧ t = s.set f v) ∨
    (∃ f c, s.lobby.pc f = .idle ∧ t = s.goto f (.busy c)) ∨
    (∃ f c, a = .enter f ∧ s.lobby.pc f = .busy c ∧ t = s.enter f c) ∨
    (∃ f c, s.lobby.pc f = .woken c ∧ t = s.look f c) ∨
    (∃ f c, s.lobby.pc f = .expired c ∧ t = s.expire f c) ∨
    (∃ f lobby, s.lobby.next (Call.late s.now) f = some lobby ∧ t = { s with lobby := lobby }) ∨
    ∃ lobby now, lobby.pc = s.lobby.pc ∧ (∀ lists, s.lobby.Safe lists → lobby.Safe lists) ∧
      t = { s with lobby := lobby, now := now } := by
  cases a with
  | set f v =>
    simp only [step] at h
    split at h
    next hpc => exact .inl ⟨f, v, hpc, (Option.some.inj h).symm⟩
    next => cases h
  | waitChanged f seen timeout =>
    simp only [step] at h
    split at h
    next hpc => exact .inr (.inl ⟨f, _, hpc, (Option.some.inj h).symm⟩)
    next => cases h
  | enter f =>
    simp only [step] at h
    split at h
    next c hpc => exact .inr (.inr (.inl ⟨f, c, rfl, hpc, (Option.some.inj h).symm⟩))
    next => cases h
  | look f =>
    simp only [step] at h
    split at h
    next c hpc => exact .inr (.inr (.inr (.inl ⟨f, c, hpc, (Option.some.inj h).symm⟩)))
    next => cases h
  | expire f =>
    simp only [step] at h
    split at h
    next c hpc => exact .inr (.inr (.inr (.inr (.inl ⟨f, c, hpc, (Option.some.inj h).symm⟩))))
    next => cases h
  | next f =>
    obtain ⟨lobby, hn, rfl⟩ := Option.map_eq_some_iff.mp h
    exact .inr (.inr (.inr (.inr (.inr (.inl ⟨f, lobby, hn, rfl⟩)))))
  | elsewhere f =>
    obtain ⟨lobby, hn, rfl⟩ := Option.map_eq_some_iff.mp h
    exact .inr (.inr (.inr (.inr (.inr (.inr ⟨lobby, s.now, Lobby.elsewhere_pc hn,
      fun _ hs => hs.elsewhere hn, rfl⟩)))))
  | poke f =>
    exact .inr (.inr (.inr (.inr (.inr (.inr ⟨s.lobby.poke f, s.now, rfl, fun _ hs => hs.poke,
      (Option.some.inj h).symm⟩)))))
  | tick d =>
    exact .inr (.inr (.inr (.inr (.inr (.inr ⟨s.lobby, s.now + d, rfl, fun _ => id, (Option.some.inj h).symm⟩)))))

/-! ## The pairs that are returned -/

/-- The pair is above what the call has seen, with the value of its version. -/
def Result.Right (history : List V) : Result V → Prop
  | .changed seen v version => seen < version ∧ history[version]? = some v
  | _ => True

structure Versions (s : State F V) : Prop where
  length : s.history.length = s.version + 1
  value : s.history[s.version]? = some s.value
  right : ∀ f r, (s.lobby.pc f).result = some r → r.Right s.history

omit [DecidableEq F] in
theorem Versions.init (h : Init s) : Versions s where
  length := by
    rw [h.history, h.version]
    rfl
  value := by
    rw [h.history, h.version]
    rfl
  right f r hf := by
    rw [h.pc] at hf
    cases hf

theorem Result.Right.append {history : List V} {r : Result V} (h : r.Right history) (v : V) :
    r.Right (history ++ [v]) := by
  cases r with
  | changed seen w version =>
    obtain ⟨hseen, hget⟩ := h
    have hlt : version < history.length := (List.getElem?_eq_some_iff.mp hget).1
    refine ⟨hseen, ?_⟩
    rw [List.getElem?_append_left hlt]
    exact hget
  | _ => trivial

theorem Versions.goto (hV : Versions s) {waiters : List F} (hp : ∀ r, p.result = some r → r.Right s.history) :
    Versions ({ s with waiters := waiters }.goto f p) where
  length := hV.length
  value := hV.value
  right g r hg := by
    by_cases hgf : g = f
    · subst hgf
      rw [State.goto_self] at hg
      exact hp r hg
    · rw [State.goto_of_ne _ _ hgf] at hg
      exact hV.right g r hg

omit [DecidableEq F] in
theorem Versions.pair (hV : Versions s) (hc : s.changed c = true) :
    ∀ r, (Place.returned (s.pair c) : Place F Call (Result V)).result = some r → r.Right s.history := by
  intro r hr
  cases hr
  exact ⟨of_decide_eq_true hc, hV.value⟩

theorem Versions.set (hV : Versions s) (v : V) : Versions (s.set f v) where
  length := by
    show (s.history ++ [v]).length = s.version + 1 + 1
    rw [length_append, hV.length]
    rfl
  value := by
    show (s.history ++ [v])[s.version + 1]? = some v
    rw [← hV.length]
    exact List.getElem?_concat_length
  right g r hg := by
    by_cases hgf : g = f
    · subst hgf
      rw [show (s.set g v).lobby.pc g = .finish s.waiters .set from Lobby.goto_self, Place.result_finish] at hg
      cases hg
      trivial
    · rw [show (s.set f v).lobby.pc g = s.lobby.pc g from Lobby.goto_of_ne hgf] at hg
      exact (hV.right g r hg).append v

theorem Versions.step (hV : Versions s) (h : Watch.step s a = some t) : Versions t := by
  obtain ⟨f, v, -, rfl⟩ | ⟨f, c, -, rfl⟩ | ⟨f, c, -, -, rfl⟩ | ⟨f, c, -, rfl⟩ | ⟨f, c, -, rfl⟩ |
    ⟨f, lobby, hn, rfl⟩ | ⟨lobby, now, hpc, -, rfl⟩ := step_cases h
  · exact hV.set v
  · exact hV.goto nofun
  · unfold State.enter
    split
    next hc => exact hV.goto (hV.pair hc)
    next => exact hV.goto nofun
  · unfold State.look
    split
    next hc => exact hV.goto (hV.pair hc)
    next => exact hV.goto nofun
  · simp only [State.expire]
    split
    next hc => exact hV.goto (hV.pair hc)
    next =>
      refine hV.goto fun r hr => ?_
      cases hr
      trivial
  · refine ⟨hV.length, hV.value, fun g r hg => ?_⟩
    by_cases hgf : g = f
    · subst hgf
      obtain ⟨w, fs, hpc⟩ := Lobby.result_of_next hn hg
      exact hV.right g r (by rw [hpc]; rfl)
    · rw [show lobby.pc g = s.lobby.pc g from Lobby.next_pc_of_ne hn hgf] at hg
      exact hV.right g r hg
  · refine ⟨hV.length, hV.value, fun g r hg => hV.right g r ?_⟩
    rwa [show lobby.pc g = s.lobby.pc g by rw [hpc]] at hg

theorem versions_of_reachable (h : (watch F V).Reachable s) : Versions s :=
  h.invariant (fun _ hs => Versions.init hs) fun _ _ _ hV _ hs => hV.step hs

/-! ## The wakes -/

def SeenIsPast (s : State F V) (a : Action F V) : Prop :=
  match a with
  | .enter f => ∀ c ∈ (s.lobby.pc f).begun, c.seenVersion ≤ s.version
  | _ => True

instance (s : State F V) : ∀ a : Action F V, Decidable (SeenIsPast s a)
  | .enter f => inferInstanceAs (Decidable (∀ c ∈ (s.lobby.pc f).begun, c.seenVersion ≤ s.version))
  | .set .. | .waitChanged .. | .look _ | .expire _ | .next _ | .elsewhere _ | .poke _ | .tick _ => .isTrue trivial

structure Inv (s : State F V) : Prop where
  nodup : s.waiters.Nodup
  mem : ∀ f ∈ s.waiters, ∃ c, (s.lobby.pc f).loops = some c ∧ s.changed c = false
  loop : ∀ f c, (s.lobby.pc f).loops = some c → c.seenVersion ≤ s.version ∧ (s.changed c = false → f ∈ s.waiters)
  safe : s.lobby.Safe fun _ => s.waiters

omit [DecidableEq F] in
theorem Inv.init (h : Init s) : Inv s where
  nodup := by
    rw [h.waiters]
    exact nodup_nil
  mem f hf := by
    rw [h.waiters] at hf
    cases hf
  loop f c hf := by
    rw [h.pc] at hf
    cases hf
  safe := Lobby.safe_of_idle h.pc

section

variable (hI : Inv s)
include hI

section

omit [DecidableEq F]

theorem Inv.notMem (hf : (s.lobby.pc f).loops = none) : f ∉ s.waiters := by
  intro hmem
  obtain ⟨c, hc, -⟩ := hI.mem f hmem
  rw [hf] at hc
  cases hc

theorem Inv.notMem_of_changed (hf : (s.lobby.pc f).loops = some c) (hc : s.changed c = true) : f ∉ s.waiters := by
  intro hmem
  obtain ⟨c', hc', hch⟩ := hI.mem f hmem
  rw [hf] at hc'
  cases hc'
  rw [hc] at hch
  cases hch

end

theorem Inv.goto {waiters : List F} (hw : (s.lobby.pc f).toWake = []) (hnodup : waiters.Nodup)
    (hother : ∀ g, g ≠ f → (g ∈ waiters ↔ g ∈ s.waiters))
    (hself : f ∈ waiters ↔ ∃ c, p.loops = some c ∧ s.changed c = false)
    (hseen : ∀ c, p.loops = some c → c.seenVersion ≤ s.version)
    (hsleeps : p.sleeps.isSome → f ∈ waiters) :
    Inv ({ s with waiters := waiters }.goto f p) where
  nodup := hnodup
  mem g hg := by
    by_cases hgf : g = f
    · subst hgf
      rw [State.goto_self]
      exact hself.mp hg
    · rw [State.goto_of_ne _ _ hgf]
      exact hI.mem g ((hother g hgf).mp hg)
  loop g c hg := by
    by_cases hgf : g = f
    · subst hgf
      rw [State.goto_self] at hg
      exact ⟨hseen c hg, fun hc => hself.mpr ⟨c, hg, hc⟩⟩
    · rw [State.goto_of_ne _ _ hgf] at hg
      exact (hI.loop g c hg).imp id fun h hc => (hother g hgf).mpr (h hc)
  safe := by
    refine hI.safe.goto hw (fun g _ hgf hg => .inl ((hother g hgf).mpr hg)) fun c hc => hsleeps ?_
    rw [hc]
    rfl

theorem Inv.leave {waiters : List F} (hw : (s.lobby.pc f).toWake = []) (hnodup : waiters.Nodup)
    (hother : ∀ g, g ≠ f → (g ∈ waiters ↔ g ∈ s.waiters)) (hout : f ∉ waiters) (r : Result V) :
    Inv ({ s with waiters := waiters }.goto f (.returned r)) := by
  refine hI.goto hw hnodup hother (iff_of_false hout ?_) nofun nofun
  rintro ⟨c, hc, -⟩
  cases hc

theorem Inv.set (hpc : s.lobby.pc f = .idle) (v : V) : Inv (s.set f v) where
  nodup := nodup_nil
  -- The list is taken as a whole.
  mem g hg := by cases hg
  loop g c hg := by
    have hgf : g ≠ f := by
      rintro rfl
      rw [show (s.set g v).lobby.pc g = .finish s.waiters .set from Lobby.goto_self, Place.loops_finish] at hg
      cases hg
    rw [show (s.set f v).lobby.pc g = s.lobby.pc g from Lobby.goto_of_ne hgf] at hg
    -- The version is past whatever the call has seen.
    have hseen : c.seenVersion < ((s.version + 1 : ℕ) : ℤ) := by
      have := (hI.loop g c hg).1
      omega
    refine ⟨Int.le_of_lt hseen, fun hc => ?_⟩
    exact absurd hseen (of_decide_eq_false hc)
  safe := by
    refine hI.safe.goto (by rw [hpc]; rfl) (fun g _ _ hg => ?_) fun _ h => ?_
    · rw [Place.toWake_finish]
      exact .inr hg
    · rw [Place.sleeps_finish] at h
      cases h

theorem Inv.enter (hpc : s.lobby.pc f = .busy c) (hC : c.seenVersion ≤ s.version) : Inv (s.enter f c) := by
  have hw : (s.lobby.pc f).toWake = [] := by
    rw [hpc]
    rfl
  have hout : f ∉ s.waiters := by
    apply hI.notMem
    rw [hpc]
    rfl
  unfold State.enter
  split
  · exact hI.leave hw hI.nodup (fun _ _ => Iff.rfl) hout _
  -- The call registers; this is where the condition is needed.
  next hc =>
    have hmem : ∀ g, g ∈ s.waiters ++ [f] ↔ g ∈ s.waiters ∨ g = f := fun g => by
      rw [mem_append, mem_singleton]
    refine hI.goto hw ?_ (fun g hgf => ?_) (iff_of_true ((hmem f).mpr (.inr rfl)) ?_) (fun d hd => ?_)
      fun _ => (hmem f).mpr (.inr rfl)
    · refine nodup_append'.mpr ⟨hI.nodup, nodup_singleton f, fun g hg hgf => ?_⟩
      exact hout (mem_singleton.mp hgf ▸ hg)
    · rw [hmem, or_iff_left hgf]
    · exact ⟨c, rfl, Bool.eq_false_iff.mpr hc⟩
    · cases hd
      exact hC

theorem Inv.look (hpc : s.lobby.pc f = .woken c) : Inv (s.look f c) := by
  have hw : (s.lobby.pc f).toWake = [] := by
    rw [hpc]
    rfl
  have hl : (s.lobby.pc f).loops = some c := by
    rw [hpc]
    rfl
  unfold State.look
  split
  next hc =>
    -- The `set` has taken the call out already.
    have hout := hI.notMem_of_changed hl hc
    rw [erase_of_not_mem hout]
    exact hI.leave hw hI.nodup (fun _ _ => Iff.rfl) hout _
  next hc =>
    -- Nothing has changed, and the call was woken by nobody: it is still in the list.
    have hc' := Bool.eq_false_iff.mpr hc
    have hin := (hI.loop f c hl).2 hc'
    refine hI.goto hw hI.nodup (fun _ _ => Iff.rfl) (iff_of_true hin ⟨c, rfl, hc'⟩) (fun d hd => ?_) fun _ => hin
    cases hd
    exact (hI.loop f c hl).1

theorem Inv.expire (hpc : s.lobby.pc f = .expired c) : Inv (s.expire f c) := by
  have hw : (s.lobby.pc f).toWake = [] := by
    rw [hpc]
    rfl
  have hleave := hI.leave hw (hI.nodup.erase f) (fun g hgf => mem_erase_of_ne hgf) hI.nodup.not_mem_erase
  simp only [State.expire]
  split <;> exact hleave _

omit [DecidableEq F] in
theorem Inv.setLobby {lobby : Lobby F Call (Result V)} {now : ℤ}
    (hloops : ∀ f, (lobby.pc f).loops = (s.lobby.pc f).loops) (hsafe : lobby.Safe fun _ => s.waiters) :
    Inv { s with lobby := lobby, now := now } where
  nodup := hI.nodup
  mem f hf := by
    rw [show (_ : State F V).lobby.pc f = lobby.pc f from rfl, hloops]
    exact hI.mem f hf
  loop f c hf := by
    rw [show (_ : State F V).lobby.pc f = lobby.pc f from rfl, hloops] at hf
    exact hI.loop f c hf
  safe := hsafe

theorem Inv.step (hC : SeenIsPast s a) (h : Watch.step s a = some t) : Inv t := by
  obtain ⟨f, v, hpc, rfl⟩ | ⟨f, c, hpc, rfl⟩ | ⟨f, c, rfl, hpc, rfl⟩ | ⟨f, c, hpc, rfl⟩ | ⟨f, c, hpc, rfl⟩ |
    ⟨f, lobby, hn, rfl⟩ | ⟨lobby, now, hpc, hsafe, rfl⟩ := step_cases h
  · exact hI.set hpc v
  · have hout : f ∉ s.waiters := by
      apply hI.notMem
      rw [hpc]
      rfl
    refine hI.goto (by rw [hpc]; rfl) hI.nodup (fun _ _ => Iff.rfl) (iff_of_false hout ?_) nofun nofun
    rintro ⟨d, hd, -⟩
    cases hd
  · apply hI.enter hpc
    apply hC c
    rw [hpc]
    rfl
  · exact hI.look hpc
  · exact hI.expire hpc
  · exact hI.setLobby (Lobby.next_loops hn) (hI.safe.next hn)
  · refine hI.setLobby (fun f => ?_) (hsafe _ hI.safe)
    rw [hpc]

end

theorem inv_of_reachableWith (h : (watch F V).ReachableWith SeenIsPast s) : Inv s :=
  h.invariant (fun _ hs => Inv.init hs) fun _ _ _ hI hC hs => hI.step hC hs

/-- A pair that `wait_changed` returns is above what the call has seen; and if nobody asks for more than the next
version, whoever is blocked in vain has a wake. -/
theorem changes_not_missed : (∀ s : State F V, (watch F V).Reachable s → ∀ f seen v version,
      s.lobby.pc f = .returned (.changed seen v version) → seen < version ∧ s.history[version]? = some v) ∧
    (∀ s : State F V, (watch F V).ReachableWith SeenIsPast s → ∀ f c, (s.lobby.pc f).sleeps = some c →
      c.seenVersion < s.version → 0 < s.lobby.credit f ∨ ∃ d, f ∈ (s.lobby.pc d).toWake) := by
  refine ⟨fun s h f seen v version hf => ?_, fun s h f c hf hc => ?_⟩
  · refine (versions_of_reachable h).right f (.changed seen v version) ?_
    rw [hf]
    rfl
  · have hI := inv_of_reachableWith h
    exact (hI.safe f c hf).resolve_left (hI.notMem_of_changed (Place.loops_of_sleeps hf) (decide_eq_true hc))

def unused : State (Fin 2) ℕ := ⟨0, 0, [], ⟨fun _ => .idle, fun _ => 0⟩, 0, [0]⟩

/-- Fiber 0 waits for a version above the current one, and the `set` of fiber 1 wakes it. -/
theorem changes_not_missed_oneSet :
    ∃ s, (watch (Fin 2) ℕ).ReachableWith SeenIsPast s ∧ s.lobby.pc 0 = .parked ⟨0, none⟩ ∧ s.version = 1 ∧
      0 < s.lobby.credit 0 := by
  obtain ⟨s, hr, hpc, hv, hw⟩ := (watch (Fin 2) ℕ).reachesWith SeenIsPast
    (fun s => s.lobby.pc 0 = .parked ⟨0, none⟩ ∧ s.version = 1 ∧ ∀ d, (s.lobby.pc d).toWake = [])
    [.waitChanged 0 0 none, .enter 0, .next 0, .set 1 5, .next 1]
    (s := unused) ⟨rfl, rfl, fun _ => rfl, rfl⟩ (by decide +kernel)
  refine ⟨s, hr, hpc, hv, (changes_not_missed.2 s hr 0 ⟨0, none⟩ ?_ ?_).resolve_right ?_⟩
  · rw [hpc]
    rfl
  · rw [hv]
    decide
  · rintro ⟨d, hd⟩
    rw [hw d] at hd
    cases hd

/-- The first `set` wakes fiber 0 in vain, and the second one finds nobody in the list. -/
theorem set_misses_waiter :
    ∃ s, (watch (Fin 2) ℕ).Reachable s ∧ s.lobby.pc 0 = .parked ⟨1, none⟩ ∧ s.version = 2 ∧
      s.lobby.credit 0 = 0 ∧ s.waiters = [] ∧ ∀ d, (s.lobby.pc d).toWake = [] := by
  exact (watch (Fin 2) ℕ).reaches (fun s => s.lobby.pc 0 = .parked ⟨1, none⟩ ∧ s.version = 2 ∧ s.lobby.credit 0 = 0 ∧
      s.waiters = [] ∧ ∀ d, (s.lobby.pc d).toWake = [])
    [.waitChanged 0 1 none, .enter 0, .next 0, .set 1 5, .next 1, .next 1, .next 0, .look 0, .next 0, .set 1 6]
    (s := unused) ⟨rfl, rfl, fun _ => rfl, rfl⟩ (by decide +kernel)

end Runloom.Watch
