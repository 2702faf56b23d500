import Runloom.StackGrow.Model

/-!
# Channels without addresses

The channel operations as they would be without a memory: a waiter belongs to its fiber, and a queue
has the fibers.  The sections are those of the model, with fibers for references.
-/

namespace Runloom.StackGrow

open Transition List

namespace Spec

structure State (C F V : Type*) where
  chan : C → Chan F V
  waiter : F → Record V
  pc : F → Pc C V
  log : List (F × Result V)

inductive Action (C F V : Type*) where
  | op (f : F) (c : C) (op : Op V) (blocking : Bool)
  | close (f : F) (c : C)
  | resume (f : F)
  | check (f : F)

variable {C F V : Type*} [DecidableEq C] [DecidableEq F]

namespace State

def setPc (a : State C F V) (f : F) (pc : Pc C V) : State C F V :=
  { a with pc := update a.pc f pc }

def report (a : State C F V) (f : F) (r : Result V) : State C F V :=
  { a with log := a.log ++ [(f, r)] }

def get (a : State C F V) (f : F) : Option (Record V) := some (a.waiter f)

def write (a : State C F V) : List (F × Record V) → State C F V
  | [] => a
  | (f, w) :: rest => { a with waiter := update a.waiter f w }.write rest

def setChan (a : State C F V) (c : C) (ch : Chan F V) : State C F V :=
  { a with chan := update a.chan c ch }

def perform (a : State C F V) (c : C) (e : Effect F V) : State C F V :=
  (a.write e.writes).setChan c e.chan

def park (a : State C F V) (f : F) (c : C) (op : Op V) : State C F V :=
  { a with
    waiter := update a.waiter f op.record,
    chan := update a.chan c ((a.chan c).push f op) }.setPc f (.parked c op)

def check (a : State C F V) (f : F) (c : C) (op : Op V) : State C F V :=
  if (a.waiter f).queued then a.setPc f (.parked c op)
  else (a.setPc f .running).report f (op.result (a.waiter f))

def step (a : State C F V) : Action C F V → Option (State C F V)
  | .op f c op blocking =>
    match a.pc f with
    | .running =>
      (op.locked a.get (a.chan c) blocking).map fun e =>
        match e.result with
        | some r => (a.perform c e).report f r
        | none => (a.perform c e).park f c op
    | _ => none
  | .close f c =>
    match a.pc f with
    | .running =>
      ((a.chan c).closeLocked a.get).map fun e =>
        (a.perform c e).report f (e.result.getD .closed)
    | _ => none
  | .resume f =>
    match a.pc f with
    | .parked c op => some (a.setPc f (.resumed c op))
    | _ => none
  | .check f =>
    match a.pc f with
    | .resumed c op => some (a.check f c op)
    | _ => none

end State

structure Init (cap : C → Nat) (a : State C F V) : Prop where
  chan : ∀ c, a.chan c = .empty (cap c)
  pc : ∀ f, a.pc f = .running
  log : a.log = []

def spec (F V : Type*) [DecidableEq F] (cap : C → Nat) : System (State C F V) (Action C F V) where
  init := Init cap
  step := State.step

end Spec

/-! ## Who is in a queue -/

def Pc.waiting {C V : Type*} : Pc C V → Option (C × Op V)
  | .running => none
  | .parked c op | .resumed c op => some (c, op)

def Op.sends {V : Type*} : Op V → Bool
  | .send _ => true
  | .recv => false

def Chan.queue {R V : Type*} (ch : Chan R V) : Bool → List R
  | true => ch.senders
  | false => ch.receivers

/-- A section takes waiters from the front of the queues, and writes to those only. -/
structure Effect.Pops {R V : Type*} (ch : Chan R V) (e : Effect R V) : Prop where
  suffix : ∀ side, e.chan.queue side <:+ ch.queue side
  writes : ∀ p ∈ e.writes, ∃ side, p.1 ∈ ch.queue side ∧ p.1 ∉ e.chan.queue side

section Pops

variable {R V : Type*} {get : R → Option (Record V)} {ch : Chan R V} {e : Effect R V}

theorem pops_same {ch' : Chan R V} {r : Option (Result V)} (h : ∀ side, ch'.queue side = ch.queue side) :
    Effect.Pops ch ⟨ch', [], r⟩ where
  suffix side := by
    show ch'.queue side <:+ ch.queue side
    rw [h]
  writes := nofun

theorem pops_one {ch' : Chan R V} {x : R} {w : Record V} {r : Option (Result V)} (side : Bool)
    (hnd : (ch.queue side).Nodup) (hx : ch.queue side = x :: ch'.queue side)
    (ho : ch'.queue (!side) = ch.queue (!side)) : Effect.Pops ch ⟨ch', [(x, w)], r⟩ where
  suffix side' := by
    show ch'.queue side' <:+ ch.queue side'
    by_cases h : side' = side
    · rw [h, hx]
      exact suffix_cons ..
    · rw [Bool.eq_not.mpr h, ho]
  writes p hp := by
    rw [mem_singleton.mp hp]
    rw [hx] at hnd
    refine ⟨side, ?_, (nodup_cons.mp hnd).1⟩
    rw [hx]
    exact mem_cons_self

theorem sendLocked_pops (hnd : ∀ side, (ch.queue side).Nodup) {v : V} {blocking : Bool}
    (h : ch.sendLocked get v blocking = some e) : e.Pops ch := by
  unfold Chan.sendLocked at h
  split at h
  · cases h
    exact pops_same fun side => by cases side <;> rfl
  · split at h
    next rx rest hr =>
      obtain ⟨w, -, rfl⟩ := Option.map_eq_some_iff.mp h
      exact pops_one false (hnd false) hr rfl
    next =>
      split at h <;> cases h
      · exact pops_same fun side => by cases side <;> rfl
      · exact pops_same fun side => by cases side <;> rfl

theorem recvLocked_pops (hnd : ∀ side, (ch.queue side).Nodup) {blocking : Bool}
    (h : ch.recvLocked get blocking = some e) : e.Pops ch := by
  unfold Chan.recvLocked at h
  split at h
  next v buf tx rest hb hs =>
    obtain ⟨w, -, h⟩ := Option.bind_eq_some_iff.mp h
    obtain ⟨x, -, rfl⟩ := Option.map_eq_some_iff.mp h
    exact pops_one true (hnd true) hs rfl
  next =>
    cases h
    exact pops_same fun side => by cases side <;> rfl
  next tx rest hb hs =>
    obtain ⟨w, -, rfl⟩ := Option.map_eq_some_iff.mp h
    exact pops_one true (hnd true) hs rfl
  next =>
    split at h <;> cases h
    · exact pops_same fun side => by cases side <;> rfl
    · exact pops_same fun side => by cases side <;> rfl

theorem wakeAll_mem {write : Record V → Record V} {rs : List R} {ws : List (R × Record V)}
    (h : wakeAll get write rs = some ws) {p : R × Record V} (hp : p ∈ ws) : p.1 ∈ rs := by
  induction rs generalizing ws with
  | nil =>
    cases h
    cases hp
  | cons r rs ih =>
    obtain ⟨w, -, h⟩ := Option.bind_eq_some_iff.mp h
    obtain ⟨ws', hws, rfl⟩ := Option.map_eq_some_iff.mp h
    rcases mem_cons.mp hp with rfl | hp
    · exact mem_cons_self
    · exact mem_cons_of_mem _ (ih hws hp)

theorem closeLocked_pops (h : ch.closeLocked get = some e) : e.Pops ch := by
  unfold Chan.closeLocked at h
  split at h
  · cases h
    exact pops_same fun side => by cases side <;> rfl
  · obtain ⟨txs, htxs, h⟩ := Option.bind_eq_some_iff.mp h
    obtain ⟨rxs, hrxs, rfl⟩ := Option.map_eq_some_iff.mp h
    refine ⟨fun side => ?_, fun p hp => ?_⟩
    · cases side <;> exact nil_suffix
    · rcases mem_append.mp hp with hp | hp
      · exact ⟨true, wakeAll_mem htxs hp, not_mem_nil⟩
      · exact ⟨false, wakeAll_mem hrxs hp, not_mem_nil⟩

theorem locked_pops (hnd : ∀ side, (ch.queue side).Nodup) {op : Op V} {blocking : Bool}
    (h : op.locked get ch blocking = some e) : e.Pops ch := by
  cases op with
  | send v => exact sendLocked_pops hnd h
  | recv => exact recvLocked_pops hnd h

end Pops

theorem queue_push {R V : Type*} (ch : Chan R V) (r : R) (op : Op V) (side : Bool) :
    (ch.push r op).queue side = if op.sends = side then ch.queue side ++ [r] else ch.queue side := by
  cases op <;> cases side <;> rfl

namespace Spec

variable {C F V : Type*} {a a' : State C F V}

/-- Whoever is in a queue waits there, in one place, and its waiter says so. -/
structure Inv (a : State C F V) : Prop where
  waits : ∀ c side f, f ∈ (a.chan c).queue side → ∃ op, (a.pc f).waiting = some (c, op) ∧ op.sends = side
  queued : ∀ c side f, f ∈ (a.chan c).queue side → (a.waiter f).queued = true
  value : ∀ c f, f ∈ (a.chan c).queue true → (a.waiter f).value ≠ none
  nodup : ∀ c side, ((a.chan c).queue side).Nodup

theorem Inv.init {cap : C → Nat} (h : Init cap a) : Inv a := by
  have hq : ∀ c side, (a.chan c).queue side = [] := by
    intro c side
    rw [h.chan]
    cases side <;> rfl
  refine ⟨fun c side f hf => ?_, fun c side f hf => ?_, fun c f hf => ?_, fun c side => ?_⟩
  · rw [hq] at hf
    cases hf
  · rw [hq] at hf
    cases hf
  · rw [hq] at hf
    cases hf
  · rw [hq]
    exact nodup_nil

variable {c : C} {f : F}

theorem Inv.unique (hI : Inv a) {c' : C} {side side' : Bool}
    (h : f ∈ (a.chan c).queue side) (h' : f ∈ (a.chan c').queue side') : c = c' ∧ side = side' := by
  obtain ⟨op, hop, hs⟩ := hI.waits c side f h
  obtain ⟨op', hop', hs'⟩ := hI.waits c' side' f h'
  rw [hop] at hop'
  cases hop'
  exact ⟨rfl, hs.symm.trans hs'⟩

theorem Inv.not_mem (hI : Inv a) (h : (a.pc f).waiting = none) (c : C) (side : Bool) :
    f ∉ (a.chan c).queue side := by
  intro hf
  obtain ⟨op, hop, -⟩ := hI.waits c side f hf
  rw [h] at hop
  cases hop

variable [DecidableEq F]

theorem write_waiter (ws : List (F × Record V)) (h : ∀ p ∈ ws, p.1 ≠ f) : (a.write ws).waiter f = a.waiter f := by
  induction ws generalizing a with
  | nil => rfl
  | cons p ws ih =>
    have hne : f ≠ p.1 := (h p mem_cons_self).symm
    refine (ih fun q hq => h q (mem_cons_of_mem _ hq)).trans ?_
    exact update_of_ne hne ..

theorem write_frame (ws : List (F × Record V)) :
    (a.write ws).chan = a.chan ∧ (a.write ws).pc = a.pc ∧ (a.write ws).log = a.log := by
  induction ws generalizing a with
  | nil => exact ⟨rfl, rfl, rfl⟩
  | cons p ws ih => exact ih

variable [DecidableEq C]

variable {e : Effect F V}

theorem perform_pc : (a.perform c e).pc = a.pc :=
  (write_frame e.writes).2.1

theorem perform_chan : (a.perform c e).chan = update a.chan c e.chan := by
  unfold State.perform State.setChan
  rw [(write_frame e.writes).1]

theorem mem_of_perform {c' : C} (he : e.Pops (a.chan c)) {side : Bool}
    (h : f ∈ ((a.perform c e).chan c').queue side) : f ∈ (a.chan c').queue side := by
  rw [perform_chan] at h
  by_cases hc : c' = c
  · rw [hc, update_self] at h
    exact hc ▸ (he.suffix side).subset h
  · rw [update_of_ne hc] at h
    exact h

section

variable (hI : Inv a)
include hI

theorem Inv.perform_waiter {c' : C} (he : e.Pops (a.chan c))
    {side : Bool} (h : f ∈ ((a.perform c e).chan c').queue side) :
    (a.perform c e).waiter f = a.waiter f := by
  refine write_waiter e.writes fun p hp hpf => ?_
  obtain ⟨side', hmem, hout⟩ := he.writes p hp
  rw [hpf] at hmem hout
  obtain ⟨hc, hside⟩ := hI.unique (mem_of_perform he h) hmem
  rw [perform_chan, hc, update_self, hside] at h
  exact hout h

theorem Inv.perform (he : e.Pops (a.chan c)) : Inv (a.perform c e) where
  waits c' side f hf := by
    rw [perform_pc]
    exact hI.waits c' side f (mem_of_perform he hf)
  queued c' side f hf := by
    rw [hI.perform_waiter he hf]
    exact hI.queued c' side f (mem_of_perform he hf)
  value c' f hf := by
    rw [hI.perform_waiter he hf]
    exact hI.value c' f (mem_of_perform he hf)
  nodup c' side := by
    rw [perform_chan]
    by_cases hc : c' = c
    · rw [hc, update_self]
      exact (hI.nodup c side).sublist (he.suffix side).sublist
    · rw [update_of_ne hc]
      exact hI.nodup c' side

theorem Inv.park {op : Op V} (hf : (a.pc f).waiting = none) : Inv (a.park f c op) := by
  have hout := hI.not_mem hf
  have hmem : ∀ c' side g, g ∈ ((a.park f c op).chan c').queue side →
      g ≠ f ∧ g ∈ (a.chan c').queue side ∨ g = f ∧ c' = c ∧ op.sends = side := by
    intro c' side g hg
    simp only [State.park, State.setPc] at hg
    by_cases hc : c' = c
    · rw [hc, update_self, queue_push] at hg
      split at hg
      next hs =>
        rcases mem_append.mp hg with hg | hg
        · exact .inl ⟨fun h => hout c side (h ▸ hg), hc ▸ hg⟩
        · exact .inr ⟨mem_singleton.mp hg, hc, hs⟩
      next => exact .inl ⟨fun h => hout c side (h ▸ hg), hc ▸ hg⟩
    · rw [update_of_ne hc] at hg
      exact .inl ⟨fun h => hout c' side (h ▸ hg), hg⟩
  refine ⟨fun c' side g hg => ?_, fun c' side g hg => ?_, fun c' g hg => ?_, fun c' side => ?_⟩
  · simp only [State.park, State.setPc]
    rcases hmem c' side g hg with ⟨hne, hg⟩ | ⟨rfl, rfl, hs⟩
    · rw [update_of_ne hne]
      exact hI.waits c' side g hg
    · rw [update_self]
      exact ⟨op, rfl, hs⟩
  · simp only [State.park, State.setPc]
    rcases hmem c' side g hg with ⟨hne, hg⟩ | ⟨rfl, -, -⟩
    · rw [update_of_ne hne]
      exact hI.queued c' side g hg
    · rw [update_self]
      cases op <;> rfl
  · simp only [State.park, State.setPc]
    rcases hmem c' true g hg with ⟨hne, hg⟩ | ⟨rfl, -, hs⟩
    · rw [update_of_ne hne]
      exact hI.value c' g hg
    · rw [update_self]
      cases op with
      | send v => nofun
      | recv => cases hs
  · simp only [State.park, State.setPc]
    by_cases hc : c' = c
    · rw [hc, update_self, queue_push]
      split
      · refine nodup_append.mpr ⟨hI.nodup c side, nodup_singleton f, ?_⟩
        intro x hx y hy hxy
        rw [mem_singleton.mp hy] at hxy
        exact hout c side (hxy ▸ hx)
      · exact hI.nodup c side
    · rw [update_of_ne hc]
      exact hI.nodup c' side

omit [DecidableEq C] in
theorem Inv.setPc {pc : Pc C V} (h : pc.waiting = (a.pc f).waiting ∨ ∀ c side, f ∉ (a.chan c).queue side) :
    Inv (a.setPc f pc) where
  waits c side g hg := by
    simp only [State.setPc] at hg ⊢
    by_cases hgf : g = f
    · rw [hgf] at hg ⊢
      rw [update_self]
      rcases h with h | h
      · rw [h]
        exact hI.waits c side f hg
      · exact absurd hg (h c side)
    · rw [update_of_ne hgf]
      exact hI.waits c side g hg
  queued := hI.queued
  value := hI.value
  nodup := hI.nodup

omit [DecidableEq F] [DecidableEq C] in
theorem Inv.report {r : Result V} : Inv (a.report f r) :=
  ⟨hI.waits, hI.queued, hI.value, hI.nodup⟩

omit [DecidableEq C] in
theorem Inv.check {op : Op V} (hf : a.pc f = .resumed c op) : Inv (a.check f c op) := by
  unfold State.check
  split
  next => exact hI.setPc (.inl (by rw [hf]; rfl))
  next hq =>
    refine (hI.setPc (.inr fun c' side hmem => ?_)).report
    exact hq (hI.queued c' side f hmem)

theorem Inv.step {act : Action C F V} (h : a.step act = some a') : Inv a' := by
  cases act with
  | op f c op blocking =>
    simp only [State.step] at h
    split at h
    next hpc =>
      obtain ⟨e, he, rfl⟩ := Option.map_eq_some_iff.mp h
      have hp := hI.perform (locked_pops (hI.nodup c) he)
      split
      · exact hp.report
      · refine hp.park ?_
        rw [perform_pc, hpc]
        rfl
    next => cases h
  | close f c =>
    simp only [State.step] at h
    split at h
    · obtain ⟨e, he, rfl⟩ := Option.map_eq_some_iff.mp h
      exact (hI.perform (closeLocked_pops he)).report
    · cases h
  | resume f =>
    simp only [State.step] at h
    split at h <;> cases h
    next hpc => exact hI.setPc (.inl (by rw [hpc]; rfl))
  | check f =>
    simp only [State.step] at h
    split at h <;> cases h
    next hpc => exact hI.check hpc

end

theorem inv_of_reachable {cap : C → Nat} (h : (spec F V cap).Reachable a) : Inv a :=
  h.invariant (fun _ => Inv.init) fun _ _ _ hI _ hs => hI.step hs

/-! ## The sections succeed -/

section

omit [DecidableEq F] [DecidableEq C]

theorem Inv.locked_some (hI : Inv a) (c : C) (op : Op V) (blocking : Bool) :
    ∃ e, op.locked a.get (a.chan c) blocking = some e := by
  cases op with
  | send v =>
    show ∃ e, (a.chan c).sendLocked a.get v blocking = some e
    unfold Chan.sendLocked
    split
    · exact ⟨_, rfl⟩
    · split
      · exact ⟨_, rfl⟩
      · split <;> exact ⟨_, rfl⟩
  | recv =>
    show ∃ e, (a.chan c).recvLocked a.get blocking = some e
    unfold Chan.recvLocked
    split
    next v buf tx rest hb hs =>
      have hv := hI.value c tx (by show tx ∈ (a.chan c).senders; rw [hs]; exact mem_cons_self)
      obtain ⟨x, hx⟩ := Option.ne_none_iff_exists'.mp hv
      rw [show a.get tx = some (a.waiter tx) from rfl, Option.bind_some, hx]
      exact ⟨_, rfl⟩
    next => exact ⟨_, rfl⟩
    next => exact ⟨_, rfl⟩
    next => split <;> exact ⟨_, rfl⟩

theorem wakeAll_some (write : Record V → Record V) (fs : List F) : ∃ ws, wakeAll a.get write fs = some ws := by
  induction fs with
  | nil => exact ⟨_, rfl⟩
  | cons f fs ih =>
    obtain ⟨ws, hws⟩ := ih
    refine ⟨(f, write (a.waiter f)) :: ws, ?_⟩
    unfold wakeAll
    rw [hws]
    rfl

theorem closeLocked_some (c : C) : ∃ e, (a.chan c).closeLocked a.get = some e := by
  unfold Chan.closeLocked
  split
  · exact ⟨_, rfl⟩
  · obtain ⟨txs, htxs⟩ := wakeAll_some (a := a) .closeSender (a.chan c).senders
    obtain ⟨rxs, hrxs⟩ := wakeAll_some (a := a) .closeReceiver (a.chan c).receivers
    rw [htxs, hrxs]
    exact ⟨_, rfl⟩

end

end Spec

end Runloom.StackGrow
