import Mathlib.Data.List.Nodup
import Mathlib.Data.List.Perm.Basic
import Runloom.Transition.History

/-!
# The callbacks of an aio future

Model of `add_done_callback`, `remove_done_callback` and the completions of `_RunloomFutureMixin`.  A callback is an
object; Python equality of two callbacks is equality of their `key`, which two bound methods of one object and
function share.  A registration carries the number of its call.
-/

namespace Runloom.DoneCallbacks

open Transition

/-- `sync` makes `_fire_callbacks` call a callback at once; `live` says that there is an open loop. -/
structure Config (α κ : Type*) where
  key : α → κ
  sync : α → Bool
  live : Bool

inductive PgState where
  | pending
  | finished
  | cancelled
deriving DecidableEq

/-- `ctx` is whether a context was given. -/
structure Registration (α : Type*) where
  n : ℕ
  cb : α
  ctx : Bool

/-- `firing` is what the loop of `_fire_callbacks` has before it; `scheduled` was given to `call_soon`. -/
structure State (α : Type*) where
  pgstate : PgState
  pgcbs : List (Registration α)
  firing : List (Registration α)
  ran : List ℕ
  scheduled : List ℕ
  made : ℕ

/-- The context is already entered, or the callback raises a `RuntimeError` with the text of that. -/
structure Meets where
  entered : Bool
  refused : Bool

inductive Action (α : Type*) where
  | addDoneCallback (cb : α) (ctx : Bool) (m : Meets)
  | removeDoneCallback (cb : α)
  | setResult
  | setException (stopIteration : Bool)
  | cancel
  /-- One round of the loop in `_fire_callbacks`. -/
  | fire (m : Meets)

variable {α κ : Type*} [DecidableEq α] (c : Config α κ)

namespace State

variable (s : State α)

/-- `loop.call_soon`. -/
def schedule (r : Registration α) : State α := { s with scheduled := s.scheduled ++ [r.n] }

def run (r : Registration α) : State α := { s with ran := s.ran ++ [r.n] }

def addDoneCallback (cb : α) (ctx : Bool) (m : Meets) : State α :=
  let r : Registration α := ⟨s.made, cb, ctx⟩
  let s := { s with made := s.made + 1 }
  if s.pgstate ≠ .pending then
    if c.live then s.schedule r
    else if ctx ∧ m.entered then s
    else s.run r
  else { s with pgcbs := s.pgcbs ++ [r] }

/-- The future after `remove_done_callback`, and what it returns. -/
def removeDoneCallback (cb : α) : State α × ℕ :=
  let filtered := s.pgcbs.filter (·.cb ≠ cb)
  ({ s with pgcbs := filtered }, s.pgcbs.length - filtered.length)

/-- The state of the future is set and the list of the callbacks is taken. -/
def complete (p : PgState) : State α := { s with pgstate := p, firing := s.pgcbs, pgcbs := [] }

/-- The body of the loop in `_fire_callbacks`. -/
def fireOne (r : Registration α) (m : Meets) : State α :=
  if ¬(c.sync r.cb ∨ ¬c.live) then s.schedule r
  else if r.ctx ∧ m.entered then
    -- `Context.run` raises before it calls
    if c.live then s.schedule r else s
  else
    let s := s.run r
    if r.ctx ∧ m.refused ∧ c.live then s.schedule r else s

end State

def step (s : State α) : Action α → Option (State α)
  | .addDoneCallback cb ctx m => some (s.addDoneCallback c cb ctx m)
  | .removeDoneCallback cb => some (s.removeDoneCallback cb).1
  | .setResult => if s.pgstate ≠ .pending then some s else some (s.complete .finished)
  | .setException stopIteration =>
    if s.pgstate ≠ .pending ∨ stopIteration then some s else some (s.complete .finished)
  | .cancel => if s.pgstate ≠ .pending then some s else some (s.complete .cancelled)
  | .fire m =>
    match s.firing with
    | [] => none
    | r :: rest => some ({ s with firing := rest }.fireOne c r m)

def State.new : State α := ⟨.pending, [], [], [], [], 0⟩

def future : System (State α) (Action α) where
  init s := s = .new
  step := step c

end Runloom.DoneCallbacks

/-!
## Every callback once

Beside a run stands the list of the registrations that a removal should have taken out, by Python equality.  The
numbers of all registrations are shared out among the pending ones, those that are being fired, those that were removed,
those that were called and those that were scheduled.
-/

namespace Runloom.DoneCallbacks

open Transition List

variable {α κ : Type*} {c : Config α κ} {s t : State α} {removed : List ℕ}

def State.equalTo [DecidableEq κ] (c : Config α κ) (s : State α) (cb : α) : List (Registration α) :=
  s.pgcbs.filter (c.key ·.cb = c.key cb)

def note [DecidableEq κ] (c : Config α κ) (removed : List ℕ) (s : State α) : Action α → State α → List ℕ
  | .removeDoneCallback cb, _ => removed ++ (s.equalTo c cb).map (·.n)
  | _, _ => removed

def noted [DecidableEq α] [DecidableEq κ] (c : Config α κ) : System (State α × List ℕ) (Action α) := (future c).withHistory [] (note c)

/-- A removal names the very objects registered; without a loop no context is entered already, and no callback
raises that error itself. -/
def Plain (c : Config α κ) (s : State α) : Action α → Prop
  | .removeDoneCallback cb => ∀ r ∈ s.pgcbs, c.key r.cb = c.key cb → r.cb = cb
  | .addDoneCallback _ ctx m => s.pgstate ≠ .pending → c.live = false → ctx = true → m.entered = false
  | .fire m => ∀ r ∈ s.firing.head?, c.sync r.cb = true ∨ c.live = false → r.ctx = true →
      if m.entered then c.live = true else c.live = true → m.refused = false
  | _ => True

/-! ## The invariant -/

def State.places (s : State α) (removed : List ℕ) : List ℕ :=
  s.pgcbs.map (·.n) ++ (s.firing.map (·.n) ++ (removed ++ (s.ran ++ s.scheduled)))

structure Inv (s : State α) (removed : List ℕ) : Prop where
  shared : (s.places removed).Perm (List.range s.made)
  early (hp : s.pgstate = .pending) : s.firing = [] ∧ s.ran = [] ∧ s.scheduled = []
  late (hp : s.pgstate ≠ .pending) : s.pgcbs = []

theorem places_snoc (a b r l : List ℕ) (n : ℕ) : (a ++ (b ++ (r ++ (l ++ [n])))).Perm (n :: (a ++ (b ++ (r ++ l)))) := by
  have hassoc : a ++ (b ++ (r ++ (l ++ [n]))) = (a ++ (b ++ (r ++ l))) ++ [n] := by simp only [append_assoc]
  rw [hassoc]
  exact perm_append_singleton n _

theorem places_schedule (s : State α) (r : Registration α) :
    ((s.schedule r).places removed).Perm (r.n :: s.places removed) := by
  show (_ ++ (_ ++ (_ ++ (s.ran ++ (s.scheduled ++ [r.n]))))).Perm _
  rw [← append_assoc s.ran]
  exact places_snoc _ _ _ _ _

theorem places_run (s : State α) (r : Registration α) : ((s.run r).places removed).Perm (r.n :: s.places removed) := by
  have hswap : ((s.run r).places removed).Perm
      (s.pgcbs.map (·.n) ++ (s.firing.map (·.n) ++ (removed ++ (s.ran ++ s.scheduled ++ [r.n])))) := by
    show (_ ++ (_ ++ (_ ++ (s.ran ++ [r.n] ++ s.scheduled)))).Perm _
    refine (List.Perm.append_left _ ?_).append_left _ |>.append_left _
    rw [append_assoc, append_assoc]
    exact perm_append_comm.append_left _
  exact hswap.trans (places_snoc _ _ _ _ _)

theorem range_succ_perm (n : ℕ) : (n :: List.range n).Perm (List.range (n + 1)) := by
  rw [range_succ]
  exact (perm_append_singleton n _).symm

theorem Inv.new : Inv (State.new : State α) [] := ⟨.refl _, fun _ => ⟨rfl, rfl, rfl⟩, fun hp => absurd rfl hp⟩

section

variable (hI : Inv s removed)
include hI

theorem Inv.addDoneCallback {cb : α} {ctx : Bool} {m : Meets}
    (hC : Plain c s (.addDoneCallback cb ctx m)) : Inv (s.addDoneCallback c cb ctx m) removed := by
  unfold State.addDoneCallback
  dsimp only
  split
  next hdone =>
    -- the new registration is scheduled or called at once
    have hnew : ∀ t : State α, t.made = s.made + 1 → t.pgstate = s.pgstate → t.pgcbs = s.pgcbs →
        (t.places removed).Perm (s.made :: s.places removed) → Inv t removed := by
      intro t hmade hstate hcbs hplaces
      refine ⟨?_, fun hp => absurd (hstate.symm.trans hp) hdone, fun _ => hcbs.trans (hI.late hdone)⟩
      rw [hmade]
      exact (hplaces.trans (hI.shared.cons _)).trans (range_succ_perm _)
    split
    next => exact hnew _ rfl rfl rfl (places_schedule _ _)
    next hlive =>
      split
      next hin => exact absurd (hC hdone (by simpa using hlive) hin.1) (by simp [hin.2])
      next => exact hnew _ rfl rfl rfl (places_run _ _)
  next hpending =>
    have hp : s.pgstate = .pending := not_not.mp hpending
    refine ⟨?_, fun _ => hI.early hp, fun hn => absurd hp hn⟩
    have hplaces : (({ s with made := s.made + 1, pgcbs := s.pgcbs ++ [⟨s.made, cb, ctx⟩] } : State α).places
        removed).Perm (s.made :: s.places removed) := by
      unfold State.places
      dsimp only
      rw [map_append, append_assoc]
      exact perm_middle
    exact (hplaces.trans (hI.shared.cons _)).trans (range_succ_perm _)

theorem Inv.complete {p : PgState} (hp : s.pgstate = .pending) (hnew : p ≠ .pending) :
    Inv (s.complete p) removed := by
  refine ⟨?_, fun h => absurd h hnew, fun _ => rfl⟩
  obtain ⟨hfiring, -, -⟩ := hI.early hp
  have hplaces : (s.complete p).places removed = s.places removed := by
    unfold State.places State.complete
    dsimp only
    rw [hfiring]
    rfl
  rw [hplaces]
  exact hI.shared

theorem Inv.fire {m : Meets} {r : Registration α} {rest : List (Registration α)}
    (hf : s.firing = r :: rest) (hC : Plain c s (.fire m)) :
    Inv ({ s with firing := rest }.fireOne c r m) removed := by
  have hdone : s.pgstate ≠ .pending := by
    intro hp
    rw [(hI.early hp).1] at hf
    cases hf
  have hfront : (s.places removed).Perm (r.n :: ({ s with firing := rest } : State α).places removed) := by
    unfold State.places
    rw [hf, map_cons, cons_append]
    exact perm_middle
  -- the registration that is fired goes to one of the two lists
  have hnew : ∀ t : State α, t.made = s.made → t.pgstate = s.pgstate → t.pgcbs = s.pgcbs →
      (t.places removed).Perm (r.n :: ({ s with firing := rest } : State α).places removed) → Inv t removed := by
    intro t hmade hstate hcbs hplaces
    refine ⟨?_, fun hp => absurd (hstate.symm.trans hp) hdone, fun _ => hcbs.trans (hI.late hdone)⟩
    rw [hmade]
    exact (hplaces.trans hfront.symm).trans hI.shared
  have hC' := hC r (by rw [hf]; rfl)
  unfold State.fireOne
  dsimp only
  split
  next => exact hnew _ rfl rfl rfl (places_schedule _ _)
  next hsync =>
    have hs : c.sync r.cb = true ∨ c.live = false := by
      have := not_not.mp hsync
      simpa using this
    split
    next hin =>
      have hlive := hC' hs hin.1
      rw [if_pos hin.2] at hlive
      rw [if_pos hlive]
      exact hnew _ rfl rfl rfl (places_schedule _ _)
    next hin =>
      split
      next hrefused =>
        have hent : ¬m.entered = true := fun he => hin ⟨hrefused.1, he⟩
        have hno := hC' hs hrefused.1
        rw [if_neg hent] at hno
        exact absurd (hno hrefused.2.2) (by simp [hrefused.2.1])
      next => exact hnew _ rfl rfl rfl (places_run _ _)

theorem Inv.count (n : ℕ) :
    (s.pgcbs.map (·.n)).count n + ((s.firing.map (·.n)).count n + (removed.count n + (s.ran ++ s.scheduled).count n)) =
      if n < s.made then 1 else 0 := by
  have hcount := hI.shared.count_eq n
  rw [State.places, count_append, count_append, count_append] at hcount
  rw [hcount]
  split
  next hlt => exact count_eq_one_of_mem nodup_range (mem_range.mpr hlt)
  next hge => exact count_eq_zero_of_not_mem fun hm => hge (mem_range.mp hm)

end

/-! ## Removals -/

section

variable [DecidableEq κ]

theorem perm_filter (s : State α) (cb : α) :
    (s.pgcbs.filter (c.key ·.cb ≠ c.key cb) ++ s.equalTo c cb).Perm s.pgcbs := by
  have hperm := filter_append_perm (fun r : Registration α => decide (c.key r.cb ≠ c.key cb)) s.pgcbs
  have hnot : s.equalTo c cb = s.pgcbs.filter fun r => !decide (c.key r.cb ≠ c.key cb) := by
    apply filter_congr
    intro r _
    simp
  rw [hnot]
  exact hperm

variable [DecidableEq α]

theorem filter_ne_eq {cb : α} (hC : Plain c s (.removeDoneCallback cb)) :
    s.pgcbs.filter (·.cb ≠ cb) = s.pgcbs.filter (c.key ·.cb ≠ c.key cb) := by
  apply filter_congr
  intro r hr
  have hiff : r.cb ≠ cb ↔ c.key r.cb ≠ c.key cb := by
    constructor
    · exact fun hne hkey => hne (hC r hr hkey)
    · exact fun hkey heq => hkey (congrArg c.key heq)
  simp only [hiff]

theorem Inv.removeDoneCallback {cb : α} (hI : Inv s removed) (hC : Plain c s (.removeDoneCallback cb)) :
    Inv (s.removeDoneCallback cb).1 (removed ++ (s.equalTo c cb).map (·.n)) := by
  refine ⟨?_, hI.early, fun hn => ?_⟩
  · have hplaces : ((s.removeDoneCallback cb).1.places (removed ++ (s.equalTo c cb).map (·.n))).Perm
        (s.places removed) := by
      unfold State.places State.removeDoneCallback
      dsimp only
      rw [filter_ne_eq hC]
      have hsplit := (perm_filter (c := c) s cb).map (·.n)
      rw [map_append] at hsplit
      refine List.Perm.trans ?_ (hsplit.append_right _)
      simp only [append_assoc]
      -- the removed ones are moved to the front
      refine List.Perm.append_left _ ?_
      refine List.Perm.trans (List.Perm.append_left _ ?_) (perm_append_comm_assoc _ _ _)
      exact perm_append_comm_assoc _ _ _
    exact hplaces.trans hI.shared
  · unfold State.removeDoneCallback
    dsimp only
    rw [hI.late hn]
    rfl

theorem Inv.step {a : Action α} (hI : Inv s removed) (hC : Plain c s a) (hs : (future c).step s a = some t) :
    Inv t (note c removed s a t) := by
  cases a with
  | addDoneCallback cb ctx m =>
    cases hs
    exact hI.addDoneCallback hC
  | removeDoneCallback cb =>
    cases hs
    exact hI.removeDoneCallback hC
  | setResult | cancel =>
    simp only [future, DoneCallbacks.step] at hs
    split at hs <;> cases hs
    next => exact hI
    next hp => exact hI.complete (not_not.mp hp) nofun
  | setException stopIteration =>
    simp only [future, DoneCallbacks.step] at hs
    split at hs <;> cases hs
    next => exact hI
    next hp => exact hI.complete (not_not.mp (not_or.mp hp).1) nofun
  | fire m =>
    simp only [future, DoneCallbacks.step] at hs
    split at hs <;> cases hs
    next r rest hf => exact hI.fire hf hC

theorem inv_of_reachable {x : State α × List ℕ} (hx : (noted c).ReachableWith (fun x => Plain c x.1) x) :
    Inv x.1 x.2 := by
  refine hx.invariant (P := fun x => Inv x.1 x.2) ?_ ?_
  · rintro ⟨s, removed⟩ ⟨hi, rfl⟩
    cases hi
    exact .new
  · rintro ⟨s, removed⟩ a ⟨t, removed'⟩ hI hC hs
    obtain ⟨hs, hnote⟩ := System.withHistory_step hs
    rw [hnote]
    exact hI.step hC hs

/-! ## The callbacks -/

/-- What is promised of the registrations of a future. -/
structure Proper (c : Config α κ) (s : State α) (removed : List ℕ) : Prop where
  removal (cb : α) (hC : Plain c s (.removeDoneCallback cb)) :
    (s.removeDoneCallback cb).2 = (s.equalTo c cb).length ∧
      (s.removeDoneCallback cb).1.pgcbs = s.pgcbs.filter (c.key ·.cb ≠ c.key cb)
  dropped (n : ℕ) (hn : n ∈ removed) : n ∉ s.ran ∧ n ∉ s.scheduled
  early (hp : s.pgstate = .pending) : s.ran = [] ∧ s.scheduled = []
  atMost (n : ℕ) : (s.ran ++ s.scheduled).count n ≤ 1
  once (n : ℕ) (hn : n < s.made) (hr : n ∉ removed) (hp : s.pgstate ≠ .pending) (hf : s.firing = []) :
    (s.ran ++ s.scheduled).count n = 1

theorem Inv.proper (hI : Inv s removed) : Proper c s removed where
  removal cb hC := by
    have hlen := (perm_filter (c := c) s cb).length_eq
    rw [length_append] at hlen
    unfold State.removeDoneCallback
    dsimp only
    rw [filter_ne_eq hC]
    exact ⟨by omega, rfl⟩
  dropped n hn := by
    have hcount := hI.count n
    have hpos := count_pos_iff.mpr hn
    have hzero : (s.ran ++ s.scheduled).count n = 0 := by
      split at hcount <;> omega
    have hnot := count_eq_zero.mp hzero
    rw [mem_append, not_or] at hnot
    exact hnot
  early hp := (hI.early hp).2
  atMost n := by
    have hcount := hI.count n
    split at hcount <;> omega
  once n hn hr hp hf := by
    have hcount := hI.count n
    rw [hI.late hp, hf, count_eq_zero_of_not_mem hr, if_pos hn] at hcount
    simpa using hcount

/-- If each removal names the registered objects, it takes out exactly those equal to its argument, and every other
one is called or scheduled once. -/
theorem callbacks_once (c : Config α κ) (x : State α × List ℕ)
    (hx : (noted c).ReachableWith (fun x => Plain c x.1) x) : Proper c x.1 x.2 :=
  (inv_of_reachable hx).proper

instance (s : State α) (a : Action α) : Decidable (Plain c s a) := by
  unfold Plain
  split <;> infer_instance

end

/-- Two callbacks that are not equal, of which the first is called at once. -/
def twoFunctions : Config ℕ ℕ := ⟨id, fun cb => cb = 0, true⟩

/-- Two of three registrations are removed; a callback is added while the rest is fired. -/
def removeThenFire : List (Action ℕ) :=
  [.addDoneCallback 0 false ⟨false, false⟩, .addDoneCallback 1 true ⟨false, false⟩,
    .addDoneCallback 1 false ⟨false, false⟩, .removeDoneCallback 1, .setResult, .fire ⟨false, false⟩,
    .addDoneCallback 1 false ⟨false, false⟩, .removeDoneCallback 1]

theorem callbacks_once_removeThenFire :
    ∃ x, (noted twoFunctions).ReachableWith (fun x => Plain twoFunctions x.1) x ∧ x.1.ran = [0] ∧
      x.1.scheduled = [3] ∧ x.2 = [1, 2] ∧ Proper twoFunctions x.1 x.2 := by
  obtain ⟨x, hx, hran, hscheduled, hremoved⟩ := (noted twoFunctions).reachesWith (fun x => Plain twoFunctions x.1)
    (fun x => x.1.ran = [0] ∧ x.1.scheduled = [3] ∧ x.2 = [1, 2]) removeThenFire (s := (.new, []))
    ⟨rfl, rfl⟩ (by decide +kernel)
  exact ⟨x, hx, hran, hscheduled, hremoved, callbacks_once twoFunctions x hx⟩

/-- Bound methods: every access makes a new object, and all are equal. -/
def boundMethods : Config ℕ Unit := ⟨fun _ => (), fun _ => true, true⟩

/-- `remove_done_callback` compares by identity: an equal method is not found, and is called when the future
completes. -/
theorem equal_method_not_removed :
    ((State.new.addDoneCallback boundMethods 0 false ⟨false, false⟩).removeDoneCallback 1).2 = 0 ∧
      ((State.new.addDoneCallback boundMethods 0 false ⟨false, false⟩).equalTo boundMethods 1).length = 1 ∧
      ∃ x, (noted boundMethods).Reachable x ∧ 0 ∈ x.2 ∧ 0 ∈ x.1.ran := by
  refine ⟨by decide +kernel, by decide +kernel, ?_⟩
  exact (noted boundMethods).reaches (fun x => 0 ∈ x.2 ∧ 0 ∈ x.1.ran)
    [.addDoneCallback 0 false ⟨false, false⟩, .removeDoneCallback 1, .setResult, .fire ⟨false, false⟩]
    (s := (.new, [])) ⟨rfl, rfl⟩ (by decide +kernel)

end Runloom.DoneCallbacks
