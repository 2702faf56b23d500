import Mathlib.Algebra.Order.Ring.Int
import Mathlib.Data.List.Count
import Runloom.Handoff.Room
import Runloom.Transition.System

/-!
# The readers-writer mutex

Model of `sync.RWMutex`: `rlock`, `runlock`, `lock` and `unlock`.  A step is a section under the guard `_mu`, a park
or its return, or one wake after the guard is left.

Every call has a name of its own, and its cell `[g, [granted]]` is known by that name.
-/

namespace Runloom.RWMutex

open Transition Handoff

inductive Call where
  | rlock
  | runlock
  | lock
  | unlock
deriving DecidableEq

inductive Result where
  /-- The return of `rlock` and of `lock`. -/
  | acquired
  /-- The return of `runlock` and of `unlock`. -/
  | released
  /-- `RuntimeError`, "RWMutex.runlock(): read lock not held". -/
  | readNotHeld
  /-- `RuntimeError`, "RWMutex.unlock(): write lock not held". -/
  | writeNotHeld
deriving DecidableEq

structure State (C : Type*) where
  readers : ℤ
  writer : Bool
  rwait : List C
  wwait : List C
  room : Room C Result
  /-- The `rlock` and `lock` calls that got the lock, in that order. -/
  grants : List C
  /-- The `runlock` and `unlock` calls that gave one back. -/
  releases : List C

inductive Action (C : Type*) where
  | start (c : C)
  | move (c : C)
  | check (c : C)

variable {C : Type*} [DecidableEq C]

namespace State

def goto (s : State C) (c : C) (pc : Pc C Result) : State C :=
  { s with room := s.room.goto c pc }

def take (s : State C) (c : C) : State C :=
  { s with grants := s.grants ++ [c] }.goto c (.returned .acquired)

/-- The section of a release ends.  The cells of `cs` have left their queue, and get the lock. -/
def handOff (s : State C) (c : C) (cs : List C) : State C :=
  { s with
    room := (s.room.grant cs).goto c (.finish cs .released)
    grants := s.grants ++ cs
    releases := s.releases ++ [c] }

def rlock (s : State C) (c : C) : State C :=
  -- A writer that waits keeps new readers out.
  if !s.writer && s.wwait.isEmpty then { s with readers := s.readers + 1 }.take c
  else { s with rwait := s.rwait ++ [c] }.goto c .waiting

def lock (s : State C) (c : C) : State C :=
  if !s.writer && s.readers == 0 then { s with writer := true }.take c
  else { s with wwait := s.wwait ++ [c] }.goto c .waiting

def runlock (s : State C) (c : C) : State C :=
  if s.readers ≤ 0 then s.goto c (.returned .readNotHeld)
  else
    let s := { s with readers := s.readers - 1 }
    match s.wwait with
    | w :: ws =>
      -- The last reader hands over; the ones before it wake nobody.
      if s.readers = 0 then { s with wwait := ws, writer := true }.handOff c [w] else s.handOff c []
    | [] => s.handOff c []

def unlock (s : State C) (c : C) : State C :=
  if !s.writer then s.goto c (.returned .writeNotHeld)
  else
    match s.wwait, s.rwait with
    -- `_writer` stays true.
    | w :: ws, _ => { s with wwait := ws }.handOff c [w]
    -- All readers that wait get in at once.
    | [], r :: rs =>
      { s with writer := false, readers := (r :: rs).length, rwait := [] }.handOff c (r :: rs)
    | [], [] => { s with writer := false }.handOff c []

end State

def step (calls : C → Call) (s : State C) : Action C → Option (State C)
  | .start c =>
    match s.room.pc c with
    | .idle =>
      match calls c with
      | .rlock => some (s.rlock c)
      | .runlock => some (s.runlock c)
      | .lock => some (s.lock c)
      | .unlock => some (s.unlock c)
    | _ => none
  | .move c => (s.room.next false c).map fun room => { s with room := room }
  | .check c =>
    match s.room.pc c with
    | .woken => some { s with room := s.room.check c .acquired }
    | _ => none

structure Init (s : State C) : Prop where
  readers : s.readers = 0
  writer : s.writer = false
  rwait : s.rwait = []
  wwait : s.wwait = []
  pc : ∀ c, s.room.pc c = .idle
  granted : ∀ c, s.room.granted c = false
  grants : s.grants = []
  releases : s.releases = []

def rwMutex (calls : C → Call) : System (State C) (Action C) where
  init := Init
  step := step calls

end Runloom.RWMutex

/-!
## Readers, the writer, and who waits

The counters say who has the lock: as many readers as read locks were given out and not returned, a writer
exactly when a write lock was.  Nobody waits for a lock that is free.
-/

namespace Runloom.RWMutex

open Transition Handoff List

variable {C : Type*}

/-- The locks of one kind that are out: `up` got one, `down` gave one back. -/
def out (calls : C → Call) (up down : Call) (s : State C) : ℤ :=
  s.grants.countP (calls · = up) - s.releases.countP (calls · = down)

/-- What a section leaves behind, the room apart. -/
structure Counters (calls : C → Call) (s : State C) : Prop where
  nonneg : 0 ≤ s.readers
  excl : s.writer = true → s.readers = 0
  readers : s.readers = out calls .rlock .runlock s
  writer : (if s.writer then 1 else 0) = out calls .lock .unlock s
  rlock : ∀ c ∈ s.rwait, calls c = .rlock
  lock : ∀ c ∈ s.wwait, calls c = .lock
  wwait : s.wwait ≠ [] → s.writer = true ∨ 0 < s.readers
  rwait : s.rwait ≠ [] → s.writer = true ∨ s.wwait ≠ []

structure Inv (calls : C → Call) (s : State C) : Prop where
  counters : Counters calls s
  seated : Seated s.room .acquired (s.rwait ++ s.wwait) s.grants
  untimed : ∀ c, s.room.pc c ≠ .expired

variable {calls : C → Call} {s s' t : State C} {c : C} {cs : List C}

theorem Inv.init (h : Init s) : Inv calls s where
  counters := by
    have hout : ∀ up down, out calls up down s = 0 := fun up down => by
      simp only [out, h.grants, h.releases, countP_nil, sub_self]
    exact {
      nonneg := le_of_eq h.readers.symm
      excl := fun _ => h.readers
      readers := h.readers.trans (hout _ _).symm
      writer := by
        rw [h.writer, hout]
        rfl
      rlock := fun c hc => by
        rw [h.rwait] at hc
        cases hc
      lock := fun c hc => by
        rw [h.wwait] at hc
        cases hc
      wwait := fun hne => absurd h.wwait hne
      rwait := fun hne => absurd h.rwait hne }
  seated := by
    rw [h.rwait, h.wwait, h.grants]
    exact seated_nil h.pc h.granted
  untimed c := by
    rw [h.pc]
    exact fun h => by cases h

theorem countP_of_forall {k : Call} (h : ∀ c ∈ cs, calls c = k) (k' : Call) :
    cs.countP (calls · = k') = if k = k' then cs.length else 0 := by
  split
  next heq =>
    rw [countP_eq_length]
    exact fun c hc => decide_eq_true ((h c hc).trans heq)
  next hne =>
    rw [countP_eq_zero]
    exact fun c hc hk => hne ((h c hc).symm.trans (of_decide_eq_true hk))

variable [DecidableEq C]

theorem out_take (up down : Call) (s : State C) (c : C) :
    out calls up down (s.take c) = out calls up down s + if calls c = up then 1 else 0 := by
  simp only [out, State.take, State.goto, countP_append, countP_singleton, decide_eq_true_eq]
  split <;> omega

theorem out_handOff (up down : Call) (s : State C) (c : C) (cs : List C) : out calls up down (s.handOff c cs) =
      out calls up down s + cs.countP (calls · = up) - if calls c = down then 1 else 0 := by
  simp only [out, State.handOff, countP_append, countP_singleton, decide_eq_true_eq]
  split <;> omega

/-! ## Sections -/

theorem untimed_goto {x : Room C Result} {pc : Pc C Result} (h : ∀ c, x.pc c ≠ .expired)
    (hpc : pc ≠ .expired) (d : C) : (x.goto c pc).pc d ≠ .expired := by
  by_cases hdc : d = c
  · rw [hdc]
    simp only [Room.goto, Function.update_self]
    exact hpc
  · simp only [Room.goto, Function.update_of_ne hdc]
    exact h d

theorem untimed_next {x x' : Room C Result} (h : ∀ c, x.pc c ≠ .expired) (hn : x.next false c = some x') :
    ∀ d, x'.pc d ≠ .expired := by
  unfold Room.next at hn
  split at hn <;> cases hn
  next => exact untimed_goto h fun h => by cases h
  next => exact untimed_goto h fun h => by cases h
  next w cs r _ => exact untimed_goto h fun h => by cases cs <;> cases h

section

variable (hI : Inv calls s)
include hI

theorem Inv.refuse (hc : s.room.pc c = .idle) {r : Result} (hr : r ≠ .acquired) :
    Inv calls (s.goto c (.returned r)) where
  counters := { hI.counters with }
  seated := hI.seated.refuse hc hr
  untimed := untimed_goto hI.untimed fun h => by cases h

theorem Inv.handOff (hc : s.room.pc c = .idle) (hroom : t.room = s.room)
    (hgrants : t.grants = s.grants) (hperm : (s.rwait ++ s.wwait).Perm (cs ++ (t.rwait ++ t.wwait)))
    (hC : Counters calls (t.handOff c cs)) : Inv calls (t.handOff c cs) where
  counters := hC
  seated := by
    have hout : c ∉ s.rwait ++ s.wwait := by
      apply hI.seated.notMem_of_not_inLoop
      rw [hc]
      rfl
    simp only [State.handOff, hroom, hgrants]
    refine hI.seated.grant (by decide) ?_ (hI.seated.fresh c hc) ?_
    · rw [hc]
      rfl
    · rw [erase_of_not_mem hout]
      exact hperm
  untimed := by
    simp only [State.handOff, hroom]
    refine untimed_goto (x := s.room.grant cs) hI.untimed fun h => ?_
    cases cs <;> cases h

theorem Inv.rlock (hc : s.room.pc c = .idle) (hcall : calls c = .rlock) : Inv calls (s.rlock c) := by
  have hC := hI.counters
  unfold State.rlock
  split
  next hfree =>
    simp only [Bool.and_eq_true, Bool.not_eq_true', List.isEmpty_iff] at hfree
    obtain ⟨hwriter, hwwait⟩ := hfree
    exact {
      counters := {
        nonneg := Int.le_add_one hC.nonneg
        excl := fun h => by cases hwriter.symm.trans h
        readers := by
          rw [out_take, hcall]
          exact congrArg (· + 1) hC.readers
        writer := by
          rw [out_take, hcall]
          exact hC.writer.trans (add_zero _).symm
        rlock := hC.rlock
        lock := hC.lock
        wwait := fun h => absurd hwwait h
        rwait := hC.rwait }
      seated := hI.seated.take hc
      untimed := untimed_goto hI.untimed fun h => by cases h }
  next hbusy =>
    exact {
      counters := { hC with
        rlock := fun d hd => by
          rcases mem_append.mp hd with hd | hd
          · exact hC.rlock d hd
          · rw [mem_singleton.mp hd]
            exact hcall
        rwait := fun _ => by
          simp only [Bool.and_eq_true, Bool.not_eq_true', List.isEmpty_iff, not_and_or] at hbusy
          rw [Bool.not_eq_false] at hbusy
          exact hbusy }
      seated := by
        refine (hI.seated.enqueue hc).perm ?_
        show (s.rwait ++ s.wwait ++ [c]).Perm (s.rwait ++ [c] ++ s.wwait)
        rw [append_assoc, append_assoc]
        exact perm_append_comm.append_left s.rwait
      untimed := untimed_goto hI.untimed fun h => by cases h }

theorem Inv.lock (hc : s.room.pc c = .idle) (hcall : calls c = .lock) : Inv calls (s.lock c) := by
  have hC := hI.counters
  unfold State.lock
  split
  next hfree =>
    simp only [Bool.and_eq_true, Bool.not_eq_true', beq_iff_eq] at hfree
    obtain ⟨hwriter, hreaders⟩ := hfree
    exact {
      counters := {
        nonneg := hC.nonneg
        excl := fun _ => hreaders
        readers := by
          rw [out_take, hcall]
          exact hC.readers.trans (add_zero _).symm
        writer := by
          rw [out_take, hcall]
          have := hC.writer
          rw [hwriter] at this
          exact congrArg (· + 1) this
        rlock := hC.rlock
        lock := hC.lock
        wwait := fun _ => .inl rfl
        rwait := fun _ => .inl rfl }
      seated := hI.seated.take hc
      untimed := untimed_goto hI.untimed fun h => by cases h }
  next hbusy =>
    exact {
      counters := { hC with
        lock := fun d hd => by
          rcases mem_append.mp hd with hd | hd
          · exact hC.lock d hd
          · rw [mem_singleton.mp hd]
            exact hcall
        wwait := fun _ => by
          simp only [Bool.and_eq_true, Bool.not_eq_true', beq_iff_eq, not_and_or] at hbusy
          rw [Bool.not_eq_false] at hbusy
          exact hbusy.imp id fun hne => lt_of_le_of_ne hC.nonneg (Ne.symm hne)
        rwait := fun _ => .inr (concat_ne_nil c s.wwait) }
      seated := by
        show Seated _ _ (s.rwait ++ (s.wwait ++ [c])) _
        rw [← append_assoc]
        exact hI.seated.enqueue hc
      untimed := untimed_goto hI.untimed fun h => by cases h }

end

theorem Counters.readerLeaves (hC : Counters calls s) (hcall : calls c = .runlock) (hpos : 0 < s.readers)
    (hstay : s.wwait = [] ∨ s.readers ≠ 1) :
    Counters calls ({ s with readers := s.readers - 1 }.handOff c []) where
  nonneg := Int.sub_nonneg_of_le hpos
  excl h := by
    have := hC.excl h
    omega
  readers := by
    rw [out_handOff, hcall]
    have := hC.readers
    show s.readers - 1 = out calls .rlock .runlock s + 0 - 1
    omega
  writer := by
    rw [out_handOff, hcall]
    show _ = out calls .lock .unlock s + 0 - 0
    rw [add_zero, sub_zero]
    exact hC.writer
  rlock := hC.rlock
  lock := hC.lock
  wwait hne := by
    right
    show 0 < s.readers - 1
    have := hstay.resolve_left hne
    omega
  rwait := hC.rwait

theorem Inv.runlock (hI : Inv calls s) (hc : s.room.pc c = .idle) (hcall : calls c = .runlock) :
    Inv calls (s.runlock c) := by
  have hC := hI.counters
  unfold State.runlock
  split
  next => exact hI.refuse hc (by decide)
  next hpos =>
    have hpos : 0 < s.readers := not_le.mp hpos
    dsimp only
    split
    next w ws hw =>
      have hw : s.wwait = w :: ws := hw
      split
      next hlast =>
        -- The last reader makes the first writer the holder.
        have hidle : s.writer = false := by
          rw [Bool.eq_false_iff]
          intro h
          have := hC.excl h
          omega
        have hwriter : 0 = out calls .lock .unlock s := by
          have := hC.writer
          rw [hidle] at this
          exact this
        have hlock : ∀ d ∈ [w], calls d = .lock := fun d hd =>
          hC.lock d (hw ▸ mem_of_mem_head? (by rw [mem_singleton.mp hd]; rfl))
        refine hI.handOff hc rfl rfl ?_ ?_
        · rw [hw]
          exact perm_middle
        · exact {
            nonneg := Int.sub_nonneg_of_le hpos
            excl := fun _ => hlast
            readers := by
              rw [out_handOff, hcall, countP_of_forall hlock]
              have := hC.readers
              show s.readers - 1 = out calls .rlock .runlock s + 0 - 1
              omega
            writer := by
              rw [out_handOff, hcall, countP_of_forall hlock]
              show 1 = out calls .lock .unlock s + 1 - 0
              omega
            rlock := hC.rlock
            lock := fun d hd => hC.lock d (hw ▸ mem_cons_of_mem _ hd)
            wwait := fun _ => .inl rfl
            rwait := fun _ => .inl rfl }
      next hmore =>
        refine hI.handOff hc rfl rfl (List.Perm.refl _) (hC.readerLeaves hcall hpos (.inr ?_))
        have hmore : ¬s.readers - 1 = 0 := hmore
        omega
    next hw =>
      exact hI.handOff hc rfl rfl (List.Perm.refl _) (hC.readerLeaves hcall hpos (.inl hw))

theorem Inv.unlock (hI : Inv calls s) (hc : s.room.pc c = .idle) (hcall : calls c = .unlock) :
    Inv calls (s.unlock c) := by
  have hC := hI.counters
  unfold State.unlock
  split
  next => exact hI.refuse hc (by decide)
  next hheld =>
    have hheld : s.writer = true := by simpa using hheld
    have hnone : s.readers = 0 := hC.excl hheld
    have hreaders := hC.readers
    have hwriter : 1 = out calls .lock .unlock s := by
      have := hC.writer
      rw [hheld] at this
      exact this
    split
    next w ws hw =>
      have hlock : ∀ d ∈ [w], calls d = .lock := fun d hd => by
        rw [mem_singleton.mp hd]
        apply hC.lock
        rw [hw]
        exact mem_cons_self
      refine hI.handOff hc rfl rfl ?_ ?_
      · rw [hw]
        exact perm_middle
      · exact {
          nonneg := hC.nonneg
          excl := hC.excl
          readers := by
            rw [out_handOff, hcall, countP_of_forall hlock]
            show s.readers = out calls .rlock .runlock s + 0 - 0
            omega
          writer := by
            rw [out_handOff, hcall, countP_of_forall hlock]
            show (if s.writer then 1 else 0) = out calls .lock .unlock s + 1 - 1
            rw [add_sub_cancel_right]
            exact hC.writer
          rlock := hC.rlock
          lock := fun d hd => hC.lock d (hw ▸ mem_cons_of_mem _ hd)
          wwait := fun _ => .inl hheld
          rwait := fun _ => .inl hheld }
    next r rs hw hr =>
      -- Every reader that waits gets in.
      have hrlock : ∀ d ∈ r :: rs, calls d = .rlock := fun d hd => hC.rlock d (hr ▸ hd)
      refine hI.handOff hc rfl rfl ?_ ?_
      · rw [hw, hr]
        exact List.Perm.refl _
      · exact {
          nonneg := Int.natCast_nonneg _
          excl := fun h => by cases h
          readers := by
            rw [out_handOff, hcall, countP_of_forall hrlock]
            show ((r :: rs).length : ℤ) = out calls .rlock .runlock s + (r :: rs).length - 0
            omega
          writer := by
            rw [out_handOff, hcall, countP_of_forall hrlock]
            show 0 = out calls .lock .unlock s + 0 - 1
            omega
          rlock := fun d hd => by cases hd
          lock := hC.lock
          wwait := fun h => absurd hw h
          rwait := fun h => absurd rfl h }
    next hw hr =>
      refine hI.handOff hc rfl rfl (List.Perm.refl _) ?_
      exact {
        nonneg := hC.nonneg
        excl := fun h => by cases h
        readers := by
          rw [out_handOff, hcall]
          show s.readers = out calls .rlock .runlock s + 0 - 0
          omega
        writer := by
          rw [out_handOff, hcall]
          show 0 = out calls .lock .unlock s + 0 - 1
          omega
        rlock := hC.rlock
        lock := hC.lock
        wwait := fun h => absurd hw h
        rwait := fun h => absurd hr h }

theorem Inv.step (hI : Inv calls s) {a : Action C} (h : step calls s a = some s') : Inv calls s' := by
  cases a with
  | start c =>
    simp only [RWMutex.step] at h
    split at h
    next hpc =>
      split at h <;> rename_i hcall <;> cases h
      · exact hI.rlock hpc hcall
      · exact hI.runlock hpc hcall
      · exact hI.lock hpc hcall
      · exact hI.unlock hpc hcall
    next => cases h
  | move c =>
    obtain ⟨room, hroom, rfl⟩ := Option.map_eq_some_iff.mp h
    exact ⟨{ hI.counters with }, hI.seated.next hroom, untimed_next hI.untimed hroom⟩
  | check c =>
    simp only [RWMutex.step] at h
    split at h <;> cases h
    next hpc =>
      refine ⟨{ hI.counters with }, hI.seated.check hpc, untimed_goto hI.untimed ?_⟩
      split <;> exact fun h => by cases h

theorem inv_of_reachable (h : (rwMutex calls).Reachable s) : Inv calls s :=
  h.invariant (fun _ => Inv.init) fun _ _ _ hI _ hs => hI.step hs

def unheld : State ℕ := ⟨0, false, [], [], ⟨fun _ => .idle, fun _ => false, fun _ => false⟩, [], []⟩

end Runloom.RWMutex
