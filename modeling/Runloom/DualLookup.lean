import Mathlib.Data.Int.Notation
import Runloom.Transition.System

/-!
# The dual DNS lookup

Model of `_resolve_dual`: one fiber for the A query, one for the AAAA query, a countdown in `remaining[0]`, and one
`park` of the caller on a pipe.  The two fibers run on different hub threads, so the read and the write of
`remaining[0] -= 1` are two steps, and the test after it a third.
-/

namespace Runloom.DualLookup

open Transition

inductive Qtype where
  | a
  | aaaa
deriving DecidableEq

def Qtype.other : Qtype → Qtype
  | .a => .aaaa
  | .aaaa => .a

/-- `socket.AF_INET` and `socket.AF_INET6`. -/
inductive Family where
  | inet
  | inet6
deriving DecidableEq

/-- What the caller asks for, and what each `_resolve_qtype` does: `none` is an exception. -/
structure Lookup (α : Type*) where
  wantV4 : Bool
  wantV6 : Bool
  outcome : Qtype → Option (List α)

variable {α : Type*}

def Lookup.answers (l : Lookup α) (q : Qtype) : List α :=
  (l.outcome q).getD []

inductive RunnerPc where
  | unspawned
  | resolve
  | load
  | store (v : ℤ)
  | test
  | unpark
  | done
deriving DecidableEq

inductive CallerPc (α : Type*) where
  | start
  | spawnA
  | spawnAaaa
  | park
  /-- In `wait_fd`, or in `select` on a thread without a fiber. -/
  | parked
  /-- The read of up to 64 bytes at the end of `park`. -/
  | read
  | release
  | collectA
  | collectAaaa (out : List (Family × α))
  | returned (out : List (Family × α))
  | raised
deriving DecidableEq

/-- The pipe holds `stale` bytes from before the call, then `fresh` ones from its runners. -/
structure State (α : Type*) where
  results : Qtype → Option (List α)
  remaining : ℤ
  stale : ℕ
  fresh : ℕ
  runner : Qtype → RunnerPc
  caller : CallerPc α

inductive Action where
  | caller
  | runner (q : Qtype)
  /-- `wait_fd` returns with nothing to read. -/
  | spurious

namespace State

def runnerTo (s : State α) (q : Qtype) (pc : RunnerPc) : State α :=
  { s with runner := Function.update s.runner q pc }

def callerTo (s : State α) (pc : CallerPc α) : State α :=
  { s with caller := pc }

/-- The early returns, where `_resolve_qtype` runs in the caller; else the gathering begins. -/
def start (l : Lookup α) (s : State α) : State α :=
  if l.wantV4 ∧ ¬l.wantV6 then
    match l.outcome .a with
    | some as => s.callerTo (.returned (as.map (Family.inet, ·)))
    | none => s.callerTo .raised
  else if l.wantV6 ∧ ¬l.wantV4 then
    match l.outcome .aaaa with
    | some as => s.callerTo (.returned (as.map (Family.inet6, ·)))
    | none => s.callerTo .raised
  else s.callerTo .spawnA

def callerStep (l : Lookup α) (s : State α) : Option (State α) :=
  match s.caller with
  | .start => some (s.start l)
  | .spawnA => some ((s.runnerTo .a .resolve).callerTo .spawnAaaa)
  | .spawnAaaa => some ((s.runnerTo .aaaa .resolve).callerTo .park)
  | .park => some (s.callerTo .parked)
  | .parked => if 0 < s.stale + s.fresh then some (s.callerTo .read) else none
  | .read =>
    some ({ s with stale := s.stale - 64, fresh := s.fresh - (64 - s.stale) }.callerTo .release)
  | .release => some ({ s with stale := 0, fresh := 0 }.callerTo .collectA)
  -- A runner that has stored nothing yet counts as one without answers.
  | .collectA =>
    some (s.callerTo (.collectAaaa (((s.results .a).getD []).map (Family.inet, ·))))
  | .collectAaaa out =>
    some (s.callerTo (.returned (out ++ ((s.results .aaaa).getD []).map (Family.inet6, ·))))
  | .returned _ => none
  | .raised => none

def runnerStep (l : Lookup α) (s : State α) (q : Qtype) : Option (State α) :=
  match s.runner q with
  | .unspawned => none
  | .resolve =>
    some ({ s with results := Function.update s.results q (some (l.answers q)) }.runnerTo q .load)
  -- `remaining[0] -= 1` is a load and a store; the other runner may come in between.
  | .load => some (s.runnerTo q (.store s.remaining))
  | .store v => some ({ s with remaining := v - 1 }.runnerTo q .test)
  | .test => some (s.runnerTo q (if s.remaining = 0 then .unpark else .done))
  | .unpark => some ({ s with fresh := s.fresh + 1 }.runnerTo q .done)
  | .done => none

end State

open State

def step (l : Lookup α) (s : State α) : Action → Option (State α)
  | .caller => s.callerStep l
  | .runner q => s.runnerStep l q
  | .spurious =>
    match s.caller with
    | .parked => some (s.callerTo .read)
    | _ => none

/-- The call begins, with a new parker or a pooled one. -/
structure Init (s : State α) : Prop where
  results : ∀ q, s.results q = none
  remaining : s.remaining = 2
  fresh : s.fresh = 0
  runner : ∀ q, s.runner q = .unspawned
  caller : s.caller = .start

def resolveDual (l : Lookup α) : System (State α) Action where
  init := Init
  step := step l

end Runloom.DualLookup

/-!
## When the dual lookup gathers both answers

The countdown works as long as the two decrements do not overlap: the runner that brings it to zero has both answers
behind it and writes the byte that the caller waits for.  A wait that returns for any other reason than that byte
returns too early, unless the answers happen to be there already.
-/

namespace Runloom.DualLookup

open Transition State

variable {α : Type*} {l : Lookup α} {s u : State α}

/-! ## Reading the counters -/

def RunnerPc.stored : RunnerPc → Bool
  | .unspawned => false
  | .resolve => false
  | _ => true

def RunnerPc.counted : RunnerPc → Bool
  | .test => true
  | .unpark => true
  | .done => true
  | _ => false

def RunnerPc.updating : RunnerPc → Bool
  | .store _ => true
  | _ => false

theorem RunnerPc.stored_of_counted {pc : RunnerPc} (h : pc.counted = true) : pc.stored = true := by
  cases pc <;> first | rfl | exact absurd h (by decide)

def State.BothStored (s : State α) : Prop :=
  ∀ q, (s.runner q).stored = true

instance (s : State α) : Decidable s.BothStored :=
  decidable_of_iff ((s.runner .a).stored = true ∧ (s.runner .aaaa).stored = true)
    ⟨fun h q => by cases q; exacts [h.1, h.2], fun h => ⟨h .a, h .aaaa⟩⟩

/-- Both runners are through and nothing will wake the caller. -/
def State.Stuck (s : State α) : Prop :=
  (∀ q, s.runner q = .done) ∧ s.caller = .parked ∧ s.stale + s.fresh = 0

def Lookup.expected (l : Lookup α) : List (Family × α) :=
  if l.wantV4 ∧ ¬l.wantV6 then (l.answers .a).map (Family.inet, ·)
  else if l.wantV6 ∧ ¬l.wantV4 then (l.answers .aaaa).map (Family.inet6, ·)
  else (l.answers .a).map (Family.inet, ·) ++ (l.answers .aaaa).map (Family.inet6, ·)

/-- No runner reads the countdown while the other updates it, and the wait ends early only once both answers are
stored. -/
def Orderly (s : State α) : Action → Prop
  | .runner q => s.runner q = .load → (s.runner q.other).updating = false
  | .spurious => s.BothStored
  | .caller => s.caller = .parked → s.stale = 0 ∨ s.BothStored

instance [DecidableEq α] (s : State α) (a : Action) : Decidable (Orderly s a) := by
  unfold Orderly
  split <;> infer_instance

/-! ## The invariant -/

def RunnerPc.decrement (pc : RunnerPc) : ℤ :=
  pc.counted.toNat

def State.Owed (s : State α) : Prop :=
  s.remaining = 0 → (∃ q, s.runner q = .test ∨ s.runner q = .unpark) ∨ 0 < s.fresh

def Lookup.Parallel (l : Lookup α) : Prop :=
  ¬(l.wantV4 ∧ ¬l.wantV6) ∧ ¬(l.wantV6 ∧ ¬l.wantV4)

def CallerOk (l : Lookup α) (s : State α) : CallerPc α → Prop
  | .start => ∀ q, s.runner q = .unspawned
  | .spawnA => l.Parallel ∧ ∀ q, s.runner q = .unspawned
  | .spawnAaaa => l.Parallel ∧ s.runner .aaaa = .unspawned ∧ s.Owed
  | .park => l.Parallel ∧ s.Owed
  | .parked => l.Parallel ∧ s.Owed
  | .read => l.Parallel ∧ s.BothStored
  | .release => l.Parallel ∧ s.BothStored
  | .collectA => l.Parallel ∧ s.BothStored
  | .collectAaaa out =>
    l.Parallel ∧ s.BothStored ∧ out = (l.answers .a).map (Family.inet, ·)
  | .returned out => out = l.expected
  | .raised => True

structure Inv (l : Lookup α) (s : State α) : Prop where
  results : ∀ q, s.results q = if (s.runner q).stored then some (l.answers q) else none
  remaining : s.remaining = 2 - (s.runner .a).decrement - (s.runner .aaaa).decrement
  store : ∀ q v, s.runner q = .store v → v = s.remaining ∧ (s.runner q.other).updating = false
  unpark : ∀ q, s.runner q = .unpark → s.remaining = 0
  fresh : 0 < s.fresh → s.remaining = 0
  caller : CallerOk l s s.caller

theorem decrement_bounds (pc : RunnerPc) : 0 ≤ pc.decrement ∧ pc.decrement ≤ 1 := by
  unfold RunnerPc.decrement
  have hle := Bool.toNat_le pc.counted
  omega

theorem counted_of_decrement {pc : RunnerPc} (h : pc.decrement = 1) : pc.counted = true := by
  unfold RunnerPc.decrement at h
  cases hc : pc.counted with
  | true => rfl
  | false =>
    rw [hc] at h
    exact absurd h (by decide)

theorem Inv.bothStored_of_zero (hI : Inv l s) (h0 : s.remaining = 0) : s.BothStored := by
  have hrem := hI.remaining
  have ha := decrement_bounds (s.runner .a)
  have hb := decrement_bounds (s.runner .aaaa)
  intro q
  apply RunnerPc.stored_of_counted
  cases q with
  | a | aaaa => exact counted_of_decrement (by omega)

theorem Inv.result_of_stored (hI : Inv l s) {q : Qtype} (hq : (s.runner q).stored = true) :
    s.results q = some (l.answers q) := by
  rw [hI.results q, if_pos hq]

theorem Inv.of_init (h : Init s) : Inv l s where
  results q := by
    rw [h.results, h.runner]
    rfl
  remaining := by
    rw [h.remaining, h.runner, h.runner]
    rfl
  store q v hq := by
    rw [h.runner] at hq
    cases hq
  unpark q hq := by
    rw [h.runner] at hq
    cases hq
  fresh hpos := by
    rw [h.fresh] at hpos
    exact absurd hpos (by decide)
  caller := by
    rw [h.caller]
    exact h.runner

/-! ## Steps of the caller -/

theorem Inv.callerTo (hI : Inv l s) {c : CallerPc α} (hc : CallerOk l s c) : Inv l (s.callerTo c) :=
  { hI with caller := by cases c <;> exact hc }

theorem Inv.start (hI : Inv l s) (hc : s.caller = .start) : Inv l (s.start l) := by
  have hidle := hI.caller
  rw [hc] at hidle
  unfold State.start
  by_cases h4 : l.wantV4 ∧ ¬l.wantV6
  · rw [if_pos h4]
    cases ho : l.outcome .a with
    | none => exact hI.callerTo trivial
    | some as =>
      apply hI.callerTo
      simp only [CallerOk, Lookup.expected, if_pos h4, Lookup.answers, ho, Option.getD_some]
  rw [if_neg h4]
  by_cases h6 : l.wantV6 ∧ ¬l.wantV4
  · rw [if_pos h6]
    cases ho : l.outcome .aaaa with
    | none => exact hI.callerTo trivial
    | some as =>
      apply hI.callerTo
      simp only [CallerOk, Lookup.expected, if_neg h4, if_pos h6, Lookup.answers, ho, Option.getD_some]
  rw [if_neg h6]
  exact hI.callerTo ⟨⟨h4, h6⟩, hidle⟩

theorem Inv.spawn (hI : Inv l s) {q : Qtype} (hq : s.runner q = .unspawned) {c : CallerPc α}
    (hc : CallerOk l (s.runnerTo q .resolve) c) : Inv l ((s.runnerTo q .resolve).callerTo c) := by
  have hsame : ∀ p, ((s.runnerTo q .resolve).runner p).stored = (s.runner p).stored ∧
      ((s.runnerTo q .resolve).runner p).decrement = (s.runner p).decrement ∧
      ((s.runnerTo q .resolve).runner p).updating = (s.runner p).updating := by
    intro p
    by_cases hp : p = q
    · subst hp
      simp only [State.runnerTo, update_self, hq]
      exact ⟨rfl, rfl, rfl⟩
    · simp only [State.runnerTo, update_of_ne hp]
      exact ⟨trivial, trivial, trivial⟩
  have hback : ∀ {p pc}, (s.runnerTo q .resolve).runner p = pc → pc ≠ .resolve → s.runner p = pc := by
    intro p pc hp hne
    by_cases hpq : p = q
    · subst hpq
      simp only [State.runnerTo, update_self] at hp
      exact absurd hp.symm hne
    · simpa only [State.runnerTo, update_of_ne hpq] using hp
  constructor
  · intro p
    show s.results p = if ((s.runnerTo q .resolve).runner p).stored then _ else _
    rw [(hsame p).1]
    exact hI.results p
  · show s.remaining = 2 - ((s.runnerTo q .resolve).runner .a).decrement -
      ((s.runnerTo q .resolve).runner .aaaa).decrement
    rw [(hsame _).2.1, (hsame _).2.1]
    exact hI.remaining
  · intro p v hp
    show v = s.remaining ∧ ((s.runnerTo q .resolve).runner p.other).updating = false
    rw [(hsame _).2.2]
    exact hI.store p v (hback hp nofun)
  · intro p hp
    exact hI.unpark p (hback hp nofun)
  · exact hI.fresh
  · cases c <;> exact hc

theorem Owed.of_pos (h : s.remaining ≠ 0) : s.Owed :=
  fun h0 => absurd h0 h

theorem Inv.remaining_ne_zero (hI : Inv l s) {q : Qtype} (hq : (s.runner q).stored = false) :
    s.remaining ≠ 0 := by
  intro h0
  have hstored := hI.bothStored_of_zero h0 q
  rw [hq] at hstored
  cases hstored

theorem Inv.callerStep (hI : Inv l s) (hC : Orderly s .caller) (ha : s.callerStep l = some u) :
    Inv l u := by
  have hok := hI.caller
  unfold State.callerStep at ha
  split at ha
  case h_1 hc =>
    cases ha
    exact hI.start hc
  case h_2 hc =>
    cases ha
    rw [hc] at hok
    apply hI.spawn (hok.2 .a)
    exact ⟨hok.1, hok.2 .aaaa, Owed.of_pos (hI.remaining_ne_zero (q := .a) (by rw [hok.2]; rfl))⟩
  case h_3 hc =>
    cases ha
    rw [hc] at hok
    apply hI.spawn hok.2.1
    exact ⟨hok.1, Owed.of_pos (hI.remaining_ne_zero (q := .aaaa) (by rw [hok.2.1]; rfl))⟩
  case h_4 hc =>
    cases ha
    rw [hc] at hok
    exact hI.callerTo hok
  case h_5 hc =>
    split at ha
    · rename_i hbytes
      cases ha
      rw [hc] at hok
      -- a byte that is not stale comes from a runner that saw zero
      rcases hC hc with hstale | hstored
      · exact hI.callerTo ⟨hok.1, hI.bothStored_of_zero (hI.fresh (by omega))⟩
      · exact hI.callerTo ⟨hok.1, hstored⟩
    · cases ha
  case h_6 hc =>
    cases ha
    rw [hc] at hok
    exact { hI with
      fresh := fun hpos => hI.fresh (Nat.lt_of_lt_of_le hpos (Nat.sub_le _ _))
      caller := ⟨hok.1, hok.2⟩ }
  case h_7 hc =>
    cases ha
    rw [hc] at hok
    exact { hI with
      fresh := fun hpos => absurd hpos (Nat.lt_irrefl 0)
      caller := ⟨hok.1, hok.2⟩ }
  case h_8 hc =>
    cases ha
    rw [hc] at hok
    apply hI.callerTo
    refine ⟨hok.1, hok.2, ?_⟩
    rw [hI.result_of_stored (hok.2 .a), Option.getD_some]
  case h_9 out hc =>
    cases ha
    rw [hc] at hok
    obtain ⟨hpar, hstored, rfl⟩ := hok
    apply hI.callerTo
    rw [hI.result_of_stored (hstored .aaaa), Option.getD_some]
    simp only [CallerOk, Lookup.expected, if_neg hpar.1, if_neg hpar.2]
  case h_10 => cases ha
  case h_11 => cases ha

/-! ## Steps of a runner -/

theorem CallerOk.mono {c : CallerPc α} (h : CallerOk l s c) {q : Qtype}
    (hq : s.runner q ≠ .unspawned) (hother : u.runner q.other = s.runner q.other)
    (hstored : s.BothStored → u.BothStored) (howed : s.Owed → u.Owed) : CallerOk l u c := by
  cases c with
  | start => exact absurd (h q) hq
  | spawnA => exact absurd (h.2 q) hq
  | spawnAaaa =>
    refine ⟨h.1, ?_, howed h.2.2⟩
    cases q with
    | a => exact hother.trans h.2.1
    | aaaa => exact absurd h.2.1 hq
  | park | parked => exact ⟨h.1, howed h.2⟩
  | read | release | collectA => exact ⟨h.1, hstored h.2⟩
  | collectAaaa out => exact ⟨h.1, hstored h.2.1, h.2.2⟩
  | returned out => exact h
  | raised => trivial

theorem Qtype.other_ne (q : Qtype) : q.other ≠ q := by
  cases q <;> decide

theorem Qtype.eq_or_eq_other (p q : Qtype) : p = q ∨ p = q.other := by
  cases p <;> cases q <;> decide

theorem Qtype.other_other (q : Qtype) : q.other.other = q := by
  cases q <;> rfl

theorem sum_decrement (f : Qtype → RunnerPc) (q : Qtype) :
    (f .a).decrement + (f .aaaa).decrement = (f q).decrement + (f q.other).decrement := by
  cases q with
  | a => rfl
  | aaaa => exact Int.add_comm _ _

theorem Inv.remaining_eq (hI : Inv l s) (q : Qtype) :
    s.remaining = 2 - (s.runner q).decrement - (s.runner q.other).decrement := by
  have hsum := sum_decrement s.runner q
  have hrem := hI.remaining
  omega

section move

variable {q : Qtype} {d : RunnerPc}

theorem Inv.runnerMove (hI : Inv l s) (hq : s.runner q ≠ .unspawned)
    (hrunner : u.runner = Function.update s.runner q d) (hcaller : u.caller = s.caller)
    (hstored : d.stored = true) (hresq : u.results q = some (l.answers q))
    (hres : u.results q.other = s.results q.other)
    (hrem : u.remaining = 2 - d.decrement - (s.runner q.other).decrement)
    (hstore : ∀ v, d = .store v → v = u.remaining ∧ (s.runner q.other).updating = false)
    (hother : ∀ v, s.runner q.other = .store v → v = u.remaining ∧ d.updating = false)
    (hunpark : d = .unpark ∨ s.runner q.other = .unpark → u.remaining = 0)
    (hfresh : 0 < u.fresh → u.remaining = 0) (howed : s.Owed → u.Owed) : Inv l u := by
  have hself : u.runner q = d := by
    rw [hrunner, update_self]
  have hrest : u.runner q.other = s.runner q.other := by
    rw [hrunner, update_of_ne q.other_ne]
  constructor
  · intro p
    rcases p.eq_or_eq_other q with rfl | rfl
    · rw [hself, hresq, if_pos hstored]
    · rw [hrest, hres]
      exact hI.results q.other
  · have hsum := sum_decrement u.runner q
    rw [hself, hrest] at hsum
    omega
  · intro p v hp
    rcases p.eq_or_eq_other q with rfl | rfl
    · rw [hself] at hp
      rw [hrest]
      exact hstore v hp
    · rw [hrest] at hp
      rw [q.other_other, hself]
      exact hother v hp
  · intro p hp
    rcases p.eq_or_eq_other q with rfl | rfl
    · rw [hself] at hp
      exact hunpark (.inl hp)
    · rw [hrest] at hp
      exact hunpark (.inr hp)
  · exact hfresh
  · rw [hcaller]
    apply hI.caller.mono hq hrest _ howed
    intro hboth p
    rcases p.eq_or_eq_other q with rfl | rfl
    · rw [hself]
      exact hstored
    · rw [hrest]
      exact hboth q.other

end move

theorem Inv.runnerStep (hI : Inv l s) {q : Qtype} (hC : Orderly s (.runner q))
    (ha : s.runnerStep l q = some u) : Inv l u := by
  have hrem := hI.remaining_eq q
  have hbound := decrement_bounds (s.runner q.other)
  unfold State.runnerStep at ha
  split at ha
  case h_1 => cases ha
  case h_2 hq =>
    cases ha
    have hne : s.remaining ≠ 0 := hI.remaining_ne_zero (q := q) (by rw [hq]; rfl)
    refine hI.runnerMove (q := q) (d := .load) (by rw [hq]; nofun) rfl rfl rfl ?_ ?_ ?_ ?_ ?_ ?_ ?_ ?_
    · exact update_self ..
    · exact update_of_ne q.other_ne ..
    · rw [hq] at hrem
      exact hrem
    · nofun
    · intro v hv
      exact ⟨(hI.store q.other v hv).1, rfl⟩
    · rintro (h | h)
      · cases h
      · exact hI.unpark q.other h
    · exact hI.fresh
    · exact fun _ => Owed.of_pos hne
  case h_3 hq =>
    cases ha
    have hstored : (s.runner q).stored = true := by rw [hq]; rfl
    have hupd : (s.runner q.other).updating = false := hC hq
    refine hI.runnerMove (q := q) (d := .store s.remaining) (by rw [hq]; nofun) rfl rfl rfl ?_ ?_
      ?_ ?_ ?_ ?_ ?_ ?_
    · exact hI.result_of_stored hstored
    · rfl
    · rw [hq] at hrem
      exact hrem
    · intro v hv
      cases hv
      exact ⟨rfl, hupd⟩
    · intro v hv
      rw [hv] at hupd
      cases hupd
    · rintro (h | h)
      · cases h
      · exact hI.unpark q.other h
    · exact hI.fresh
    · intro howed h0
      rw [hq] at hrem
      have hzero : RunnerPc.load.decrement = 0 := rfl
      have hrem0 : s.remaining = 0 := h0
      omega
  case h_4 v hq =>
    cases ha
    have hstored : (s.runner q).stored = true := by rw [hq]; rfl
    obtain ⟨rfl, hupd⟩ := hI.store q v hq
    rw [hq] at hrem
    have hzero : (RunnerPc.store s.remaining).decrement = 0 := rfl
    have hone : RunnerPc.test.decrement = 1 := rfl
    refine hI.runnerMove (q := q) (d := .test) (by rw [hq]; nofun) rfl rfl rfl ?_ ?_ ?_ ?_ ?_ ?_ ?_ ?_
    · exact hI.result_of_stored hstored
    · rfl
    · show s.remaining - 1 = _
      omega
    · nofun
    · intro v hv
      rw [hv] at hupd
      cases hupd
    · rintro (h | h)
      · cases h
      · have h0 := hI.unpark q.other h
        omega
    · intro hpos
      have h0 := hI.fresh hpos
      omega
    · intro _ _
      refine .inl ⟨q, .inl ?_⟩
      exact update_self ..
  case h_5 hq =>
    cases ha
    have hstored : (s.runner q).stored = true := by rw [hq]; rfl
    rw [hq] at hrem
    by_cases h0 : s.remaining = 0
    · rw [if_pos h0]
      refine hI.runnerMove (q := q) (d := .unpark) (by rw [hq]; nofun) rfl rfl rfl ?_ ?_ ?_ ?_ ?_ ?_ ?_ ?_
      · exact hI.result_of_stored hstored
      · rfl
      · exact hrem
      · nofun
      · intro v hv
        exact ⟨(hI.store q.other v hv).1, rfl⟩
      · exact fun _ => h0
      · exact hI.fresh
      · intro _ _
        refine .inl ⟨q, .inr ?_⟩
        exact update_self ..
    · rw [if_neg h0]
      refine hI.runnerMove (q := q) (d := .done) (by rw [hq]; nofun) rfl rfl rfl ?_ ?_ ?_ ?_ ?_ ?_ ?_ ?_
      · exact hI.result_of_stored hstored
      · rfl
      · exact hrem
      · nofun
      · intro v hv
        exact ⟨(hI.store q.other v hv).1, rfl⟩
      · rintro (h | h)
        · cases h
        · exact hI.unpark q.other h
      · exact hI.fresh
      · exact fun _ => Owed.of_pos h0
  case h_6 hq =>
    cases ha
    have hstored : (s.runner q).stored = true := by rw [hq]; rfl
    have h0 := hI.unpark q hq
    rw [hq] at hrem
    refine hI.runnerMove (q := q) (d := .done) (by rw [hq]; nofun) rfl rfl rfl ?_ ?_ ?_ ?_ ?_ ?_ ?_ ?_
    · exact hI.result_of_stored hstored
    · rfl
    · exact hrem
    · nofun
    · intro v hv
      exact ⟨(hI.store q.other v hv).1, rfl⟩
    · exact fun _ => h0
    · exact fun _ => h0
    · exact fun _ _ => .inr (Nat.succ_pos _)
  case h_7 => cases ha

theorem Inv.step (hI : Inv l s) {a : Action} (hC : Orderly s a)
    (ha : DualLookup.step l s a = some u) : Inv l u := by
  cases a with
  | caller => exact hI.callerStep hC ha
  | runner q => exact hI.runnerStep hC ha
  | spurious =>
    simp only [DualLookup.step] at ha
    split at ha
    · rename_i hc
      cases ha
      have hok := hI.caller
      rw [hc] at hok
      exact hI.callerTo ⟨hok.1, hC⟩
    · cases ha

theorem Inv.of_reachable (hs : (resolveDual l).ReachableWith Orderly s) : Inv l s :=
  hs.invariant (fun _ => .of_init) fun _ _ _ hI hC ha => hI.step hC ha

theorem Inv.not_stuck (hI : Inv l s) : ¬s.Stuck := by
  rintro ⟨hdone, hc, hbytes⟩
  have hok := hI.caller
  rw [hc] at hok
  have h0 : s.remaining = 0 := by
    rw [hI.remaining, hdone, hdone]
    rfl
  rcases hok.2 h0 with ⟨q, hq | hq⟩ | hfresh
  · rw [hdone] at hq
    cases hq
  · rw [hdone] at hq
    cases hq
  · omega

/-! ## Main result -/

/-- Along a run with orderly decrements and waits, the lookup returns the A and then the AAAA addresses. -/
theorem resolveDual_gathers (l : Lookup α) (s : State α) (hs : (resolveDual l).ReachableWith Orderly s) :
    (∀ out, s.caller = .returned out → out = l.expected) ∧ ¬s.Stuck := by
  have hI := Inv.of_reachable hs
  constructor
  · intro out hout
    have hok := hI.caller
    rw [hout] at hok
    exact hok
  · exact hI.not_stuck

/-- A call that finds `stale` bytes in its parker. -/
def State.initial (stale : ℕ) : State α :=
  ⟨fun _ => none, 2, stale, 0, fun _ => .unspawned, .start⟩

theorem init_initial (stale : ℕ) : Init (State.initial stale : State α) :=
  ⟨fun _ => rfl, rfl, rfl, fun _ => rfl, rfl⟩

def oneEach : Lookup ℕ :=
  ⟨true, true, fun q => match q with
    | .a => some [1]
    | .aaaa => some [2]⟩

def spawnBoth : List Action := [.caller, .caller, .caller, .caller]

def runOneByOne : List Action :=
  spawnBoth ++ [Action.runner .a, .runner .a, .runner .a, .runner .a, .runner .aaaa, .runner .aaaa,
    .runner .aaaa, .runner .aaaa, .runner .aaaa, .caller, .caller, .caller, .caller, .caller]

theorem resolveDual_gathers_runOneByOne : ∃ s, (resolveDual oneEach).ReachableWith Orderly s ∧
      s.caller = .returned [(.inet, 1), (.inet6, 2)] ∧
      [(Family.inet, 1), (Family.inet6, 2)] = oneEach.expected ∧ ¬s.Stuck := by
  obtain ⟨s, hs, hp⟩ := (resolveDual oneEach).reachesWith Orderly
    (fun s => s.caller = .returned [(.inet, 1), (.inet6, 2)]) runOneByOne
    (init_initial 0) (by decide +kernel)
  have hmain := resolveDual_gathers oneEach s hs
  exact ⟨s, hs, hp, hmain.1 _ hp, hmain.2⟩

def overlap : List Action :=
  spawnBoth ++ [Action.runner .a, .runner .aaaa, .runner .a, .runner .aaaa, .runner .a, .runner .aaaa,
    .runner .a, .runner .aaaa]

theorem overlapping_decrements_strand : ∃ s, (resolveDual oneEach).Reachable s ∧ s.Stuck := by
  obtain ⟨s, hs, ha, haaaa, hrest⟩ := (resolveDual oneEach).reaches
    (fun s => s.runner .a = .done ∧ s.runner .aaaa = .done ∧ s.caller = .parked ∧
      s.stale + s.fresh = 0) overlap (init_initial 0) (by decide +kernel)
  refine ⟨s, hs, ?_, hrest⟩
  intro q
  cases q with
  | a => exact ha
  | aaaa => exact haaaa

theorem early_return_drops_answers (stale : Bool) :
    ∃ s, (resolveDual oneEach).Reachable s ∧ s.caller = .returned [] ∧ [] ≠ oneEach.expected := by
  obtain ⟨s, hs, hp⟩ := (resolveDual oneEach).reaches (fun s => s.caller = .returned [])
    (spawnBoth ++ [if stale then Action.caller else .spurious, .caller, .caller, .caller, .caller])
    (init_initial (if stale then 1 else 0)) (by revert stale; decide)
  exact ⟨s, hs, hp, by decide⟩

end Runloom.DualLookup
