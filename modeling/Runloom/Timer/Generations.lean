import Runloom.Timer.Safety
import Runloom.Transition.History

/-!
# Generations of a timer

An arming is the construction of the object or a `Reset`, named by its generation.  A record of what every arming did
is kept beside the model: the decisions of its fiber, the values that it sent, and whether a call ended it.
-/

namespace Runloom.Timer

open Transition

variable {T : Type*} {s s' : State T} {kind : Kind}

/-- What `Timer.Stop` returns. -/
def State.stopReturns (s : State T) : Bool := !(s.stopped || s.fired)

/-- What `Timer.Reset` returns. -/
def State.resetReturns (s : State T) : Bool := !s.stopped && !s.fired

/-- The call finds an arming that is neither stopped nor, for a timer, fired. -/
def State.active (s : State T) (kind : Kind) : Bool := !(s.stopped || (kind.oneShot && s.fired))

/-! ## The record -/

structure Record where
  current : Nat
  armed : Nat → Bool
  decided : Nat → Nat
  /-- A `Stop` or a `Reset` has ended the arming before it fired. -/
  disarmed : Nat → Bool
  sends : Nat → Nat

namespace Record

def first : Record where
  current := 0
  armed n := n == 0
  decided _ := 0
  disarmed _ := false
  sends _ := 0

def disarm (r : Record) : Record :=
  { r with disarmed := update r.disarmed r.current true }

def arm (r : Record) (n : Nat) : Record :=
  { r with current := n, armed := update r.armed n true }

/-- The record after a step from `s` to `s'`. -/
def next (r : Record) (kind : Kind) (s s' : State T) : Action T → Record
  | .stop _ => if s.active kind then r.disarm else r
  | .reset _ => (if s.active kind then r.disarm else r).arm (s.gen + 1)
  | .recheck n =>
    match s'.fiber n with
    | .sending => { r with decided := update r.decided n (r.decided n + 1) }
    | _ => r
  | .send n => { r with sends := update r.sends n (r.sends n + 1) }
  | _ => r

/-- The arming is made, no call has ended it, and, for a timer, it has not fired. -/
def Live (r : Record) (kind : Kind) (n : Nat) : Prop :=
  r.armed n = true ∧ r.disarmed n = false ∧ (kind.oneShot = true → r.decided n = 0)

end Record

variable [DecidableEq T]

def recorded (kind : Kind) : System (State T × Record) (Action T) :=
  (timer kind).withHistory .first fun r s a s' => r.next kind s s' a

/-! ## What the flags say about the current arming -/

/-- The flags are those of the current arming, and an earlier one is over. -/
structure Gen (kind : Kind) (s : State T) (r : Record) : Prop where
  born : ∀ n, s.fiber n ≠ .unborn → r.armed n = true
  next : ∀ t n, (s.call t).next = some n → r.armed n = true ∧ s.fiber n = .unborn
  unique : ∀ t u n, (s.call t).next = some n → (s.call u).next = some n → t = u
  armed : ∀ n, r.armed n = true → n ≤ s.gen
  disarmed : ∀ n, r.disarmed n = true → r.armed n = true
  made : ∀ n, r.decided n ≠ 0 → r.armed n = true
  current : r.armed r.current = true
  counter : s.stopped = false → s.gen = r.current
  stopped : s.stopped = r.disarmed r.current
  fired : kind.oneShot = true → (s.fired = true ↔ r.decided r.current ≠ 0)
  past : ∀ n, r.armed n = true → n ≠ r.current → r.disarmed n = true ∨ kind.oneShot = true ∧ r.decided n ≠ 0
  once : kind.oneShot = true → ∀ n, r.decided n ≤ if r.disarmed n then 0 else 1
  sends : ∀ n, r.sends n + (if s.fiber n = .sending then 1 else 0) = r.decided n

variable {r : Record}

omit [DecidableEq T] in
theorem Gen.init (h : Init s) : Gen kind s .first where
  born n hn := by
    by_cases h0 : n = 0
    · rw [h0]
      rfl
    · exact absurd (h.fiber n h0) hn
  next t n hn := by
    rw [h.call t] at hn
    cases hn
  unique t u n hn := by
    rw [h.call t] at hn
    cases hn
  armed n hn := by
    have h0 : n = 0 := by simpa [Record.first] using hn
    omega
  disarmed n hn := by cases hn
  made n hn := absurd rfl hn
  current := rfl
  counter _ := h.gen
  stopped := h.stopped
  fired _ := by
    rw [h.fired]
    exact iff_of_false Bool.false_ne_true fun h => h rfl
  past n hn hne := absurd (by simpa [Record.first] using hn) hne
  once _ n := Nat.zero_le _
  sends n := by
    have hne : s.fiber n ≠ .sending := by
      by_cases h0 : n = 0
      · rw [h0, h.first]
        decide
      · rw [h.fiber n h0]
        decide
    rw [if_neg hne]
    rfl

variable {n : Nat}

section

variable (hG : Gen kind s r)
include hG

section

omit [DecidableEq T]

theorem Gen.move {pc : Pc} (hgen : s'.gen = s.gen)
    (hstopped : s'.stopped = s.stopped) (hfired : s'.fired = s.fired) (hcall : s'.call = s.call)
    (hfiber : s'.fiber = update s.fiber n pc) (hborn : s.fiber n ≠ .unborn)
    (hold : s.fiber n ≠ .sending) (hnew : pc ≠ .sending) : Gen kind s' r where
  born m hm := by
    rw [hfiber] at hm
    by_cases hmn : m = n
    · exact hmn ▸ hG.born n hborn
    · rw [update_of_ne hmn] at hm
      exact hG.born m hm
  next t m hm := by
    rw [hcall] at hm
    obtain ⟨ha, hu⟩ := hG.next t m hm
    have hmn : m ≠ n := fun h => hborn (h ▸ hu)
    rw [hfiber, update_of_ne hmn]
    exact ⟨ha, hu⟩
  unique := by
    rw [hcall]
    exact hG.unique
  armed m hm := by
    rw [hgen]
    exact hG.armed m hm
  disarmed := hG.disarmed
  made := hG.made
  current := hG.current
  counter h := by
    rw [hgen]
    exact hG.counter (hstopped ▸ h)
  stopped := by
    rw [hstopped]
    exact hG.stopped
  fired := by
    rw [hfired]
    exact hG.fired
  past := hG.past
  once := hG.once
  sends m := by
    rw [hfiber]
    by_cases hmn : m = n
    · subst hmn
      have := hG.sends m
      rw [if_neg hold] at this
      rwa [update_self, if_neg hnew]
    · rw [update_of_ne hmn]
      exact hG.sends m

theorem Gen.not_armed_succ : r.armed (s.gen + 1) = false := by
  cases h : r.armed (s.gen + 1) with
  | false => rfl
  | true =>
    have := hG.armed _ h
    omega

theorem Gen.decided_of_active (ha : s.active kind = true)
    (hk : kind.oneShot = true) : r.decided r.current = 0 := by
  simp only [State.active, hk, Bool.true_and, Bool.not_eq_true', Bool.or_eq_false_iff] at ha
  by_contra hne
  rw [(hG.fired hk).mpr hne] at ha
  cases ha.2

theorem Gen.disarm (ha : s.active kind = true) : (∀ n, r.disarm.disarmed n = true → r.armed n = true) ∧
    (∀ n, r.disarmed n = true → r.disarm.disarmed n = true) ∧
    (kind.oneShot = true → ∀ n, r.decided n ≤ if r.disarm.disarmed n then 0 else 1) := by
  refine ⟨fun n hn => ?_, fun n hn => ?_, fun hk n => ?_⟩
  · by_cases hc : n = r.current
    · exact hc ▸ hG.current
    · simp only [Record.disarm, update_of_ne hc] at hn
      exact hG.disarmed n hn
  · by_cases hc : n = r.current
    · simp only [Record.disarm, hc, update_self]
    · simp only [Record.disarm, update_of_ne hc]
      exact hn
  · by_cases hc : n = r.current
    · rw [hc, hG.decided_of_active ha hk]
      exact Nat.zero_le _
    · simp only [Record.disarm, update_of_ne hc]
      exact hG.once hk n

end

theorem Gen.stop (ha : s.active kind = true) {t : T} {c : Call}
    (hgen : s'.gen = s.gen + 1) (hstopped : s'.stopped = true) (hfired : s'.fired = s.fired)
    (hfiber : s'.fiber = s.fiber) (hcall : s'.call = update s.call t c)
    (hc : c.next = none) : Gen kind s' r.disarm := by
  obtain ⟨harmed, hmono, honce⟩ := hG.disarm ha
  have hnext : ∀ u n, (s'.call u).next = some n → (s.call u).next = some n := by
    intro u n hu
    rw [hcall] at hu
    by_cases hut : u = t
    · rw [hut, update_self, hc] at hu
      cases hu
    · rwa [update_of_ne hut] at hu
  exact {
    born := by
      rw [hfiber]
      exact hG.born
    next := by
      intro u n hu
      rw [hfiber]
      exact hG.next u n (hnext u n hu)
    unique := fun u v n hu hv => hG.unique u v n (hnext u n hu) (hnext v n hv)
    armed := fun n hn => by
      have := hG.armed n hn
      omega
    disarmed := harmed
    made := hG.made
    current := hG.current
    counter := fun h => by
      rw [hstopped] at h
      cases h
    stopped := by
      rw [hstopped]
      simp only [Record.disarm, update_self]
    fired := by
      rw [hfired]
      exact hG.fired
    past := fun n hn hne => (hG.past n hn hne).imp (hmono n) id
    once := honce
    sends := by
      rw [hfiber]
      exact hG.sends }

omit [DecidableEq T] in
theorem Gen.ended : (∀ n, (if s.active kind then r.disarm else r).disarmed n = true → r.armed n = true) ∧
    (∀ n, r.armed n = true → (if s.active kind then r.disarm else r).disarmed n = true ∨
      kind.oneShot = true ∧ r.decided n ≠ 0) ∧
    (kind.oneShot = true → ∀ n,
      r.decided n ≤ if (if s.active kind then r.disarm else r).disarmed n then 0 else 1) := by
  cases ha : s.active kind with
  | true =>
    obtain ⟨harmed, hmono, honce⟩ := hG.disarm ha
    refine ⟨harmed, fun n hn => ?_, honce⟩
    by_cases hc : n = r.current
    · left
      simp only [if_true, Record.disarm, hc, update_self]
    · exact (hG.past n hn hc).imp (hmono n) id
  | false =>
    refine ⟨hG.disarmed, fun n hn => ?_, hG.once⟩
    by_cases hc : n = r.current
    · subst hc
      have hover : s.stopped = true ∨ kind.oneShot = true ∧ s.fired = true := by
        rw [State.active, Bool.not_eq_false', Bool.or_eq_true, Bool.and_eq_true] at ha
        exact ha
      rcases hover with h | ⟨hk, h⟩
      · left
        exact hG.stopped ▸ h
      · exact .inr ⟨hk, (hG.fired hk).mp h⟩
    · exact hG.past n hn hc

theorem Gen.reset {t : T} {c : Call}
    (hgen : s'.gen = s.gen + 1) (hstopped : s'.stopped = false) (hfired : s'.fired = false)
    (hfiber : s'.fiber = s.fiber) (hcall : s'.call = update s.call t c)
    (hc : c.next = some (s.gen + 1)) :
    Gen kind s' ((if s.active kind then r.disarm else r).arm (s.gen + 1)) := by
  obtain ⟨harmed, hpast, honce⟩ := hG.ended
  -- The counter only grows, so the new generation has no entry in the record.
  have hfresh := hG.not_armed_succ
  have hkeep : (if s.active kind then r.disarm else r).armed = r.armed ∧
      (if s.active kind then r.disarm else r).decided = r.decided ∧
      (if s.active kind then r.disarm else r).sends = r.sends := by
    split <;> exact ⟨rfl, rfl, rfl⟩
  have harm : ∀ n, ((if s.active kind then r.disarm else r).arm (s.gen + 1)).armed n = true ↔
      n = s.gen + 1 ∨ r.armed n = true := by
    intro n
    simp only [Record.arm, hkeep.1]
    by_cases hn : n = s.gen + 1 <;> simp [hn]
  have hnew : ∀ u n, (s'.call u).next = some n → u = t ∧ n = s.gen + 1 ∨ u ≠ t ∧ (s.call u).next = some n := by
    intro u n hu
    rw [hcall] at hu
    by_cases hut : u = t
    · rw [hut, update_self, hc] at hu
      exact .inl ⟨hut, (Option.some.inj hu).symm⟩
    · rw [update_of_ne hut] at hu
      exact .inr ⟨hut, hu⟩
  have hother : ∀ u, (s.call u).next ≠ some (s.gen + 1) := by
    intro u hu
    rw [(hG.next u _ hu).1] at hfresh
    cases hfresh
  exact {
    born := fun n hn => (harm n).mpr (.inr (hG.born n (hfiber ▸ hn)))
    next := by
      intro u n hu
      rw [hfiber]
      rcases hnew u n hu with ⟨-, rfl⟩ | ⟨-, hu⟩
      · refine ⟨(harm _).mpr (.inl rfl), ?_⟩
        by_contra hne
        rw [hG.born _ hne] at hfresh
        cases hfresh
      · exact ⟨(harm n).mpr (.inr (hG.next u n hu).1), (hG.next u n hu).2⟩
    unique := by
      intro u v n hu hv
      rcases hnew u n hu with ⟨rfl, rfl⟩ | ⟨-, hu⟩
      · rcases hnew v _ hv with ⟨rfl, -⟩ | ⟨-, hv⟩
        · rfl
        · exact absurd hv (hother v)
      · rcases hnew v n hv with ⟨-, rfl⟩ | ⟨-, hv⟩
        · exact absurd hu (hother u)
        · exact hG.unique u v n hu hv
    armed := by
      intro n hn
      rcases (harm n).mp hn with rfl | hn
      · omega
      · have := hG.armed n hn
        omega
    disarmed := fun n hn => (harm n).mpr (.inr (harmed n hn))
    made := fun n hn => by
      simp only [Record.arm, hkeep.2.1] at hn
      exact (harm n).mpr (.inr (hG.made n hn))
    current := (harm _).mpr (.inl rfl)
    counter := fun _ => hgen
    stopped := by
      rw [hstopped]
      symm
      rw [Bool.eq_false_iff]
      intro htrue
      have harmed' : r.armed (s.gen + 1) = true := harmed _ htrue
      rw [hfresh] at harmed'
      cases harmed'
    fired := fun _ => by
      rw [hfired]
      refine iff_of_false Bool.false_ne_true fun hne => ?_
      simp only [Record.arm, hkeep.2.1] at hne
      rw [hG.made _ hne] at hfresh
      cases hfresh
    past := fun n hn hne => by
      simp only [Record.arm, hkeep.2.1]
      exact hpast n (((harm n).mp hn).resolve_left hne)
    once := by
      simp only [Record.arm, hkeep.2.1]
      exact honce
    sends := by
      simp only [Record.arm, hkeep.2.1, hkeep.2.2, hfiber]
      exact hG.sends }

theorem Gen.setCall {t : T} {c : Call}
    (hc : ∀ n, c.next = some n → (s.call t).next = some n) : Gen kind (s.setCall t c) r := by
  have hnext : ∀ u n, ((s.setCall t c).call u).next = some n → (s.call u).next = some n := by
    intro u n hu
    simp only [State.setCall] at hu
    by_cases hut : u = t
    · subst hut
      rw [update_self] at hu
      exact hc n hu
    · rwa [update_of_ne hut] at hu
  exact { hG with
    next := fun u n hu => hG.next u n (hnext u n hu)
    unique := fun u v n hu hv => hG.unique u v n (hnext u n hu) (hnext v n hv) }

theorem Gen.spawn {t : T} {instant : Nat → Bool} (ht : s.call t = .spawning n) :
    Gen kind ({ s with fiber := update s.fiber n .start, instant := instant }.setCall t .idle) r := by
  have hn : (s.call t).next = some n := by
    rw [ht]
    rfl
  have hcall : ∀ u m, (update s.call t .idle u).next = some m → u ≠ t ∧ (s.call u).next = some m := by
    intro u m hu
    by_cases hut : u = t
    · rw [hut, update_self] at hu
      cases hu
    · rw [update_of_ne hut] at hu
      exact ⟨hut, hu⟩
  exact { hG with
    born := fun m hm => by
      by_cases hmn : m = n
      · exact hmn ▸ (hG.next t n hn).1
      · simp only [State.setCall, update_of_ne hmn] at hm
        exact hG.born m hm
    next := fun u m hu => by
      obtain ⟨hut, hu⟩ := hcall u m hu
      have hmn : m ≠ n := fun h => hut (hG.unique u t n (h ▸ hu) hn)
      simp only [State.setCall, update_of_ne hmn]
      exact hG.next u m hu
    unique := fun u v m hu hv => hG.unique u v m (hcall u m hu).2 (hcall v m hv).2
    sends := fun m => by
      by_cases hmn : m = n
      · subst hmn
        have := hG.sends m
        rw [(hG.next t m hn).2] at this
        simpa [State.setCall] using this
      · simp only [State.setCall, update_of_ne hmn]
        exact hG.sends m }

section

omit [DecidableEq T]

theorem Gen.current_of_live (h : s.live n = true) : s.stopped = false ∧ n = r.current := by
  simp only [State.live, Bool.and_eq_true, Bool.not_eq_true', beq_iff_eq] at h
  exact ⟨h.1, h.2.symm.trans (hG.counter h.1)⟩

theorem Gen.live_of_decides
    (h : (s.live n && !(kind.oneShot && s.fired)) = true) : n = r.current ∧ r.Live kind n := by
  obtain ⟨hlive, hfired⟩ := Bool.and_eq_true_iff.mp h
  obtain ⟨hstopped, rfl⟩ := hG.current_of_live hlive
  refine ⟨rfl, hG.current, ?_, fun hk => ?_⟩
  · rw [← hG.stopped]
    exact hstopped
  · by_contra hne
    rw [hk, (hG.fired hk).mpr hne] at hfired
    cases hfired

theorem Gen.recheck (hn : s.fiber n = .woken) : Gen kind (s.recheck kind n) (match (s.recheck kind n).fiber n with
      | .sending => { r with decided := update r.decided n (r.decided n + 1) }
      | _ => r) := by
  have hborn : s.fiber n ≠ .unborn := by
    rw [hn]
    decide
  have hold : s.fiber n ≠ .sending := by
    rw [hn]
    decide
  unfold State.recheck
  split
  next h =>
    obtain ⟨rfl, harmed, hdis, hzero⟩ := hG.live_of_decides h
    have hstopped := (hG.current_of_live (Bool.and_eq_true_iff.mp h).1).1
    simp only [State.setFiber, update_self]
    exact { hG with
      born := fun m hm => by
        by_cases hmn : m = r.current
        · exact hmn ▸ harmed
        · simp only [update_of_ne hmn] at hm
          exact hG.born m hm
      next := fun t m hm => by
        obtain ⟨ha, hu⟩ := hG.next t m hm
        have hmn : m ≠ r.current := fun h => hborn (h ▸ hu)
        simp only [update_of_ne hmn]
        exact ⟨ha, hu⟩
      made := fun m hm => by
        by_cases hmn : m = r.current
        · exact hmn ▸ harmed
        · simp only [update_of_ne hmn] at hm
          exact hG.made m hm
      fired := fun hk => by
        simp only [update_self, hk, Bool.or_true]
        exact iff_of_true trivial (Nat.succ_ne_zero _)
      past := fun m hm hne => by
        simp only [update_of_ne hne]
        exact hG.past m hm hne
      once := fun hk m => by
        by_cases hmn : m = r.current
        · simp only [hmn, update_self, hdis, hzero hk]
          exact Nat.le_refl 1
        · simp only [update_of_ne hmn]
          exact hG.once hk m
      sends := fun m => by
        by_cases hmn : m = r.current
        · subst hmn
          have := hG.sends r.current
          rw [if_neg hold] at this
          simp only [update_self, if_true]
          omega
        · simp only [update_of_ne hmn]
          exact hG.sends m }
  next =>
    simp only [State.setFiber, update_self]
    exact hG.move rfl rfl rfl rfl rfl hborn hold (by decide)

theorem Gen.send {pc : Pc} (hn : s.fiber n = .sending) (hpc : pc ≠ .sending) :
    Gen kind ({ s with sent := s.sent + 1 }.setFiber n pc)
      { r with sends := update r.sends n (r.sends n + 1) } := by
  have hborn : s.fiber n ≠ .unborn := by
    rw [hn]
    decide
  exact { hG with
    born := fun m hm => by
      by_cases hmn : m = n
      · exact hmn ▸ hG.born n hborn
      · simp only [State.setFiber, update_of_ne hmn] at hm
        exact hG.born m hm
    next := fun t m hm => by
      obtain ⟨ha, hu⟩ := hG.next t m hm
      have hmn : m ≠ n := fun h => hborn (h ▸ hu)
      simp only [State.setFiber, update_of_ne hmn]
      exact ⟨ha, hu⟩
    sends := fun m => by
      by_cases hmn : m = n
      · subst hmn
        have := hG.sends m
        rw [if_pos hn] at this
        simp only [State.setFiber, update_self, if_neg hpc]
        omega
      · simp only [State.setFiber, update_of_ne hmn]
        exact hG.sends m }

end

theorem Gen.step {a : Action T} (h : step kind s a = some s') : Gen kind s' (r.next kind s s' a) := by
  have hpc : ∀ {n pc}, s.fiber n = pc → pc ≠ .unborn → pc ≠ .sending →
      s.fiber n ≠ .unborn ∧ s.fiber n ≠ .sending :=
    fun h h₁ h₂ => ⟨h.symm ▸ h₁, h.symm ▸ h₂⟩
  unfold Timer.step at h
  split at h
  next t =>
    split at h <;> cases h
    next ht =>
      simp only [Record.next, State.stop]
      cases ha : s.active kind with
      | false =>
        have hcond : (s.stopped || kind.oneShot && s.fired) = true := by
          rwa [State.active, Bool.not_eq_false'] at ha
        rw [if_pos hcond]
        exact hG
      | true =>
        have hcond : ¬(s.stopped || kind.oneShot && s.fired) = true := by
          rwa [State.active, Bool.not_eq_true', ← Bool.not_eq_true] at ha
        rw [if_neg hcond, if_pos rfl]
        split
        next =>
          refine hG.stop ha (t := t) (c := .idle) rfl rfl rfl rfl ?_ rfl
          rw [← ht]
          exact (update_eq_self t s.call).symm
        next g _ => exact hG.stop ha rfl rfl rfl rfl rfl rfl
  next t =>
    split at h <;> cases h
    simp only [Record.next, State.reset]
    split <;> exact hG.reset rfl rfl rfl rfl rfl rfl
  next t =>
    have hcancel : ∀ g, Gen kind (s.cancelWaitFd g) r ∧ (s.cancelWaitFd g).call = s.call := by
      intro g
      unfold State.cancelWaitFd
      split
      next hg =>
        obtain ⟨hborn, hold⟩ := hpc hg (by decide) (by decide)
        exact ⟨hG.move rfl rfl rfl rfl rfl hborn hold (by decide), rfl⟩
      next => exact ⟨hG, rfl⟩
    split at h <;> cases h
    next g ht => exact (hcancel g).1.setCall fun n hn => by cases hn
    next g gen ht =>
      refine (hcancel g).1.setCall fun n hn => ?_
      rw [(hcancel g).2, ht]
      exact hn
  next t instant =>
    split at h <;> cases h
    next gen ht => exact hG.spawn ht
  next n =>
    split at h <;> cases h
    next hn =>
      obtain ⟨hborn, hold⟩ := hpc hn (by decide) (by decide)
      simp only [Record.next, State.publish]
      split
      · refine hG.move rfl rfl rfl rfl rfl hborn hold ?_
        split <;> decide
      · exact hG.move rfl rfl rfl rfl rfl hborn hold (by decide)
  next n =>
    split at h <;> cases h
    next hn =>
      obtain ⟨hborn, hold⟩ := hpc hn (by decide) (by decide)
      exact hG.move rfl rfl rfl rfl rfl hborn hold (by decide)
  next n =>
    split at h <;> cases h
    next hn =>
      obtain ⟨hborn, hold⟩ := hpc hn (by decide) (by decide)
      exact hG.move rfl rfl rfl rfl rfl hborn hold (by decide)
  next n =>
    split at h <;> cases h
    next hn => exact hG.recheck hn
  next n =>
    split at h <;> cases h
    next hn =>
      refine hG.send hn ?_
      cases kind <;> decide

end

theorem gen_of_reachable {p : State T × Record} (h : (recorded kind).Reachable p) : Gen kind p.1 p.2 := by
  refine h.invariant (P := fun p => Gen kind p.1 p.2) (fun p hp => ?_) fun p a q hG _ ha => ?_
  · rw [hp.2]
    exact .init hp.1
  · obtain ⟨hs, hr⟩ := System.withHistory_step ha
    rw [hr]
    exact hG.step hs

/-! ## The generations -/

/-- At most one arming is live; a timer's sends one value at most, and none if a call that returned `True` ended it.
-/
theorem generations {p : State T × Record} (h : (recorded kind).Reachable p) :
    (∀ m n, p.2.Live kind m → p.2.Live kind n → m = n) ∧
    (∀ n, p.1.fiber n = .woken → (p.1.recheck kind n).fiber n = .sending → p.2.Live kind n) ∧
    (∀ n, p.2.sends n ≤ p.2.decided n) ∧
    (kind = .timer → (∀ n, p.2.sends n ≤ 1) ∧ (∀ n, p.2.disarmed n = true → p.2.sends n = 0) ∧
      (p.1.stopReturns = true ↔ p.2.decided p.2.current = 0 ∧ p.2.disarmed p.2.current = false) ∧
      (p.1.resetReturns = true ↔ p.2.decided p.2.current = 0 ∧ p.2.disarmed p.2.current = false)) := by
  obtain ⟨s, r⟩ := p
  have hG : Gen kind s r := gen_of_reachable h
  have hsends : ∀ n, r.sends n ≤ r.decided n := fun n => by
    have := hG.sends n
    omega
  have hcurrent : ∀ n, r.Live kind n → n = r.current := by
    rintro n ⟨harmed, hdis, hzero⟩
    by_contra hne
    rcases hG.past n harmed hne with h | ⟨hk, h⟩
    · rw [hdis] at h
      cases h
    · exact h (hzero hk)
  refine ⟨fun m n hm hn => (hcurrent m hm).trans (hcurrent n hn).symm, fun n _ hn => ?_, hsends, ?_⟩
  · simp only [State.recheck] at hn
    split at hn
    next hd => exact (hG.live_of_decides hd).2
    next =>
      simp only [State.setFiber, update_self] at hn
      cases hn
  · rintro rfl
    have honce := hG.once rfl
    have hflags : s.stopped = false ∧ s.fired = false ↔
        r.decided r.current = 0 ∧ r.disarmed r.current = false := by
      have hfired := hG.fired rfl
      rw [hG.stopped, and_comm, ← Bool.not_eq_true s.fired, hfired, not_not]
    refine ⟨fun n => ?_, fun n hn => ?_, ?_, ?_⟩
    · refine Nat.le_trans (hsends n) (Nat.le_trans (honce n) ?_)
      split <;> omega
    · have hzero := honce n
      have := hsends n
      rw [hn] at hzero
      exact Nat.le_zero.mp (Nat.le_trans this hzero)
    · rw [← hflags, State.stopReturns, Bool.not_eq_true', Bool.or_eq_false_iff]
    · rw [← hflags, State.resetReturns, Bool.and_eq_true, Bool.not_eq_true', Bool.not_eq_true']

/-- A timer after `__init__`. -/
def newTimer : State Unit :=
  ⟨0, false, false, none, fun n => if n = 0 then .start else .unborn, fun _ => false, fun _ => .idle, 0⟩

theorem newTimer_init : Init newTimer :=
  ⟨rfl, rfl, rfl, rfl, rfl, fun _ hn => if_neg hn, fun _ => rfl⟩

/-- The first arming fires; `Reset` makes another, and `Stop` ends it. -/
theorem generations_reset :
    ∃ p : State Unit × Record, (recorded .timer).Reachable p ∧ p.2.sends 0 = 1 ∧ p.2.current = 1 ∧
      p.2.disarmed 1 = true ∧ p.2.sends 1 = 0 ∧ p.1.stopReturns = false := by
  obtain ⟨p, hr, hsent, hcur, hdis⟩ := (recorded (T := Unit) .timer).reaches
    (fun p => p.2.sends 0 = 1 ∧ p.2.current = 1 ∧ p.2.disarmed 1 = true)
    [.publish 0, .link 0, .wake 0, .recheck 0, .send 0, .reset (), .spawn () false, .publish 1,
      .stop (), .cancelWait ()]
    (s := (newTimer, .first)) ⟨newTimer_init, rfl⟩ (by decide +kernel)
  obtain ⟨-, -, -, htimer⟩ := generations hr
  obtain ⟨-, hnone, hstop, -⟩ := htimer rfl
  refine ⟨p, hr, hsent, hcur, hdis, hnone 1 hdis, ?_⟩
  rw [Bool.eq_false_iff, Ne, hstop, hcur, hdis]
  exact fun h => Bool.false_ne_true h.2.symm

end Runloom.Timer
