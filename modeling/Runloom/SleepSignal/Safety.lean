import Runloom.SleepSignal.Steps

/-!
# The signal is delivered once

Over every run in which a fiber that comes from the global run queue goes on where it went to sleep: a sleeper is
enqueued once, what the main thread reports is what happens, and a sleep that has returned has left nothing on a heap.
-/

namespace Runloom.SleepSignal

open Transition List
open WakeState (Ws)

variable {F H E : Type*} [DecidableEq F] [DecidableEq H] [DecidableEq E]
  {s t : State F H E} {holder : H → Option F} {migrate : Bool} {g : F} {h : H}

/-- A fiber from the global run queue is resumed by the hub in whose heap it sleeps. -/
def Home (s : State F H E) (a : Act F H E) : Prop :=
  ∀ h g k io, a = .pull h → s.runq.head? = some g → s.pc g = .parked k io → k = h

theorem Inv.of_init (hi : Init s) : Inv migrate s fun _ => none := by
  have hgives : ∀ e g, ¬s.Gives e g := by
    simp [State.Gives, hi.returned, hi.main, Main.gives]
  refine .of_unlocked (fun g => ?_) ?_ (by rw [hi.main]; rfl)
  · refine ⟨?_, ?_, fun hw => ?_⟩
    · rw [show (s.look g).pc = .off from hi.pc g]
      refine ⟨⟨fun h => ?_, fun h => ?_, ?_, ?_, fun h => .inl ?_⟩, fun h => ?_⟩ <;>
        simp [State.look, hi.heap, hi.ready, hi.runq, hi.main, hi.seat, Main.waking]
    · simp [State.look, hi.waiters, hi.pc, Pc.waits]
    · rw [show (s.look g).pc = .off from hi.pc g] at hw
      cases hw
  · refine ⟨fun h => by simp [hi.exc], fun hh => ?_, fun {h g} ho => ?_, fun _ hh => ?_,
      fun hg => absurd hg (hgives _ _), fun _ => ⟨hi.raised _, by simp [hi.exc]⟩, fun he => ?_, fun hp => ?_,
      fun hm => ?_, fun hm => ?_⟩
    · cases hh
    · rw [hi.pc] at ho
      cases ho
    · cases hh
    · rw [hi.exc] at he
      cases he
    · rw [hi.pc] at hp
      cases hp
    · rw [hi.main] at hm
      cases hm
    · rw [hi.main] at hm
      cases hm

section

variable (hv : Inv migrate s holder)
include hv

theorem Inv.run {room : Bool} (hs : s.seat h = .running g)
    (ht : s.run migrate h g room = some t) : ∃ holder', Inv migrate t holder' := by
  unfold State.run at ht
  split at ht
  next k io hpc =>
    cases ht
    exact ⟨_, hv.reset hpc⟩
  next k io hpc =>
    split at ht <;> cases ht
    · exact ⟨_, hv.push hpc⟩
    · exact ⟨_, hv.push_failed hpc⟩
  next k hpc =>
    split at ht <;> cases ht
    next hl => exact ⟨_, hv.link (by simpa using hl) hpc⟩
  next k io hpc =>
    cases ht
    exact ⟨_, hv.yield hs hpc⟩
  next k io hpc =>
    split at ht
    next hio =>
      subst hio
      split at ht <;> cases ht
      next hl => exact ⟨_, hv.resumed (by simpa using hl) hpc⟩
    next hio =>
      rw [Bool.not_eq_true] at hio
      subst hio
      cases ht
      exact ⟨_, hv.resumed_plain hpc⟩
  next k hpc =>
    cases ht
    cases hsig : s.signaled g with
    | true => exact ⟨_, hv.test_signaled hpc hsig⟩
    | false => exact ⟨_, hv.test_unmarked hpc hsig⟩
  next k hpc =>
    cases ht
    exact ⟨_, hv.remove hpc⟩
  next k hpc =>
    cases ht
    exact ⟨_, hv.load hpc⟩
  next k x hpc =>
    cases ht
    exact hv.store hpc
  all_goals cases ht

theorem Inv.mainStep (ht : s.mainStep migrate = some t) : ∃ holder', Inv migrate t holder' := by
  unfold State.mainStep at ht
  split at ht
  next => cases ht
  next e hm =>
    cases ht
    exact ⟨_, hv.walk_done hm⟩
  next e g rest hm =>
    split at ht
    next =>
      cases ht
      exact ⟨_, hv.walk_skip hm⟩
    next k hn =>
      split at ht <;> cases ht
      next => exact ⟨_, hv.walk_skip hm⟩
      next hc =>
        rw [not_or, Bool.not_eq_true, Option.not_isSome_iff_eq_none] at hc
        exact hv.walk_reserve hm hn hc.1 hc.2
  next e g k hm =>
    cases ht
    exact ⟨_, hv.mark hm⟩
  next e g k hm =>
    cases ht
    exact ⟨_, hv.mainClaim hm⟩
  next e g k c hm =>
    cases ht
    cases c with
    | true => exact ⟨_, hv.wake_won hm⟩
    | false => exact ⟨_, hv.wake_lost hm⟩

theorem Inv.step {a : Act F H E} (hC : Home s a) (ht : step migrate s a = some t) :
    ∃ holder', Inv migrate t holder' := by
  cases a with
  | tick n =>
    cases ht
    exact ⟨_, hv.tick n⟩
  | take h g =>
    simp only [SleepSignal.step, Option.ite_none_right_eq_some, Option.some.injEq] at ht
    obtain ⟨⟨hs, hpc⟩, rfl⟩ := ht
    exact ⟨_, hv.take hs hpc⟩
  | leave h =>
    simp only [SleepSignal.step] at ht
    split at ht
    next g hs =>
      simp only [Option.ite_none_right_eq_some, Option.some.injEq] at ht
      obtain ⟨hpc, rfl⟩ := ht
      exact ⟨_, hv.leave hs hpc⟩
    next => cases ht
  | sleep h w io =>
    simp only [SleepSignal.step] at ht
    split at ht
    next g hs =>
      simp only [Option.ite_none_right_eq_some, Option.some.injEq] at ht
      obtain ⟨hpc, rfl⟩ := ht
      exact ⟨_, hv.sleep hs hpc w io⟩
    next => cases ht
  | run h room =>
    simp only [SleepSignal.step] at ht
    split at ht
    next g hs => exact hv.run hs ht
    next => cases ht
  | pop h g =>
    simp only [SleepSignal.step, Option.ite_none_right_eq_some, Option.some.injEq] at ht
    obtain ⟨⟨hs, hg, -⟩, rfl⟩ := ht
    exact ⟨_, hv.pop hs hg⟩
  | claim h =>
    simp only [SleepSignal.step] at ht
    split at ht
    next g hs =>
      split at ht <;> cases ht
      next hc => exact ⟨_, hv.claim_lost hs hc⟩
      next hc => exact ⟨_, hv.claim_won hs (by simpa using hc)⟩
    next => cases ht
  | push h =>
    simp only [SleepSignal.step] at ht
    split at ht <;> cases ht
    next g hs => exact ⟨_, hv.timerPush hs⟩
  | resume h =>
    simp only [SleepSignal.step] at ht
    split at ht
    next g rest hs hr => exact ⟨_, hv.resume hs hr ht⟩
    next => cases ht
  | pull h =>
    simp only [SleepSignal.step] at ht
    split at ht
    next g rest hs hr => exact ⟨_, hv.pull hs hr (fun k io hpc => hC h g k io rfl (by rw [hr]; rfl) hpc) ht⟩
    next => cases ht
  | signal e =>
    simp only [SleepSignal.step, Option.ite_none_right_eq_some, Option.some.injEq] at ht
    obtain ⟨⟨hm, he⟩, rfl⟩ := ht
    exact ⟨_, hv.signal hm he⟩
  | main => exact hv.mainStep ht

end

theorem exists_inv (hr : (system F H E migrate).ReachableWith Home s) : ∃ holder, Inv migrate s holder := by
  refine hr.invariant (P := fun s => ∃ holder, Inv migrate s holder) (fun s hi => ⟨_, .of_init hi⟩) ?_
  rintro s a t ⟨holder, hv⟩ hC ht
  exact hv.step hC ht

theorem Inv.runq_nil (hv : Inv false s holder) : s.runq = [] := by
  rw [eq_nil_iff_forall_not_mem]
  intro g hg
  have hpos : 0 < (s.look g).runq := count_pos_iff.mpr hg
  obtain ⟨k, io, hpc⟩ := (hv.fiber g).parked_of_runq hpos
  have hp := (hv.fiber g).place
  rw [hpc] at hp
  exact absurd (hp.1.runq rfl) hpos.ne'

theorem reachableWith_home (hr : (system F H E false).Reachable s) : (system F H E false).ReachableWith Home s := by
  induction hr with
  | init hi => exact .init hi
  | step _ _ ha ih =>
    refine .step ih ?_ ha
    obtain ⟨holder, hv⟩ := exists_inv ih
    intro h g k io _ hg
    rw [hv.runq_nil] at hg
    cases hg

/-! ### What the sleepers and the main thread can rely on -/

def Pc.awake : Pc H E → Bool
  | .resumed .. | .test _ | .remove _ | .load _ | .store .. => true
  | _ => false

def Pc.inSleep : Pc H E → Bool
  | .off | .on => false
  | _ => true

structure DeliveredOnce (s : State F H E) : Prop where
  atMostOnce (g : F) (hp : (s.pc g).inSleep = true) : s.enqueued g ≤ 1
  once (g : F) (hp : (s.pc g).awake = true) : s.enqueued g = 1
  notLost (g : F) (k : H) (io : Bool) (hp : s.pc g = .parked k io) :
    s.enqueued g = 1 ∧ (g ∈ s.ready k ∨ g ∈ s.runq) ∨
    s.enqueued g = 0 ∧ (s.claimed g = false ∧ (g ∈ s.heap k ∨ s.seat k = .popped g) ∨ s.seat k = .won g ∨
      ∃ e, s.main = .wake e g k true)
  /-- The fiber is on its way to the exception, or has raised it. -/
  success (e : E) (g : F) (hr : s.returned e = some (some g)) :
    s.raised e = [] ∧ s.signaled g = true ∧ (∃ k, (s.pc g).owes = some k ∧ s.exc k = some e) ∨
    s.raised e = [g] ∧ ∀ h, s.exc h ≠ some e
  failure (e : E) (hr : s.returned e = some none) : s.raised e = [] ∧ ∀ h, s.exc h ≠ some e
  gone (g : F) (hp : (s.pc g).inSleep = false) (h : H) : g ∉ s.heap h

omit [DecidableEq H] [DecidableEq E] in
theorem Look.Asleep.enqueued_le {L : Look H E} {k : H} {io : Bool} (ha : L.Asleep migrate k io) : L.enqueued ≤ 1 := by
  have htoken := ha.token
  have hle := Bool.toNat_le L.claimed
  have henq := ha.enqueued
  omega

omit [DecidableEq E] in
theorem Look.Ok.claimer {L : Look H E} {k : H} {io : Bool} (hok : L.Ok migrate) (hpc : L.pc = .parked k io)
    (hc : L.claimed = true) (hq : L.enqueued = 0) : L.seat k = .won ∨ L.waking = some k := by
  obtain ⟨hp, -, -⟩ := hok
  rw [hpc] at hp
  obtain ⟨ha, hws, -⟩ := hp
  have htoken := ha.token
  have henq := ha.enqueued
  have hrem : remembered migrate L.ws = 0 := by
    unfold remembered
    split
    next hm => exact absurd (hws hm.1) (by simp [hm.2])
    next => rfl
  cases hw : L.waking with
  | some k' =>
    rw [ha.waking hw]
    exact .inr rfl
  | none =>
    left
    rw [hw, hc] at htoken
    simp only [Option.isSome_none, Bool.toNat_false, Bool.toNat_true] at htoken
    have howes : (L.seat k).owes = 1 := by omega
    cases hs : L.seat k <;> rw [hs] at howes <;> first | rfl | cases howes

section

omit [DecidableEq H] [DecidableEq E]

theorem seat_of_sight_won (hs : (s.look g).seat h = .won) : s.seat h = .won g := by
  change (s.seat h).sight g = .won at hs
  unfold Seat.sight at hs
  grind

theorem seat_of_sight_popped (hs : (s.look g).seat h = .popped) : s.seat h = .popped g := by
  change (s.seat h).sight g = .popped at hs
  unfold Seat.sight at hs
  grind

theorem main_of_waking (hw : (s.look g).waking = some h) : ∃ e, s.main = .wake e g h true := by
  change s.main.waking g = some h at hw
  unfold Main.waking at hw
  split at hw
  next e g' k hm =>
    simp only [Option.ite_none_right_eq_some, Option.some.injEq] at hw
    obtain ⟨rfl, rfl⟩ := hw
    exact ⟨e, hm⟩
  next => cases hw

end

namespace Inv

theorem parked_notLost (hv : Inv migrate s holder) {k : H} {io : Bool} (hp : s.pc g = .parked k io) :
    s.enqueued g = 1 ∧ (g ∈ s.ready k ∨ g ∈ s.runq) ∨
    s.enqueued g = 0 ∧ (s.claimed g = false ∧ (g ∈ s.heap k ∨ s.seat k = .popped g) ∨ s.seat k = .won g ∨
      ∃ e, s.main = .wake e g k true) := by
  have hok := hv.fiber g
  have hpl := hok.place
  rw [show (s.look g).pc = .parked k io from hp] at hpl
  obtain ⟨ha, -, -⟩ := hpl
  have henq : s.enqueued g = (s.ready k).count g + s.runq.count g := ha.enqueued
  have hle : s.enqueued g ≤ 1 := ha.enqueued_le
  by_cases hq : s.enqueued g = 0
  · right
    refine ⟨hq, ?_⟩
    cases hc : s.claimed g with
    | true =>
      right
      rcases hok.claimer hp hc hq with hw | hw
      · exact .inl (seat_of_sight_won hw)
      · exact .inr (main_of_waking hw)
    | false =>
      left
      refine ⟨rfl, ?_⟩
      have hone : (s.heap k).count g + ((s.look g).seat k).entry = 1 := ha.unclaimed hc
      by_cases hg : g ∈ s.heap k
      · exact .inl hg
      · right
        rw [count_eq_zero_of_not_mem hg] at hone
        apply seat_of_sight_popped
        cases hs : (s.look g).seat k <;> rw [hs] at hone <;> first | rfl | cases hone
  · left
    refine ⟨by omega, ?_⟩
    by_cases hr : g ∈ s.ready k
    · exact .inl hr
    · right
      rw [count_eq_zero_of_not_mem hr] at henq
      exact count_pos_iff.mp (by omega)

theorem deliveredOnce (hv : Inv migrate s holder) : DeliveredOnce s where
  atMostOnce g hp := by
    have hpl := (hv.fiber g).place
    change (s.look g).pc.inSleep = true at hp
    show (s.look g).enqueued ≤ 1
    cases hpc : (s.look g).pc <;> rw [hpc] at hpl hp
    case off | on => cases hp
    case reset | push =>
      have henq := hpl.2.2.2
      grind
    case link | yield | parked => exact hpl.1.enqueued_le
    case test => exact hpl.enqueued.le
    all_goals exact hpl.1.enqueued.le
  once g hp := by
    have hpl := (hv.fiber g).place
    change (s.look g).pc.awake = true at hp
    show (s.look g).enqueued = 1
    cases hpc : (s.look g).pc <;> rw [hpc] at hpl hp
    case test => exact hpl.enqueued
    case resumed | remove | load | store => exact hpl.1.enqueued
    all_goals cases hp
  notLost g k io hp := hv.parked_notLost hp
  success e g hr := by
    rcases hv.delivery.given (.inl hr) with ⟨hn, k, he, hh⟩ | hx
    · left
      obtain ⟨ho, hs⟩ := hv.delivery.held hh
      refine ⟨hn, hs.resolve_right ?_, k, ho, he⟩
      -- The main thread would be at the mark for this very exception, whose call is over.
      rintro ⟨e', hm⟩
      obtain ⟨he', -, -⟩ := hv.delivery.marking hm
      obtain rfl := Option.some.inj (he.symm.trans he')
      exact absurd ((hv.delivery.busy (by rw [hm]; rfl)).symm.trans hr) fun h => by cases h
    · exact .inr hx
  failure e hr := by
    apply hv.delivery.free
    rintro g (h | h)
    · exact absurd (hr.symm.trans h) (by simp)
    · -- A call that is over does not choose.
      have hb : s.main.busy = some e := by
        cases hm : s.main <;> rw [hm] at h <;> simp [Main.gives] at h <;> simp [Main.busy, h.1]
      exact absurd ((hv.delivery.busy hb).symm.trans hr) fun h => by cases h
  gone g hp h := by
    have hpl := (hv.fiber g).place
    change (s.look g).pc.inSleep = false at hp
    rw [← count_eq_zero]
    cases hpc : (s.look g).pc <;> rw [hpc] at hpl hp
    case off | on => exact hpl.1.heap h
    all_goals cases hp

end Inv

/-- Every sleeper is enqueued once and every signal delivered as reported, if the global run queue brings no sleeper
to another hub; without `migrate` always. -/
theorem signal_delivered_once (migrate : Bool) :
    (∀ s : State F H E, (system F H E migrate).ReachableWith Home s → DeliveredOnce s) ∧
    (migrate = false → ∀ s : State F H E, (system F H E migrate).Reachable s → DeliveredOnce s) := by
  have hhome : ∀ s : State F H E, (system F H E migrate).ReachableWith Home s → DeliveredOnce s := by
    intro s hr
    obtain ⟨holder, hv⟩ := exists_inv hr
    exact hv.deliveredOnce
  refine ⟨hhome, ?_⟩
  rintro rfl s hr
  exact hhome s (reachableWith_home hr)

def fresh : State ℕ ℕ ℕ where
  pc := fun _ => .off
  wakeAt := fun _ => 0
  claimed := fun _ => false
  ws := fun _ => .parked
  node := fun _ => none
  signaled := fun _ => false
  heap := fun _ => []
  ready := fun _ => []
  exc := fun _ => none
  seat := fun _ => .loop
  waiters := []
  runq := []
  main := .idle
  now := 0
  enqueued := fun _ => 0
  raised := fun _ => []
  returned := fun _ => none

theorem fresh_init : Init fresh :=
  ⟨fun _ => rfl, fun _ => rfl, fun _ => rfl, fun _ => rfl, fun _ => rfl, rfl, rfl, rfl, fun _ => rfl, fun _ => rfl⟩

/-- The fiber on hub `h` sleeps until `w` in a cooperative blocking call. -/
def toSleep (h w : ℕ) : List (Act ℕ ℕ ℕ) :=
  .sleep h w true :: List.replicate 4 (.run h true)

/-- Fiber 7 is signalled while its timer has its entry. -/
def signalled : List (Act ℕ ℕ ℕ) :=
  Act.take 0 7 :: toSleep 0 0 ++ [Act.signal 5, .main, .main, .main, .pop 0 7, .main, .claim 0, .resume 0] ++
    List.replicate 5 (Act.run 0 true)

theorem signal_delivered_once_signalled :
    ∃ s, (system ℕ ℕ ℕ false).Reachable s ∧ s.returned 5 = some (some 7) ∧ s.raised 5 = [7] ∧ s.enqueued 7 = 1 ∧
      DeliveredOnce s := by
  obtain ⟨s, hs, hret, hraised, henq⟩ := (system ℕ ℕ ℕ false).reaches
    (fun s => s.returned 5 = some (some 7) ∧ s.raised 5 = [7] ∧ s.enqueued 7 = 1) signalled fresh_init
    (by decide +kernel)
  exact ⟨s, hs, hret, hraised, henq, (signal_delivered_once false).2 rfl s hs⟩

/-- Hub 1 takes the fiber from the run queue; the timer of hub 0 comes when it sleeps again. -/
def carriedOff : List (Act ℕ ℕ ℕ) :=
  Act.take 0 7 :: toSleep 0 0 ++ [Act.signal 5, .main, .main, .main, .pop 0 7, .main, .pull 1] ++
    List.replicate 5 (Act.run 1 true) ++ toSleep 1 100 ++ [Act.claim 0, .push 0, .resume 0, .run 0 true, .run 0 true]

/-- The second sleep has returned at once, its entry still on the heap. -/
theorem sleep_returns_with_entry :
    ∃ s, (system ℕ ℕ ℕ true).Reachable s ∧ s.raised 5 = [7] ∧ s.pc 7 = .on ∧ s.now < s.wakeAt 7 ∧
      s.signaled 7 = false ∧ s.heap 1 = [7] := by
  exact (system ℕ ℕ ℕ true).reaches
    (fun s => s.raised 5 = [7] ∧ s.pc 7 = .on ∧ s.now < s.wakeAt 7 ∧ s.signaled 7 = false ∧
      s.heap 1 = [7]) carriedOff fresh_init (by decide +kernel)

end Runloom.SleepSignal
