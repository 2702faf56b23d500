import Runloom.SleepSignal.Model

/-!
# What holds of each fiber

Whether a sleep is in order depends, for each fiber, on a small part of the state: where the fiber is, what is set in
its fields, and how often it is on the queues.  `Look` is that part; a step of one fiber leaves the look of the others
as it is.
-/

namespace Runloom.SleepSignal

open Transition
open WakeState (Ws)

variable {F H E : Type*} [DecidableEq F] [DecidableEq H]

/-- A hub thread as a fiber sees it. -/
inductive Sight where
  | elsewhere
  | popped
  | won
  | running

def Sight.entry : Sight → ℕ
  | .popped => 1
  | _ => 0

def Sight.owes : Sight → ℕ
  | .won => 1
  | _ => 0

def remembered (migrate : Bool) (ws : Ws) : ℕ := if migrate ∧ ws = .runningWoken then 1 else 0

def Seat.sight (g : F) : Seat F → Sight
  | .loop => .elsewhere
  | .popped g' => if g' = g then .popped else .elsewhere
  | .won g' => if g' = g then .won else .elsewhere
  | .running g' => if g' = g then .running else .elsewhere

/-- The hub on which the main thread is about to enqueue `g`. -/
def Main.waking (g : F) : Main F H E → Option H
  | .wake _ g' t true => if g' = g then some t else none
  | _ => none

@[ext]
structure Look (H E : Type*) where
  pc : Pc H E
  claimed : Bool
  signaled : Bool
  ws : Ws
  node : Option H
  enqueued : ℕ
  heap : H → ℕ
  ready : H → ℕ
  seat : H → Sight
  linked : ℕ
  runq : ℕ
  waking : Option H

def State.look (s : State F H E) (g : F) : Look H E where
  pc := s.pc g
  claimed := s.claimed g
  signaled := s.signaled g
  ws := s.ws g
  node := s.node g
  enqueued := s.enqueued g
  heap := fun h => (s.heap h).count g
  ready := fun h => (s.ready h).count g
  seat := fun h => (s.seat h).sight g
  linked := s.waiters.count g
  runq := s.runq.count g
  waking := s.main.waking g

def Pc.waits : Pc H E → Option H
  | .yield t io | .parked t io | .resumed t io => if io then some t else none
  | _ => none

namespace Look

variable {L : Look H E} {migrate : Bool} {t : H}

/-- The fiber runs on the hub `t`, and on no other. -/
def RunsOn (L : Look H E) (t : H) : Prop := ∀ h, L.seat h = if h = t then .running else .elsewhere

/-- No queue has the fiber. -/
structure Absent (L : Look H E) : Prop where
  heap (h : H) : L.heap h = 0
  ready (h : H) : L.ready h = 0
  runq : L.runq = 0
  waking : L.waking = none
  seat (h : H) : L.seat h = .elsewhere ∨ L.seat h = .running

/-- Between the push on the heap of `t` and the resume. -/
structure Asleep (L : Look H E) (migrate : Bool) (t : H) (io : Bool) : Prop where
  other (h : H) (hne : h ≠ t) : L.heap h = 0 ∧ L.ready h = 0 ∧ L.seat h = .elsewhere
  token : L.ready t + L.runq + (L.seat t).owes + L.waking.isSome.toNat + remembered migrate L.ws = L.claimed.toNat
  enqueued : L.enqueued = L.ready t + L.runq
  entry : L.heap t + (L.seat t).entry ≤ 1
  unclaimed (h : L.claimed = false) : L.heap t + (L.seat t).entry = 1
  signaled (h : L.claimed = true) (he : L.heap t + (L.seat t).entry = 1) : io = true ∧ L.signaled = true
  waking {t' : H} (h : L.waking = some t') : t' = t
  runq (h : migrate = false) : L.runq = 0

/-- Behind the resume. -/
structure Awake (L : Look H E) (migrate : Bool) (t : H) : Prop where
  other (h : H) (hne : h ≠ t) : L.heap h = 0
  ready (h : H) : L.ready h = 0
  runq : L.runq = 0
  waking : L.waking = none
  seat : L.RunsOn t
  claimed : L.claimed = true
  enqueued : L.enqueued = 1
  entry : L.heap t ≤ 1
  signaled (h : L.heap t = 1) : L.signaled = true
  ws (h : migrate = true) : L.ws = .running

/-- With `migrate`, what `wake_state` says of a fiber that has parked. -/
def WsParked (L : Look H E) (migrate : Bool) (t : H) : Prop :=
  migrate = true → L.ws = .parked ∧ L.runq = 0 ∧ L.ready t = 0 ∨ L.ws = .queued ∧ L.runq = 1 ∨
    L.ws = .running ∧ L.ready t = 1

/-- With `migrate`, what `wake_state` says of a fiber that sleeps and runs on until it yields. -/
def WsRunning (L : Look H E) (migrate : Bool) (t : H) : Prop :=
  migrate = true → (L.ws = .running ∨ L.ws = .runningWoken) ∧ L.runq = 0 ∧ L.ready t = 0

def At (L : Look H E) (migrate : Bool) : Pc H E → Prop
  | .off => L.Absent ∧ ∀ h, L.seat h = .elsewhere
  | .on => L.Absent ∧ (migrate = true → L.ws = .running) ∧ ∃ t, L.RunsOn t
  | .reset t _ => L.Absent ∧ (migrate = true → L.ws = .running) ∧ L.RunsOn t ∧ L.enqueued = 0
  | .push t _ => L.Absent ∧ (migrate = true → L.ws = .running) ∧ L.RunsOn t ∧ L.enqueued = 0 ∧ L.claimed = false
  | .link t => L.Asleep migrate t true ∧ L.WsRunning migrate t ∧ L.RunsOn t ∧ L.claimed = false
  | .yield t io => L.Asleep migrate t io ∧ L.WsRunning migrate t ∧ L.RunsOn t
  | .parked t io => L.Asleep migrate t io ∧ L.WsParked migrate t ∧ L.seat t ≠ .running
  | .resumed t io => L.Awake migrate t ∧ (L.heap t = 1 → io = true)
  | .test t => L.Awake migrate t
  | .remove t => L.Awake migrate t ∧ L.signaled = true
  | .load t | .store t _ => L.Awake migrate t ∧ L.signaled = true ∧ L.heap t = 0

structure Ok (L : Look H E) (migrate : Bool) : Prop where
  place : L.At migrate L.pc
  linked : L.linked = L.pc.waits.isSome.toNat
  node {t : H} (h : L.pc.waits = some t) : L.node = some t

/-! ### Where a fiber is, told from the queues -/

section

variable (hok : L.Ok migrate)
include hok

theorem Ok.parked_of_trace (hs : L.seat t ≠ .running)
    (hg : 0 < L.heap t ∨ 0 < L.ready t ∨ L.seat t ≠ .elsewhere) : ∃ io, L.pc = .parked t io := by
  obtain ⟨hp, -, -⟩ := hok
  cases hpc : L.pc <;> rw [hpc] at hp
  case parked t' io =>
    refine ⟨io, ?_⟩
    by_cases he : t = t'
    · rw [he]
    · obtain ⟨h₁, h₂, h₃⟩ := hp.1.other t he
      rcases hg with hg | hg | hg
      · exact absurd h₁ hg.ne'
      · exact absurd h₂ hg.ne'
      · exact absurd h₃ hg
  case off | on | reset | push =>
    have h₁ := hp.1.heap t
    have h₂ := hp.1.ready t
    have h₃ := hp.1.seat t
    grind
  case link t' | yield t' _ =>
    -- On its own hub the fiber runs, and on the others it is not.
    have h₁ := hp.1.other t
    simp only [At, RunsOn] at hp
    grind
  case resumed t' _ | remove t' | load t' | store t' _ =>
    have h₁ := hp.1.seat t
    have h₂ := hp.1.ready t
    have h₃ := hp.1.other t
    grind
  case test t' =>
    have h₁ := hp.seat t
    have h₂ := hp.ready t
    have h₃ := hp.other t
    grind

theorem Ok.parked_of_seat {x : Sight} (hs : L.seat t = x) (hr : x ≠ .running)
    (he : x ≠ .elsewhere) : ∃ io, L.pc = .parked t io := by
  subst hs
  exact hok.parked_of_trace hr (.inr (.inr he))

theorem Ok.parked_of_runq (hg : 0 < L.runq) : ∃ t io, L.pc = .parked t io := by
  obtain ⟨hp, -, -⟩ := hok
  cases hpc : L.pc <;> rw [hpc] at hp
  case parked t io => exact ⟨t, io, rfl⟩
  case link t | yield t _ =>
    obtain ⟨ha, hw, -⟩ := hp
    cases migrate with
    | false => exact absurd (ha.runq rfl) hg.ne'
    | true => exact absurd (hw rfl).2.1 hg.ne'
  case test t => exact absurd hp.runq hg.ne'
  all_goals exact absurd hp.1.runq hg.ne'

theorem Ok.asleep_of_waking (hg : L.waking = some t) : ∃ io, L.pc = .yield t io ∨ L.pc = .parked t io := by
  obtain ⟨hp, -, -⟩ := hok
  cases hpc : L.pc <;> rw [hpc] at hp
  case yield t' io =>
    obtain rfl := hp.1.waking hg
    exact ⟨io, .inl rfl⟩
  case parked t' io =>
    obtain rfl := hp.1.waking hg
    exact ⟨io, .inr rfl⟩
  case link t' =>
    obtain ⟨ha, -, -, hc⟩ := hp
    obtain rfl := ha.waking hg
    have := ha.token
    simp [hg, hc] at this
  case test t' => exact absurd (hp.waking.symm.trans hg) nofun
  all_goals exact absurd (hp.1.waking.symm.trans hg) nofun

end

/-! ### The steps of a fiber, on what it sees -/

variable {h : H} {io : Bool}

section

variable (hok : L.Ok migrate)
include hok

theorem Ok.take (hpc : L.pc = .off) :
    Ok (E := E) { L with pc := .on, ws := .running, seat := update L.seat h .running } migrate := by
  obtain ⟨hp, hl, -⟩ := hok
  rw [hpc] at hp hl
  obtain ⟨ha, hs⟩ := hp
  refine ⟨⟨⟨ha.heap, ha.ready, ha.runq, ha.waking, fun k => ?_⟩, fun _ => rfl, h, fun k => ?_⟩, hl, nofun⟩
  · dsimp only
    rw [update_apply]
    split
    · exact .inr rfl
    · exact ha.seat k
  · dsimp only
    rw [update_apply, hs]

theorem Ok.leave (hpc : L.pc = .on) (hs : L.seat h = .running) :
    Ok (E := E) { L with pc := .off, seat := update L.seat h .elsewhere } migrate := by
  obtain ⟨hp, hl, -⟩ := hok
  rw [hpc] at hp hl
  obtain ⟨ha, -, r, hr⟩ := hp
  have hseat : ∀ k, update L.seat h .elsewhere k = .elsewhere := by
    intro k
    have h₁ := hr h
    have h₂ := hr k
    grind
  exact ⟨⟨⟨ha.heap, ha.ready, ha.runq, ha.waking, fun k => .inl (hseat k)⟩, hseat⟩, hl, nofun⟩

theorem Ok.sleep (hpc : L.pc = .on) (hs : L.seat h = .running) (io : Bool) :
    Ok (E := E) { L with pc := .reset h io, enqueued := 0 } migrate := by
  obtain ⟨hp, hl, -⟩ := hok
  rw [hpc] at hp hl
  obtain ⟨ha, hw, r, hr⟩ := hp
  have hh := hr h
  obtain rfl : h = r := by grind
  exact ⟨⟨⟨ha.heap, ha.ready, ha.runq, ha.waking, ha.seat⟩, hw, hr, rfl⟩, hl, nofun⟩

theorem Ok.reset (hpc : L.pc = .reset t io) :
    Ok (E := E) { L with pc := .push t io, claimed := false } migrate := by
  obtain ⟨hp, hl, -⟩ := hok
  rw [hpc] at hp hl
  obtain ⟨ha, hw, hr, he⟩ := hp
  exact ⟨⟨⟨ha.heap, ha.ready, ha.runq, ha.waking, ha.seat⟩, hw, hr, he, rfl⟩, hl, nofun⟩

theorem Ok.push_failed (hpc : L.pc = .push t io) : Ok (E := E) { L with pc := .on } migrate := by
  obtain ⟨hp, hl, -⟩ := hok
  rw [hpc] at hp hl
  obtain ⟨ha, hw, hr, -⟩ := hp
  exact ⟨⟨⟨ha.heap, ha.ready, ha.runq, ha.waking, ha.seat⟩, hw, t, hr⟩, hl, nofun⟩

theorem Ok.push (hpc : L.pc = .push t io) : Ok (E := E) { L with
      pc := if io then .link t else .yield t false
      heap := update L.heap t (L.heap t + 1) } migrate := by
  obtain ⟨hp, hl, -⟩ := hok
  rw [hpc] at hp hl
  obtain ⟨ha, hw, hr, he, hc⟩ := hp
  have hseat : L.seat t = .running := by
    rw [hr, if_pos rfl]
  have hasleep : Asleep (E := E) { L with
      pc := if io then .link t else .yield t false
      heap := update L.heap t (L.heap t + 1) } migrate t io := by
    refine ⟨fun k hk => ?_, ?_, ?_, ?_, fun _ => ?_, ?_, ?_, fun _ => ha.runq⟩
    · refine ⟨?_, ha.ready k, ?_⟩
      · dsimp only
        rw [update_of_ne hk, ha.heap]
      · exact (hr k).trans (if_neg hk)
    · simp [ha.ready, ha.runq, ha.waking, hseat, hc, Sight.owes, remembered]
      grind
    · simp [he, ha.ready, ha.runq]
    · simp [ha.heap, hseat, Sight.entry]
    · simp [ha.heap, hseat, Sight.entry]
    · simp [hc]
    · simp [ha.waking]
  have hws : migrate = true → (L.ws = .running ∨ L.ws = .runningWoken) ∧ L.runq = 0 ∧ L.ready t = 0 :=
    fun hm => ⟨.inl (hw hm), ha.runq, ha.ready t⟩
  cases io with
  | true => exact ⟨⟨hasleep, hws, hr, hc⟩, hl, nofun⟩
  | false => exact ⟨⟨hasleep, hws, hr⟩, hl, nofun⟩

theorem Ok.link (hpc : L.pc = .link t) :
    Ok (E := E) { L with pc := .yield t true, node := some t, signaled := false, linked := L.linked + 1 } migrate := by
  obtain ⟨hp, hl, -⟩ := hok
  rw [hpc] at hp hl
  obtain ⟨ha, hw, hr, hc⟩ := hp
  refine ⟨⟨⟨ha.other, ha.token, ha.enqueued, ha.entry, ha.unclaimed, ?_, ha.waking, ha.runq⟩, hw, hr⟩, ?_, ?_⟩
  · exact fun h => absurd (hc.symm.trans h) nofun
  · rw [hl]
    rfl
  · rintro t' ⟨⟩
    rfl

end

theorem RunsOn.release (hr : L.RunsOn t) (k : H) : update L.seat t .elsewhere k = .elsewhere := by
  rw [update_apply]
  split
  next => rfl
  next hk => rw [hr, if_neg hk]

theorem Ok.yield (hok : L.Ok migrate) (hpc : L.pc = .yield t io) {w : Ws} (hm : migrate = true → L.ws = .running)
    (hw : if migrate then w = .parked else w = L.ws) :
    Ok (E := E) { L with pc := .parked t io, ws := w, seat := update L.seat t .elsewhere } migrate := by
  obtain ⟨hp, hl, hn⟩ := hok
  rw [hpc] at hp hl hn
  obtain ⟨ha, hws, hr⟩ := hp
  have hseat : L.seat t = .running := (hr t).trans (if_pos rfl)
  have htoken := ha.token
  have hentry := ha.entry
  have hunclaimed := ha.unclaimed
  have hsignaled := ha.signaled
  simp only [hseat, Sight.entry, Sight.owes, add_zero] at htoken hentry hunclaimed hsignaled
  refine ⟨⟨⟨fun k hk => ?_, ?_, ha.enqueued, ?_, fun hc => ?_, fun hc he => ?_, ha.waking, ha.runq⟩, fun hm' => ?_, ?_⟩,
    hl, hn⟩
  · exact ⟨(ha.other k hk).1, (ha.other k hk).2.1, hr.release k⟩
  · dsimp only
    rw [hr.release t]
    grind [remembered, Sight.owes]
  · dsimp only
    rw [hr.release t]
    simpa [Sight.entry] using hentry
  · dsimp only
    rw [hr.release t]
    simpa [Sight.entry] using hunclaimed hc
  · dsimp only at he
    rw [hr.release t] at he
    exact hsignaled hc (by simpa [Sight.entry] using he)
  · left
    rw [if_pos hm'] at hw
    exact ⟨hw, (hws hm').2.1, (hws hm').2.2⟩
  · dsimp only
    rw [hr.release t]
    exact nofun

theorem Ok.yield_woken (hok : L.Ok true) (hpc : L.pc = .yield t io) (hw : L.ws ≠ .running) : Ok (E := E) { L with
      pc := .parked t io
      ws := .queued
      runq := L.runq + 1
      enqueued := L.enqueued + 1
      seat := update L.seat t .elsewhere } true := by
  obtain ⟨hp, hl, hn⟩ := hok
  rw [hpc] at hp hl hn
  obtain ⟨ha, hws, hr⟩ := hp
  obtain ⟨hws, hq, hrd⟩ := hws rfl
  have hwoken := hws.resolve_left hw
  have hseat : L.seat t = .running := (hr t).trans (if_pos rfl)
  have htoken := ha.token
  have hentry := ha.entry
  have hunclaimed := ha.unclaimed
  have hsignaled := ha.signaled
  simp only [hseat, Sight.entry, Sight.owes, add_zero] at htoken hentry hunclaimed hsignaled
  refine ⟨⟨⟨fun k hk => ?_, ?_, ?_, ?_, fun hc => ?_, fun hc he => ?_, ha.waking, nofun⟩, fun _ => ?_, ?_⟩, hl, hn⟩
  · exact ⟨(ha.other k hk).1, (ha.other k hk).2.1, hr.release k⟩
  · dsimp only
    rw [hr.release t]
    grind [remembered, Sight.owes]
  · dsimp only
    rw [ha.enqueued]
    omega
  · dsimp only
    rw [hr.release t]
    simpa [Sight.entry] using hentry
  · dsimp only
    rw [hr.release t]
    simpa [Sight.entry] using hunclaimed hc
  · dsimp only at he
    rw [hr.release t] at he
    exact hsignaled hc (by simpa [Sight.entry] using he)
  · right
    left
    refine ⟨rfl, ?_⟩
    dsimp only
    omega
  · dsimp only
    rw [hr.release t]
    exact nofun

theorem Awake.on (ha : L.Awake migrate t) (hh : L.heap t = 0) : At (E := E) { L with pc := .on } migrate .on := by
  refine ⟨⟨fun k => ?_, ha.ready, ha.runq, ha.waking, fun k => ?_⟩, ha.ws, t, ha.seat⟩
  · by_cases hk : k = t
    · subst hk
      exact hh
    · exact ha.other k hk
  · have := ha.seat k
    dsimp only
    grind

section

variable (hok : L.Ok migrate)
include hok

theorem Ok.resumed (hpc : L.pc = .resumed t true) :
    Ok (E := E) { L with pc := .test t, linked := L.linked - 1 } migrate := by
  obtain ⟨hp, hl, -⟩ := hok
  rw [hpc] at hp hl
  obtain ⟨⟨h₁, h₂, h₃, h₄, h₅, h₆, h₇, h₈, h₉, h₁₀⟩, -⟩ := hp
  refine ⟨⟨h₁, h₂, h₃, h₄, h₅, h₆, h₇, h₈, h₉, h₁₀⟩, ?_, nofun⟩
  rw [hl]
  rfl

theorem Ok.resumed_plain (hpc : L.pc = .resumed t false) : Ok (E := E) { L with pc := .on } migrate := by
  obtain ⟨hp, hl, -⟩ := hok
  rw [hpc] at hp hl
  obtain ⟨ha, hio⟩ := hp
  have hle := ha.entry
  have hh : L.heap t = 0 := by grind
  exact ⟨ha.on hh, hl, nofun⟩

theorem Ok.test_signaled (hpc : L.pc = .test t) (hs : L.signaled = true) :
    Ok (E := E) { L with pc := .remove t } migrate := by
  obtain ⟨hp, hl, -⟩ := hok
  rw [hpc] at hp hl
  obtain ⟨h₁, h₂, h₃, h₄, h₅, h₆, h₇, h₈, h₉, h₁₀⟩ := hp
  exact ⟨⟨⟨h₁, h₂, h₃, h₄, h₅, h₆, h₇, h₈, h₉, h₁₀⟩, hs⟩, hl, nofun⟩

theorem Ok.test_unmarked (hpc : L.pc = .test t) (hs : L.signaled = false) :
    Ok (E := E) { L with pc := .on } migrate := by
  obtain ⟨hp, hl, -⟩ := hok
  rw [hpc] at hp hl
  have hle := hp.entry
  have hsig := hp.signaled
  have hh : L.heap t = 0 := by grind
  exact ⟨hp.on hh, hl, nofun⟩

theorem Ok.remove (hpc : L.pc = .remove t) :
    Ok (E := E) { L with pc := .load t, heap := update L.heap t (L.heap t - 1) } migrate := by
  obtain ⟨hp, hl, -⟩ := hok
  rw [hpc] at hp hl
  obtain ⟨⟨h₁, h₂, h₃, h₄, h₅, h₆, h₇, h₈, h₉, h₁₀⟩, hs⟩ := hp
  have hgone : update L.heap t (L.heap t - 1) t = 0 := by
    rw [update_self]
    omega
  refine ⟨⟨⟨fun k hk => ?_, h₂, h₃, h₄, h₅, h₆, h₇, ?_, fun _ => hs, h₁₀⟩, hs, hgone⟩, hl, nofun⟩
  · dsimp only
    rw [update_of_ne hk]
    exact h₁ k hk
  · exact hgone.trans_le (Nat.zero_le 1)

theorem Ok.load (hpc : L.pc = .load t) (x : Option E) : Ok (E := E) { L with pc := .store t x } migrate := by
  obtain ⟨hp, hl, -⟩ := hok
  rw [hpc] at hp hl
  obtain ⟨⟨h₁, h₂, h₃, h₄, h₅, h₆, h₇, h₈, h₉, h₁₀⟩, hs, hh⟩ := hp
  exact ⟨⟨⟨h₁, h₂, h₃, h₄, h₅, h₆, h₇, h₈, h₉, h₁₀⟩, hs, hh⟩, hl, nofun⟩

theorem Ok.store {x : Option E} (hpc : L.pc = .store t x) : Ok (E := E) { L with pc := .on } migrate := by
  obtain ⟨hp, hl, -⟩ := hok
  rw [hpc] at hp hl
  exact ⟨hp.1.on hp.2.2, hl, nofun⟩

end

/-! ### The steps of the hub and of the main thread -/

theorem Ok.pop (hok : L.Ok migrate) (hpc : L.pc = .parked t io) (hs : L.seat t = .elsewhere) (hg : 0 < L.heap t) :
    Ok (E := E) { L with
      heap := update L.heap t (L.heap t - 1)
      seat := update L.seat t .popped } migrate := by
  obtain ⟨hp, hl, hn⟩ := hok
  rw [hpc] at hp
  obtain ⟨ha, hws, -⟩ := hp
  have htoken := ha.token
  have hentry := ha.entry
  have hsignaled := ha.signaled
  rw [hs] at htoken hentry hsignaled
  have hone : L.heap t = 1 := by
    have : L.heap t ≤ 1 := hentry
    omega
  refine ⟨?_, hl, hn⟩
  dsimp only
  rw [hpc]
  refine ⟨⟨fun k hk => ?_, ?_, ha.enqueued, ?_, fun _ => ?_, fun hc _ => hsignaled hc hone, ha.waking, ha.runq⟩,
    hws, ?_⟩
  · dsimp only
    rw [update_of_ne hk, update_of_ne hk]
    exact ha.other k hk
  · dsimp only
    rw [update_self]
    exact htoken
  · simp [hone, Sight.entry]
  · simp [hone, Sight.entry]
  · simp

theorem Ok.claim_lost (hok : L.Ok migrate) (hpc : L.pc = .parked t io) (hs : L.seat t = .popped)
    (hc : L.claimed = true) : Ok (E := E) { L with seat := update L.seat t .elsewhere } migrate := by
  obtain ⟨hp, hl, hn⟩ := hok
  rw [hpc] at hp
  obtain ⟨ha, hws, -⟩ := hp
  have htoken := ha.token
  have hentry := ha.entry
  rw [hs] at htoken hentry
  have hzero : L.heap t = 0 := by
    have : L.heap t + 1 ≤ 1 := hentry
    omega
  refine ⟨?_, hl, hn⟩
  dsimp only
  rw [hpc]
  refine ⟨⟨fun k hk => ?_, ?_, ha.enqueued, ?_, fun hc' => ?_, fun _ he => ?_, ha.waking, ha.runq⟩, hws, ?_⟩
  · dsimp only
    rw [update_of_ne hk]
    exact ha.other k hk
  · dsimp only
    rw [update_self]
    exact htoken
  · simp [hzero, Sight.entry]
  · exact absurd (hc'.symm.trans hc) nofun
  · simp [hzero, Sight.entry] at he
  · simp

theorem Ok.claim_won (hok : L.Ok migrate) (hpc : L.pc = .parked t io) (hs : L.seat t = .popped)
    (hc : L.claimed = false) :
    Ok (E := E) { L with claimed := true, seat := update L.seat t .won } migrate := by
  obtain ⟨hp, hl, hn⟩ := hok
  rw [hpc] at hp
  obtain ⟨ha, hws, -⟩ := hp
  have htoken := ha.token
  have hentry := ha.entry
  rw [hs, hc] at htoken
  rw [hs] at hentry
  have hzero : L.heap t = 0 := by
    have : L.heap t + 1 ≤ 1 := hentry
    omega
  refine ⟨?_, hl, hn⟩
  dsimp only
  rw [hpc]
  refine ⟨⟨fun k hk => ?_, ?_, ha.enqueued, ?_, nofun, fun _ he => ?_, ha.waking, ha.runq⟩, hws, ?_⟩
  · dsimp only
    rw [update_of_ne hk]
    exact ha.other k hk
  · dsimp only
    rw [update_self]
    simp only [Sight.owes, Bool.toNat_false, Bool.toNat_true] at htoken ⊢
    omega
  · simp [hzero, Sight.entry]
  · simp [hzero, Sight.entry] at he
  · simp

theorem Ok.ws_of_won (hok : L.Ok true) (hpc : L.pc = .parked t io) (hs : L.seat t = .won) : L.ws = .parked := by
  obtain ⟨hp, -, -⟩ := hok
  rw [hpc] at hp
  obtain ⟨ha, hws, -⟩ := hp
  have htoken := ha.token
  rw [hs] at htoken
  have hle := Bool.toNat_le L.claimed
  simp only [Sight.owes] at htoken
  rcases hws rfl with ⟨hw, -⟩ | ⟨-, hq⟩ | ⟨-, hr⟩
  · exact hw
  · omega
  · omega

theorem Ok.timerPush (hok : L.Ok migrate) (hpc : L.pc = .parked t io) (hs : L.seat t = .won) {w : Ws}
    (hw : if migrate then w = .running else w = L.ws) :
    Ok (E := E) { L with
      ws := w
      ready := update L.ready t (L.ready t + 1)
      enqueued := L.enqueued + 1
      seat := update L.seat t .elsewhere } migrate := by
  obtain ⟨hp, hl, hn⟩ := hok
  rw [hpc] at hp
  obtain ⟨ha, -, -⟩ := hp
  have htoken := ha.token
  have hentry := ha.entry
  have hunclaimed := ha.unclaimed
  have hsignaled := ha.signaled
  have hle := Bool.toNat_le L.claimed
  rw [hs] at htoken hentry hunclaimed hsignaled
  simp only [Sight.owes, Sight.entry, add_zero] at htoken hentry hunclaimed hsignaled
  refine ⟨?_, hl, hn⟩
  dsimp only
  rw [hpc]
  refine ⟨⟨fun k hk => ?_, ?_, ?_, ?_, fun hc => ?_, fun hc he => hsignaled hc ?_, ha.waking, ha.runq⟩, fun hm => ?_, ?_⟩
  · dsimp only
    rw [update_of_ne hk, update_of_ne hk]
    exact ha.other k hk
  · dsimp only
    rw [update_self, update_self]
    have hr : remembered migrate w ≤ remembered migrate L.ws := by
      unfold remembered
      grind
    simp only [Sight.owes]
    omega
  · dsimp only
    rw [update_self, ha.enqueued]
    omega
  · dsimp only
    rw [update_self]
    exact hentry
  · dsimp only
    rw [update_self]
    exact hunclaimed hc
  · dsimp only at he
    rwa [update_self] at he
  · right
    right
    rw [if_pos hm] at hw
    refine ⟨hw, ?_⟩
    dsimp only
    rw [update_self]
    omega
  · simp

omit [DecidableEq H] in
theorem Asleep.queued (ha : L.Asleep migrate t io) (hq : 0 < L.ready t + L.runq) :
    L.ready t + L.runq = 1 ∧ (L.seat t).owes = 0 ∧ L.waking = none ∧ L.claimed = true := by
  have htoken := ha.token
  have hle := Bool.toNat_le L.claimed
  refine ⟨by omega, by omega, ?_, ?_⟩
  · rw [← Option.not_isSome_iff_eq_none]
    intro hw
    rw [hw] at htoken
    simp only [Bool.toNat_true] at htoken
    omega
  · cases hc : L.claimed with
    | true => rfl
    | false =>
      rw [hc] at htoken
      simp only [Bool.toNat_false] at htoken
      omega

section

variable (hok : L.Ok migrate)
include hok

theorem Ok.resume (hpc : L.pc = .parked t io) (hs : L.seat t = .elsewhere) (hg : 0 < L.ready t) :
    Ok (E := E) { L with
      pc := .resumed t io
      ready := update L.ready t (L.ready t - 1)
      seat := update L.seat t .running } migrate := by
  obtain ⟨hp, hl, hn⟩ := hok
  rw [hpc] at hp hl hn
  obtain ⟨ha, hws, -⟩ := hp
  obtain ⟨hq, -, hwaking, hc⟩ := ha.queued (by omega)
  have hentry := ha.entry
  have hsignaled := ha.signaled hc
  rw [hs] at hentry hsignaled
  simp only [Sight.entry, add_zero] at hentry hsignaled
  refine ⟨⟨⟨fun k hk => (ha.other k hk).1, fun k => ?_, ?_, hwaking, fun k => ?_, hc, ?_, hentry,
    fun he => (hsignaled he).2, fun hm => ?_⟩, fun he => (hsignaled he).1⟩, hl, hn⟩
  · dsimp only
    rw [update_apply]
    split
    next => omega
    next hk => exact (ha.other k hk).2.1
  · dsimp only
    omega
  · dsimp only
    rw [update_apply]
    split
    next => rfl
    next hk => exact (ha.other k hk).2.2
  · exact ha.enqueued.trans hq
  · dsimp only
    have := hws hm
    grind

theorem Ok.pull (hpc : L.pc = .parked t io) (hs : L.seat t = .elsewhere) (hg : 0 < L.runq) : Ok (E := E) { L with
      pc := .resumed t io
      ws := .running
      runq := L.runq - 1
      seat := update L.seat t .running } migrate := by
  obtain ⟨hp, hl, hn⟩ := hok
  rw [hpc] at hp hl hn
  obtain ⟨ha, -, -⟩ := hp
  obtain ⟨hq, -, hwaking, hc⟩ := ha.queued (by omega)
  have hentry := ha.entry
  have hsignaled := ha.signaled hc
  rw [hs] at hentry hsignaled
  simp only [Sight.entry, add_zero] at hentry hsignaled
  refine ⟨⟨⟨fun k hk => (ha.other k hk).1, fun k => ?_, ?_, hwaking, fun k => ?_, hc, ?_, hentry,
    fun he => (hsignaled he).2, fun _ => rfl⟩, fun he => (hsignaled he).1⟩, hl, hn⟩
  · dsimp only
    by_cases hk : k = t
    · subst hk
      omega
    · exact (ha.other k hk).2.1
  · dsimp only
    omega
  · dsimp only
    rw [update_apply]
    split
    next => rfl
    next hk => exact (ha.other k hk).2.2
  · exact ha.enqueued.trans hq

theorem Ok.queued_of_runq (hpc : L.pc = .parked t io) (hg : 0 < L.runq) : L.ws = .queued := by
  obtain ⟨hp, -, -⟩ := hok
  rw [hpc] at hp
  obtain ⟨ha, hws, -⟩ := hp
  obtain ⟨hq, -⟩ := ha.queued (by omega)
  cases migrate with
  | false => exact absurd (ha.runq rfl) hg.ne'
  | true =>
    rcases hws rfl with ⟨-, h₁, -⟩ | ⟨hw, -⟩ | ⟨-, h₂⟩
    · omega
    · exact hw
    · omega

theorem Ok.mark (hw : L.pc.waits = some t) : Ok (E := E) { L with signaled := true } migrate := by
  obtain ⟨hp, hl, hn⟩ := hok
  cases hpc : L.pc <;> rw [hpc] at hp hl hn hw
  case yield t' io =>
    obtain ⟨ha, hws, hr⟩ := hp
    exact ⟨⟨⟨ha.other, ha.token, ha.enqueued, ha.entry, ha.unclaimed, fun hc he => ⟨(ha.signaled hc he).1, rfl⟩,
      ha.waking, ha.runq⟩, hws, hr⟩, hl, hn⟩
  case parked t' io =>
    obtain ⟨ha, hws, hr⟩ := hp
    exact ⟨⟨⟨ha.other, ha.token, ha.enqueued, ha.entry, ha.unclaimed, fun hc he => ⟨(ha.signaled hc he).1, rfl⟩,
      ha.waking, ha.runq⟩, hws, hr⟩, hl, hn⟩
  case resumed t' io =>
    obtain ⟨ha, hio⟩ := hp
    exact ⟨⟨⟨ha.other, ha.ready, ha.runq, ha.waking, ha.seat, ha.claimed, ha.enqueued, ha.entry, fun _ => rfl, ha.ws⟩,
      hio⟩, hl, hn⟩
  all_goals cases hw

end

omit [DecidableEq H] in
theorem Asleep.claim (ha : L.Asleep migrate t true) (hc : L.claimed = false) (hs : L.signaled = true)
    (p : Pc H E) : Asleep (E := E) { L with pc := p, claimed := true, waking := some t } migrate t true := by
  have htoken := ha.token
  rw [hc] at htoken
  refine ⟨ha.other, ?_, ha.enqueued, ha.entry, nofun, fun _ _ => ⟨rfl, hs⟩, ?_, ha.runq⟩
  · simp only [Bool.toNat_false, Option.isSome_some, Bool.toNat_true] at htoken ⊢
    omega
  · rintro t' ⟨⟩
    rfl

theorem Ok.claim (hok : L.Ok migrate) (hw : L.pc.waits = some t) (hc : L.claimed = false) (hs : L.signaled = true) :
    Ok (E := E) { L with claimed := true, waking := some t } migrate := by
  obtain ⟨hp, hl, hn⟩ := hok
  cases hpc : L.pc <;> rw [hpc] at hp hl hn hw
  case yield t' io =>
    obtain ⟨ha, hws, hr⟩ := hp
    cases io with
    | false => cases hw
    | true =>
      cases hw
      exact ⟨⟨ha.claim hc hs _, hws, hr⟩, hl, hn⟩
  case parked t' io =>
    obtain ⟨ha, hws, hr⟩ := hp
    cases io with
    | false => cases hw
    | true =>
      cases hw
      exact ⟨⟨ha.claim hc hs _, hws, hr⟩, hl, hn⟩
  case resumed t' io => exact absurd (hc.symm.trans hp.1.claimed) nofun
  all_goals cases hw

theorem Ok.wake_hub (hok : L.Ok false) (hg : L.waking = some t) : Ok (E := E) { L with
      waking := none
      ready := update L.ready t (L.ready t + 1)
      enqueued := L.enqueued + 1 } false := by
  obtain ⟨io, hpc⟩ := hok.asleep_of_waking hg
  obtain ⟨hp, hl, hn⟩ := hok
  have hasleep : L.Asleep false t io → ∀ p, Asleep (E := E) { L with
      pc := p
      waking := none
      ready := update L.ready t (L.ready t + 1)
      enqueued := L.enqueued + 1 } false t io := by
    intro ha p
    have htoken := ha.token
    rw [hg] at htoken
    refine ⟨fun k hk => ?_, ?_, ?_, ha.entry, ha.unclaimed, ha.signaled, nofun, ha.runq⟩
    · dsimp only
      rw [update_of_ne hk]
      exact ha.other k hk
    · dsimp only
      rw [update_self]
      simp only [Option.isSome_some, Option.isSome_none, Bool.toNat_true, Bool.toNat_false] at htoken ⊢
      omega
    · dsimp only
      rw [update_self, ha.enqueued]
      omega
  refine ⟨?_, hl, hn⟩
  dsimp only
  rcases hpc with hpc | hpc <;> rw [hpc] at hp ⊢ <;> exact ⟨hasleep hp.1 _, nofun, hp.2.2⟩

theorem Ok.wake_parked (hok : L.Ok true) (hg : L.waking = some t) (hw : L.ws = .parked) :
    Ok (E := E) { L with waking := none, ws := .queued, runq := L.runq + 1, enqueued := L.enqueued + 1 } true := by
  obtain ⟨io, hpc⟩ := hok.asleep_of_waking hg
  obtain ⟨hp, hl, hn⟩ := hok
  refine ⟨?_, hl, hn⟩
  dsimp only
  rcases hpc with hpc | hpc <;> rw [hpc] at hp ⊢
  · have := (hp.2.1 rfl).1
    rw [hw] at this
    exact absurd this (by decide)
  · obtain ⟨ha, -, hr⟩ := hp
    have htoken := ha.token
    have hle := Bool.toNat_le L.claimed
    rw [hg, hw] at htoken
    simp only [Option.isSome_some, Bool.toNat_true, remembered, reduceCtorEq, and_false, if_false] at htoken
    refine ⟨⟨ha.other, ?_, ?_, ha.entry, ha.unclaimed, ha.signaled, nofun, nofun⟩, fun _ => .inr (.inl ⟨rfl, ?_⟩), hr⟩
    · simp only [Option.isSome_none, Bool.toNat_false, remembered, reduceCtorEq, and_false, if_false]
      omega
    · dsimp only
      rw [ha.enqueued]
      omega
    · dsimp only
      omega

theorem Ok.wake_running (hok : L.Ok true) (hg : L.waking = some t) (hw : L.ws = .running) :
    Ok (E := E) { L with waking := none, ws := .runningWoken } true := by
  obtain ⟨io, hpc⟩ := hok.asleep_of_waking hg
  obtain ⟨hp, hl, hn⟩ := hok
  refine ⟨?_, hl, hn⟩
  dsimp only
  rcases hpc with hpc | hpc <;> rw [hpc] at hp ⊢ <;> obtain ⟨ha, hws, hr⟩ := hp <;> have htoken := ha.token <;>
    have hle := Bool.toNat_le L.claimed <;> rw [hg, hw] at htoken <;>
    simp only [Option.isSome_some, Bool.toNat_true, remembered, reduceCtorEq, and_false, if_false] at htoken
  · obtain ⟨-, hq, hrd⟩ := hws rfl
    refine ⟨⟨ha.other, ?_, ha.enqueued, ha.entry, ha.unclaimed, ha.signaled, nofun, nofun⟩,
      fun _ => ⟨.inr rfl, hq, hrd⟩, hr⟩
    simp only [Option.isSome_none, Bool.toNat_false, remembered, and_self, if_true]
    omega
  · -- A parked fiber that runs again is on the queue of its hub already.
    exfalso
    rcases hws rfl with ⟨h, -⟩ | ⟨h, -⟩ | ⟨-, h⟩
    · exact absurd (hw.symm.trans h) nofun
    · exact absurd (hw.symm.trans h) nofun
    · omega

theorem Ok.ws_of_waking (hok : L.Ok true) (hg : L.waking = some t) : L.ws = .parked ∨ L.ws = .running := by
  obtain ⟨io, hpc⟩ := hok.asleep_of_waking hg
  obtain ⟨hp, -, -⟩ := hok
  rcases hpc with hpc | hpc <;> rw [hpc] at hp <;> obtain ⟨ha, hws, -⟩ := hp <;> have htoken := ha.token <;>
    have hle := Bool.toNat_le L.claimed <;> rw [hg] at htoken <;>
    simp only [Option.isSome_some, Bool.toNat_true] at htoken
  · rcases (hws rfl).1 with hw | hw
    · exact .inr hw
    · rw [hw] at htoken
      simp only [remembered, and_self, if_true] at htoken
      omega
  · rcases hws rfl with ⟨hw, -⟩ | ⟨-, h⟩ | ⟨hw, -⟩
    · exact .inl hw
    · omega
    · exact .inr hw

end Look

end Runloom.SleepSignal
