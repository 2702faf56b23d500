import Mathlib.Data.Nat.ModEq
import Runloom.SubmitQueue

/-!
# The submission queue of the loop backend

Model of the submissions on the ring that a hub waits in: `runloom_iouring_loop_enqueue_poll`, `_enqueue_op`, `_flush`
and `_drain`, and `runloom_iouring_ring_submit_sqe`, which drains by `_loop_drain` there. All run on the thread of the
hub, so a call goes from one `io_uring_enter` to the next in one step.
-/

namespace Runloom.LoopQueue

open Transition

/-- The descriptors that are polled all the time. -/
inductive Poll where
  | wake
  | epoll
deriving DecidableEq

inductive Sqe (C : Type*) where
  | poll (p : Poll)
  | op (c : C)
deriving DecidableEq

/-- A completion, by its `user_data`; `more` is `IORING_CQE_F_MORE`. -/
inductive Cqe where
  | wake (more : Bool)
  | epoll
  | other
deriving DecidableEq

/-- The two loops that wait for a free entry. -/
inductive Issuer where
  | enqueueOp
  | submitSqe
deriving DecidableEq

inductive Pc (C : Type*) where
  | idle
  /-- Before the test of `tail - head`. -/
  | test (i : Issuer) (c : C)
  /-- In `loop_flush`, by itself or for the op of an `enqueue_op`. -/
  | flush (c : Option C)
  /-- Before `loop_drain`, and in its loop with the completions that are left. -/
  | drain (back : Option (Issuer × C))
  | reap (l : List Cqe) (back : Option (Issuer × C))
  /-- In `sys_io_uring_submit_eintr` of `ring_submit_sqe`. -/
  | enter (tail : BitVec 32)
deriving DecidableEq

def Pc.isIdle {C : Type*} : Pc C → Bool
  | .idle => true
  | _ => false

/-- A ring with `2 ^ bits` entries; `epoll` is `loop_epoll_fd >= 0`. -/
structure Config where
  bits : Fin 32
  epoll : Bool

def Config.entries (cfg : Config) : BitVec 32 := BitVec.twoPow 32 cfg.bits

/-- `owes`, history: the call has found the queue full, and has not entered the kernel since. -/
structure State (C : Type*) where
  ring : SubmitQueue.Ring (Sqe C)
  /-- `sq_submitted_tail`. -/
  submitted : BitVec 32
  pc : Pc C
  overwritten : List (Sqe C)
  owes : Bool

inductive Action (C : Type*) where
  | enqueuePoll (p : Poll)
  | call (i : Issuer) (c : C)
  | loopFlush
  | loopDrain
  | run
  /-- An `io_uring_enter` returns: the entries that it took, or an error. -/
  | entered (n : Option ℕ)
  /-- What `loop_drain` finds between `cq_head` and `cq_tail`. -/
  | completions (l : List Cqe)

variable {C : Type*}

namespace State

def goto (s : State C) (pc : Pc C) : State C := { s with pc := pc }

/-- `tail - head < sq_entries`. -/
def HasRoom (cfg : Config) (s : State C) : Prop := s.ring.tail - s.ring.head < cfg.entries

instance (cfg : Config) (s : State C) : Decidable (s.HasRoom cfg) := inferInstanceAs (Decidable (_ < _))

/-- The entry at the tail is written, and the tail goes on. -/
def push (cfg : Config) (s : State C) (e : Sqe C) : State C :=
  { s with
    ring := { s.ring.fill cfg.entries s.ring.tail e with tail := s.ring.tail + 1 }
    overwritten := s.overwritten ++ s.ring.lost cfg.entries s.ring.tail }

/-- What `loop_drain` queues for a completion: it arms again a poll that has ended. -/
def rearm (cfg : Config) (s : State C) : Cqe → State C
  | .wake more => if more then s else s.push cfg (.poll .wake)
  | .epoll => if cfg.epoll then s.push cfg (.poll .epoll) else s
  | .other => s

/-- The kernel takes `n` of the `toSubmit` entries that it is asked to take. -/
def take (s : State C) (toSubmit : BitVec 32) (n : ℕ) : Option (State C) :=
  if n ≤ toSubmit.toNat ∧ n ≤ (s.ring.tail - s.ring.head).toNat then
    some { s with ring := { s.ring with head := s.ring.head + BitVec.ofNat 32 n } }
  else none

def afterFlush : Option C → Pc C
  | none => .idle
  | some c => .drain (some (.enqueueOp, c))

def afterDrain : Option (Issuer × C) → Pc C
  | none => .idle
  | some (i, c) => .test i c

/-- The test for a free entry: the entry is queued, or the loop makes room. -/
def test (cfg : Config) (s : State C) (c : C) : Issuer → State C
  | .enqueueOp =>
    if s.HasRoom cfg then (s.push cfg (.op c)).goto .idle else { s with owes := true }.goto (.flush (some c))
  | .submitSqe =>
    if s.HasRoom cfg then (s.push cfg (.op c)).goto (.enter s.ring.tail)
    -- This loop drains the completions, and submits nothing.
    else { s with owes := true }.goto (.drain (some (.submitSqe, c)))

def run (cfg : Config) (s : State C) : Option (State C) :=
  match s.pc with
  | .test i c => some (s.test cfg c i)
  | .flush c => if s.ring.tail = s.submitted then some (s.goto (afterFlush c)) else none
  | .reap [] back => some (s.goto (afterDrain back))
  | .reap (q :: l) back => some ((s.rearm cfg q).goto (.reap l back))
  | _ => none

def entered (s : State C) (n : Option ℕ) : Option (State C) :=
  let s' := { s with owes := false }
  match s.pc, n with
  | .flush c, none => if s.ring.tail = s.submitted then none else some (s'.goto (afterFlush c))
  | .flush c, some n =>
    if s.ring.tail = s.submitted then none
    else
      let s' := { s' with submitted := s.submitted + BitVec.ofNat 32 n }
      (s'.take (s.ring.tail - s.submitted) n).map fun t => t.goto (afterFlush c)
  -- The entry is taken back.
  | .enter tail, none => some ({ s' with ring := { s.ring with tail := tail } }.goto .idle)
  | .enter _, some n => (s'.take 1 n).map fun t => t.goto .idle
  | _, _ => none

end State

def step (cfg : Config) (s : State C) : Action C → Option (State C)
  | .enqueuePoll p => if s.pc.isIdle then some (s.push cfg (.poll p)) else none
  | .call i c => if s.pc.isIdle then some (s.goto (.test i c)) else none
  | .loopFlush => if s.pc.isIdle then some (s.goto (.flush none)) else none
  | .loopDrain => if s.pc.isIdle then some (s.goto (.drain none)) else none
  | .run => s.run cfg
  | .entered n => s.entered n
  | .completions l =>
    match s.pc with
    | .drain back => some (s.goto (.reap l back))
    | _ => none

structure Init (s : State C) : Prop where
  ring : s.ring.tail = s.ring.head
  submitted : s.submitted = s.ring.head
  pc : s.pc = .idle
  overwritten : s.overwritten = []
  owes : s.owes = false

def loopQueue (C : Type*) (cfg : Config) : System (State C) (Action C) where
  init := Init
  step := step cfg

/-- The queue has at most `sq_entries` entries, none was written over, and a call about to test for room owes no
enter. -/
structure WithinBounds (cfg : Config) (s : State C) : Prop where
  bound : s.ring.tail - s.ring.head ≤ cfg.entries
  kept : s.overwritten = []
  submits : ∀ i c, s.pc = .test i c → s.owes = false

def Pc.Roomy (cfg : Config) (s : State C) : Pc C → Prop
  | .test .submitSqe _ | .reap (.wake false :: _) _ => s.HasRoom cfg
  | .reap (.epoll :: _) _ => cfg.epoll = true → s.HasRoom cfg
  | .flush (some _) => s.ring.tail ≠ s.submitted
  | _ => True

/-- A poll is queued only where there is room, `ring_submit_sqe` finds room, and `sq_submitted_tail` is not a whole
turn behind when a full queue is flushed. -/
def Roomy (cfg : Config) (s : State C) : Action C → Prop
  | .enqueuePoll _ => s.HasRoom cfg
  | .run => s.pc.Roomy cfg s
  | _ => True

structure Inv (cfg : Config) (s : State C) : Prop where
  bound : s.ring.tail - s.ring.head ≤ cfg.entries
  kept : s.overwritten = []
  owes : s.owes = true → ∃ c, s.pc = .flush (some c)
  queued : ∀ tail, s.pc = .enter tail → s.ring.tail = tail + 1 ∧ s.ring.tail ≠ s.ring.head

variable {cfg : Config} {s s' : State C}

theorem Config.toNat_entries (cfg : Config) : cfg.entries.toNat = 2 ^ (cfg.bits : ℕ) := by
  rw [Config.entries, BitVec.toNat_twoPow]
  exact Nat.mod_eq_of_lt (Nat.pow_lt_pow_right (by decide) cfg.bits.2)

theorem toNat_slot (cfg : Config) (x : BitVec 32) :
    (SubmitQueue.Ring.slot cfg.entries x).toNat = x.toNat % 2 ^ (cfg.bits : ℕ) := by
  have hpos : 1 ≤ 2 ^ (cfg.bits : ℕ) := Nat.one_le_two_pow
  have hmask : (cfg.entries - 1).toNat = 2 ^ (cfg.bits : ℕ) - 1 := by
    have hn := cfg.toNat_entries
    have : (1 : BitVec 32) ≤ cfg.entries := by
      rw [BitVec.le_def, hn]
      exact hpos
    rw [BitVec.toNat_sub_of_le this, hn]
    rfl
  rw [SubmitQueue.Ring.slot, BitVec.toNat_and, hmask, Nat.and_two_pow_sub_one_eq_mod]

/-- The positions of the queue and the next one have slots of their own. -/
theorem lost_eq_nil (h : s.HasRoom cfg) : s.ring.lost cfg.entries s.ring.tail = [] := by
  rw [State.HasRoom, BitVec.lt_def, cfg.toNat_entries] at h
  refine if_neg fun hmem => ?_
  obtain ⟨j, hj, hslot⟩ := List.mem_map.mp hmem
  rw [List.mem_range] at hj
  have hslots := congrArg BitVec.toNat hslot
  rw [toNat_slot, toNat_slot] at hslots
  have hdvd : 2 ^ (cfg.bits : ℕ) ∣ 2 ^ 32 := Nat.pow_dvd_pow 2 (Nat.le_of_lt cfg.bits.2)
  have htail : s.ring.tail.toNat = (s.ring.head.toNat + (s.ring.tail - s.ring.head).toNat) % 2 ^ 32 := by
    have : s.ring.tail = s.ring.head + (s.ring.tail - s.ring.head) := by
      rw [BitVec.add_comm, BitVec.sub_add_cancel]
    rw [← BitVec.toNat_add, ← this]
  have hpos : (s.ring.head + BitVec.ofNat 32 j).toNat = (s.ring.head.toNat + j) % 2 ^ 32 := by
    rw [BitVec.toNat_add, BitVec.toNat_ofNat, Nat.add_mod_mod]
  rw [hpos, htail, Nat.mod_mod_of_dvd _ hdvd, Nat.mod_mod_of_dvd _ hdvd] at hslots
  have hmod : j ≡ (s.ring.tail - s.ring.head).toNat [MOD 2 ^ (cfg.bits : ℕ)] := Nat.ModEq.add_left_cancel' _ hslots
  rw [Nat.ModEq, Nat.mod_eq_of_lt (hj.trans h), Nat.mod_eq_of_lt h] at hmod
  omega

theorem Inv.push (hI : Inv cfg s) (h : s.HasRoom cfg) (e : Sqe C) :
    (s.push cfg e).ring.tail - (s.push cfg e).ring.head ≤ cfg.entries ∧ (s.push cfg e).overwritten = [] := by
  constructor
  · show s.ring.tail + 1 - s.ring.head ≤ cfg.entries
    rw [State.HasRoom] at h
    bv_omega
  · show s.overwritten ++ _ = []
    rw [lost_eq_nil h, hI.kept]
    rfl

theorem take_spec {toSubmit : BitVec 32} {n : ℕ} (h : s.take toSubmit n = some s') :
    s'.ring.tail = s.ring.tail ∧ s'.ring.tail - s'.ring.head ≤ s.ring.tail - s.ring.head ∧
    s'.overwritten = s.overwritten ∧ s'.owes = s.owes := by
  unfold State.take at h
  split at h <;> cases h
  next hn =>
    refine ⟨rfl, ?_, rfl, rfl⟩
    show s.ring.tail - (s.ring.head + BitVec.ofNat 32 n) ≤ s.ring.tail - s.ring.head
    bv_omega

theorem Inv.init (h : Init s) : Inv cfg s where
  bound := by
    rw [h.ring, BitVec.sub_self]
    exact Nat.zero_le _
  kept := h.overwritten
  owes hs := by
    rw [h.owes] at hs
    cases hs
  queued tail hs := by
    rw [h.pc] at hs
    cases hs

theorem Inv.owes_eq_false (hI : Inv cfg s) (h : ∀ c, s.pc ≠ .flush (some c)) : s.owes = false := by
  rw [Bool.eq_false_iff]
  intro hs
  obtain ⟨c, hc⟩ := hI.owes hs
  exact h c hc

/-- A step to `pc` that is not in the middle of a submission, and owes none. -/
theorem Inv.settle (hb : s.ring.tail - s.ring.head ≤ cfg.entries) (hk : s.overwritten = [])
    (ho : s.owes = false) {pc : Pc C} (hpc : ∀ tail, pc ≠ .enter tail) : Inv cfg (s.goto pc) where
  bound := hb
  kept := hk
  owes hs := by
    have hs : s.owes = true := hs
    rw [ho] at hs
    cases hs
  queued tail h := absurd h (hpc tail)

theorem Inv.test (hI : Inv cfg s) {i : Issuer} {c : C} (hpc : s.pc = .test i c)
    (hC : Roomy cfg s .run) : Inv cfg (s.test cfg c i) := by
  have howes := hI.owes_eq_false (by simp [hpc])
  cases i with
  | enqueueOp =>
    show Inv cfg (if _ then _ else _)
    split
    next hroom =>
      obtain ⟨hb, hk⟩ := hI.push hroom (.op c)
      exact .settle hb hk howes nofun
    next => exact ⟨hI.bound, hI.kept, fun _ => ⟨c, rfl⟩, nofun⟩
  | submitSqe =>
    rw [Roomy, hpc] at hC
    have hC : s.HasRoom cfg := hC
    rw [State.test, if_pos hC]
    obtain ⟨hb, hk⟩ := hI.push hC (.op c)
    refine ⟨hb, hk, fun hs => ?_, fun tail h => ?_⟩
    · have hs : s.owes = true := hs
      rw [howes] at hs
      cases hs
    · cases h
      refine ⟨rfl, ?_⟩
      show s.ring.tail + 1 ≠ s.ring.head
      rw [State.HasRoom] at hC
      bv_omega

theorem Inv.rearm (hI : Inv cfg s) {q : Cqe} {l : List Cqe} {back : Option (Issuer × C)}
    (hpc : s.pc = .reap (q :: l) back) (hC : Roomy cfg s .run) :
    Inv cfg ((s.rearm cfg q).goto (.reap l back)) := by
  have howes := hI.owes_eq_false (by simp [hpc])
  rw [Roomy, hpc] at hC
  cases q with
  | wake more =>
    cases more with
    | true => exact .settle hI.bound hI.kept howes nofun
    | false =>
      obtain ⟨hb, hk⟩ := hI.push hC (.poll .wake)
      exact .settle hb hk howes nofun
  | epoll =>
    show Inv cfg ((if _ then _ else _ : State C).goto _)
    split
    next he =>
      obtain ⟨hb, hk⟩ := hI.push (hC he) (.poll .epoll)
      exact .settle hb hk howes nofun
    next => exact .settle hI.bound hI.kept howes nofun
  | other => exact .settle hI.bound hI.kept howes nofun

theorem afterFlush_ne_enter (c : Option C) (tail : BitVec 32) : State.afterFlush c ≠ .enter tail := by
  cases c <;> nofun

theorem afterDrain_ne_enter (back : Option (Issuer × C)) (tail : BitVec 32) :
    State.afterDrain back ≠ .enter tail := by
  cases back <;> nofun

theorem Inv.run (hI : Inv cfg s) (hC : Roomy cfg s .run) (h : s.run cfg = some s') : Inv cfg s' := by
  unfold State.run at h
  split at h
  next i c hpc =>
    cases h
    exact hI.test hpc hC
  next c hpc =>
    split at h <;> cases h
    next htail =>
      -- The flush of a full queue is not skipped, so this one was not owed.
      refine .settle hI.bound hI.kept (hI.owes_eq_false fun c' hc => ?_) (afterFlush_ne_enter c)
      rw [Roomy, hc] at hC
      exact hC htail
  next back hpc =>
    cases h
    exact .settle hI.bound hI.kept (hI.owes_eq_false (by simp [hpc])) (afterDrain_ne_enter back)
  next q l back hpc =>
    cases h
    exact hI.rearm hpc hC
  next => cases h

theorem Inv.entered (hI : Inv cfg s) {n : Option ℕ} (h : s.entered n = some s') : Inv cfg s' := by
  unfold State.entered at h
  split at h
  next c hpc =>
    split at h <;> cases h
    exact .settle (s := { s with owes := false }) hI.bound hI.kept rfl (afterFlush_ne_enter c)
  next c n hpc =>
    split at h
    · cases h
    · obtain ⟨t, ht, rfl⟩ := Option.map_eq_some_iff.mp h
      obtain ⟨-, hle, hkept, howes⟩ := take_spec ht
      exact .settle (BitVec.le_trans hle hI.bound) (hkept.trans hI.kept) howes (afterFlush_ne_enter c)
  next tail hpc =>
    cases h
    refine .settle (s := { s with ring := { s.ring with tail := tail }, owes := false }) ?_ hI.kept rfl nofun
    -- The tail goes back over an entry that was just queued.
    show tail - s.ring.head ≤ cfg.entries
    have hb := hI.bound
    obtain ⟨htail, hne⟩ := hI.queued tail hpc
    bv_omega
  next n hpc =>
    obtain ⟨t, ht, rfl⟩ := Option.map_eq_some_iff.mp h
    obtain ⟨-, hle, hkept, howes⟩ := take_spec ht
    exact .settle (BitVec.le_trans hle hI.bound) (hkept.trans hI.kept) howes nofun
  next => cases h

theorem Pc.isIdle_iff {pc : Pc C} : pc.isIdle = true ↔ pc = .idle := by
  cases pc with
  | idle => exact iff_of_true rfl rfl
  | _ => exact iff_of_false nofun nofun

theorem Inv.step (hI : Inv cfg s) {a : Action C} (hC : Roomy cfg s a) (h : step cfg s a = some s') : Inv cfg s' := by
  have hidle : s.pc.isIdle = true → s.owes = false := fun hp =>
    hI.owes_eq_false (by simp [Pc.isIdle_iff.mp hp])
  cases a with
  | run => exact hI.run hC h
  | entered n => exact hI.entered h
  | completions l =>
    simp only [LoopQueue.step] at h
    split at h <;> cases h
    next back hpc => exact .settle hI.bound hI.kept (hI.owes_eq_false (by simp [hpc])) nofun
  | enqueuePoll p =>
    obtain ⟨hp, ⟨⟩⟩ := Option.ite_none_right_eq_some.mp h
    obtain ⟨hb, hk⟩ := hI.push hC (.poll p)
    exact .settle hb hk (hidle hp) (by simp [Pc.isIdle_iff.mp hp])
  | call i c | loopFlush | loopDrain =>
    obtain ⟨hp, ⟨⟩⟩ := Option.ite_none_right_eq_some.mp h
    exact .settle hI.bound hI.kept (hidle hp) nofun

/-- As long as polls and direct submissions find room, the queue stays within its bounds. -/
theorem queue_within_bounds (h : (loopQueue C cfg).ReachableWith (Roomy cfg) s) : WithinBounds cfg s := by
  have hI : Inv cfg s := h.invariant (fun _ => Inv.init) fun _ _ _ hI hC hs => hI.step hC hs
  exact ⟨hI.bound, hI.kept, fun i c hpc => hI.owes_eq_false (by simp [hpc])⟩

/-! ## A full queue -/

def newRing : State ℕ := ⟨⟨0, 0, fun _ => 0, fun _ => none⟩, 0, .idle, [], false⟩

/-- The default of `RUNLOOM_IOURING_ENTRIES`, and the ring of its tests. -/
def default64 : Config := ⟨6, true⟩

def tiny4 : Config := ⟨2, true⟩

/-- The hub arms its polls, and `n` fibers queue an op each. -/
def fillUp (n : ℕ) : List (Action ℕ) :=
  [.enqueuePoll .wake, .enqueuePoll .epoll, .loopFlush, .entered (some 2)] ++
    (List.range n).flatMap fun c => [Action.call .enqueueOp c, .run]

/-- A direct submission finds the queue full and drains a completion: the poll that it queues again is written over
the op at the head. -/
theorem full_queue_overflows : ¬∀ s, (loopQueue ℕ default64).Reachable s → WithinBounds default64 s := by
  intro hall
  obtain ⟨s, hr, hp⟩ := (loopQueue ℕ default64).reaches (fun s => s.overwritten = [.op 0])
    (fillUp 64 ++ [.call .submitSqe 64, .run, .completions [.epoll], .run])
    (s := newRing) ⟨rfl, rfl, rfl, rfl, rfl⟩ (by decide +kernel)
  have hkept := (hall s hr).kept
  rw [hp] at hkept
  cases hkept

instance (cfg : Config) (s : State C) : ∀ pc : Pc C, Decidable (pc.Roomy cfg s)
  | .test .submitSqe _ | .reap (.wake false :: _) _ => inferInstanceAs (Decidable (_ < _))
  | .reap (.epoll :: _) _ => inferInstanceAs (Decidable (_ → _ < _))
  | .flush (some _) => inferInstanceAs (Decidable (_ ≠ _))
  | .idle | .test .enqueueOp _ | .flush none | .drain _ | .reap [] _ | .reap (.wake true :: _) _
  | .reap (.other :: _) _ | .enter _ => .isTrue trivial

instance (cfg : Config) (s : State C) : ∀ a, Decidable (Roomy cfg s a)
  | .enqueuePoll _ => inferInstanceAs (Decidable (_ < _))
  | .run => inferInstanceAs (Decidable (s.pc.Roomy cfg s))
  | .call _ _ | .loopFlush | .loopDrain | .entered _ | .completions _ => .isTrue trivial

/-- One more op flushes a full queue and drains the same completion, and there is room. -/
theorem queue_within_bounds_flushed :
    ∃ s, (loopQueue ℕ tiny4).ReachableWith (Roomy tiny4) s ∧ s.pc = .test .enqueueOp 4 ∧ WithinBounds tiny4 s := by
  obtain ⟨s, hr, hp⟩ := (loopQueue ℕ tiny4).reachesWith (Roomy tiny4) (fun s => s.pc = .test .enqueueOp 4)
    (fillUp 4 ++ [.call .enqueueOp 4, .run, .entered (some 4), .completions [.epoll], .run, .run])
    (s := newRing) ⟨rfl, rfl, rfl, rfl, rfl⟩ (by decide +kernel)
  exact ⟨s, hr, hp, queue_within_bounds hr⟩

end Runloom.LoopQueue
