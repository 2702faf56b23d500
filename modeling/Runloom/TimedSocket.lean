import Mathlib.Algebra.Order.Group.Int
import Runloom.Transition.History

/-!
# Timed socket operations

Model of the wait loops of the cooperative socket calls on a socket with a timeout: an attempt that would block, a
`wait_fd` with a timeout in milliseconds, and the next attempt. `recv`, `recv_into`, the calls over `_wait_io` and
`connect` give every wait the whole timeout; `send`, `sendall` and `_recv_waitall` give it what is left until a
deadline. Times are in nanoseconds.
-/

namespace Runloom.TimedSocket

open Transition

def ms : ℤ := 1000000

/-- `max(1, int(t * 1000))`. -/
def timeoutMs (t : ℤ) : ℤ := max 1 (t / ms)

/-- How long a wait of a call may take. -/
inductive Waits where
  | whole
  | remaining

/-- A call with `partly` goes on until `total` bytes are moved, or until an attempt moves none when it has `eof`. -/
structure Call where
  waits : Waits
  partly : Bool
  eof : Bool
  total : ℕ
  t : ℤ

def patchedSendall (total : ℕ) (t : ℤ) : Call := ⟨.remaining, true, false, total, t⟩

/-- `recv` and `recv_into` with `MSG_WAITALL`. -/
def recvWaitall (total : ℕ) (t : ℤ) : Call := ⟨.remaining, true, true, total, t⟩

/-- A wait that was given to `wait_fd`. -/
structure Wait where
  since : ℤ
  timeout : ℤ

def Wait.until (w : Wait) : ℤ := w.since + w.timeout * ms

inductive Pc where
  | attempt
  | waiting (w : Wait)
  | returned (n : ℕ)
  | timedOut
  | raised

/-- `moved` is `sent` or `got`; `waits` are the waits so far. -/
structure State where
  now : ℤ
  moved : ℕ
  waits : List Wait
  pc : Pc

/-- What an attempt meets. -/
inductive Attempt where
  | done (n : ℕ)
  /-- `BlockingIOError` or `InterruptedError`, or a connect that is in progress. -/
  | wouldBlock
  | fails

inductive Action where
  | delay (d : ℕ)
  | attempt (r : Attempt)
  /-- `wait_fd` returns at the time `t`, with 0 when it is not `ready`. -/
  | wake (t : ℤ) (ready : Bool)
  /-- `wait_fd` is cancelled. -/
  | cancel

/-- `start` is the time at which the call began, and a deadline is taken from it. -/
def block (c : Call) (start : ℤ) (s : State) : State :=
  match c.waits with
  | .whole =>
    let w : Wait := ⟨s.now, timeoutMs c.t⟩
    { s with waits := s.waits ++ [w], pc := .waiting w }
  | .remaining =>
    let rem := start + c.t - s.now
    if rem ≤ 0 then { s with pc := .timedOut }
    else
      let w : Wait := ⟨s.now, timeoutMs rem⟩
      { s with waits := s.waits ++ [w], pc := .waiting w }

def step (c : Call) (start : ℤ) (s : State) : Action → Option State
  | .delay d =>
    match s.pc with
    | .attempt => some { s with now := s.now + d }
    | _ => none
  | .attempt r =>
    match s.pc with
    | .attempt =>
      -- `while got < nbytes` and `while sent < len(view)`
      if c.partly ∧ c.total ≤ s.moved then some { s with pc := .returned s.moved }
      else
        match r with
        | .fails => some { s with pc := .raised }
        | .wouldBlock => some (block c start s)
        | .done n =>
          if c.partly then
            if c.eof ∧ n = 0 then some { s with pc := .returned s.moved }
            else some { s with moved := s.moved + n }
          else some { s with pc := .returned n }
    | _ => none
  | .wake t ready =>
    match s.pc with
    | .waiting w =>
      if s.now ≤ t ∧ t ≤ w.until then
        some { s with now := t, pc := if ready then .attempt else .timedOut }
      else none
    | _ => none
  | .cancel =>
    match s.pc with
    | .waiting _ => some { s with pc := .raised }
    | _ => none

/-- The call `c` that begins at the time `start`. -/
def socketCall (c : Call) (start : ℤ) : System State Action where
  init s := s = ⟨start, 0, [], .attempt⟩
  step := step c start

end Runloom.TimedSocket

/-!
## Which timed operations end by their deadline

The waits that are given what is left until the deadline never reach beyond it by more than the rounding.
-/

namespace Runloom.TimedSocket

open Transition List

variable {c : Call} {start : ℤ} {s u : State} {blocked : List ℤ}

/-! ## Rounding -/

theorem timeoutMs_le {r : ℤ} (hr : 0 < r) : timeoutMs r * ms ≤ r + ms := by
  have hdiv := Int.ediv_mul_le r (show ms ≠ 0 by decide)
  rcases max_cases 1 (r / ms) with ⟨hmax, -⟩ | ⟨hmax, -⟩
  · rw [timeoutMs, hmax]
    omega
  · rw [timeoutMs, hmax]
    have : (0 : ℤ) < ms := by decide
    omega

def State.Attempts (c : Call) (s : State) : Prop :=
  match s.pc with
  | .attempt => ¬(c.partly = true ∧ c.total ≤ s.moved)
  | _ => False

instance (c : Call) (s : State) : Decidable (s.Attempts c) := by
  unfold State.Attempts
  split <;> infer_instance

def note (c : Call) (blocked : List ℤ) (s : State) : Action → State → List ℤ
  | .attempt .wouldBlock, _ => if s.Attempts c then blocked ++ [s.now] else blocked
  | _, _ => blocked

def noted (c : Call) (start : ℤ) : System (State × List ℤ) Action := (socketCall c start).withHistory [] (note c)

/-! ## The invariant -/

structure Inv (c : Call) (start : ℤ) (s : State) (blocked : List ℤ) : Prop where
  whole (hw : c.waits = .whole) : s.waits = blocked.map fun b => ⟨b, timeoutMs c.t⟩
  remaining (hw : c.waits = .remaining) : ∀ w ∈ s.waits, w.until ≤ start + c.t + ms
  waiting (w : Wait) (hw : s.pc = .waiting w) : w ∈ s.waits ∧ s.now ≤ w.until

theorem Inv.move (hI : Inv c start s blocked) (hw : u.waits = s.waits) (hpc : ∀ w, u.pc ≠ .waiting w) :
    Inv c start u blocked :=
  ⟨fun h => hw.trans (hI.whole h), fun h w hm => hI.remaining h w (hw ▸ hm), fun w h => absurd h (hpc w)⟩

theorem now_le_until (n : ℤ) (r : ℤ) : n ≤ (Wait.mk n (timeoutMs r)).until := by
  have hone : 1 ≤ timeoutMs r := le_max_left 1 _
  have hpos : (0 : ℤ) < ms := by decide
  have := Int.mul_le_mul_of_nonneg_right hone hpos.le
  show n ≤ n + timeoutMs r * ms
  omega

theorem Inv.block (hI : Inv c start s blocked) : Inv c start (block c start s) (blocked ++ [s.now]) := by
  unfold TimedSocket.block
  cases hk : c.waits with
  | whole =>
    refine ⟨fun _ => ?_, fun h => ?_, fun w hw => ?_⟩
    · dsimp only
      rw [hI.whole hk, map_append]
      rfl
    · rw [hk] at h
      cases h
    · cases hw
      exact ⟨mem_append_right _ mem_cons_self, now_le_until _ _⟩
  | remaining =>
    dsimp only
    have hnot : c.waits ≠ .whole := by
      rw [hk]
      nofun
    split
    next => exact ⟨fun h => absurd h hnot, hI.remaining, nofun⟩
    next hrem =>
      refine ⟨fun h => absurd h hnot, fun _ w hw => ?_, fun w hw => ?_⟩
      · rcases mem_append.mp hw with hw | hw
        · exact hI.remaining hk w hw
        · -- the new wait ends at the deadline, or a millisecond after it began
          have hle := timeoutMs_le (lt_of_not_ge hrem)
          rw [mem_singleton.mp hw]
          show s.now + timeoutMs (start + c.t - s.now) * ms ≤ _
          omega
      · cases hw
        exact ⟨mem_append_right _ mem_cons_self, now_le_until _ _⟩

theorem Inv.step {a : Action} (hI : Inv c start s blocked) (hs : (socketCall c start).step s a = some u) :
    Inv c start u (note c blocked s a u) := by
  cases a with
  | delay d =>
    simp only [socketCall, TimedSocket.step] at hs
    split at hs <;> cases hs
    next hpc => exact hI.move rfl fun w hw => by rw [hpc] at hw; cases hw
  | attempt r =>
    simp only [socketCall, TimedSocket.step] at hs
    split at hs
    next hpc =>
      split at hs
      next hdone =>
        cases hs
        have hnote : note c blocked s (.attempt r) { s with pc := .returned s.moved } = blocked := by
          have hno : ¬s.Attempts c := by
            unfold State.Attempts
            rw [hpc]
            exact not_not_intro hdone
          cases r with
          | wouldBlock => exact if_neg hno
          | done _ | fails => rfl
        rw [hnote]
        exact hI.move rfl nofun
      next hmore =>
        cases r with
        | fails =>
          cases hs
          exact hI.move rfl nofun
        | wouldBlock =>
          cases hs
          have hyes : s.Attempts c := by
            unfold State.Attempts
            rw [hpc]
            exact hmore
          rw [show note c blocked s (.attempt .wouldBlock) _ = blocked ++ [s.now] from if_pos hyes]
          exact hI.block
        | done n =>
          dsimp only at hs
          split at hs
          · split at hs <;> cases hs
            · exact hI.move rfl nofun
            · exact hI.move rfl fun w hw => by rw [hpc] at hw; cases hw
          · cases hs; exact hI.move rfl nofun
    next => cases hs
  | wake t ready =>
    simp only [socketCall, TimedSocket.step] at hs
    split at hs
    · split at hs <;> cases hs
      refine hI.move rfl fun w hw => ?_
      cases ready <;> cases hw
    · cases hs
  | cancel =>
    simp only [socketCall, TimedSocket.step] at hs
    split at hs <;> cases hs
    exact hI.move rfl nofun

theorem inv_of_reachable {x : State × List ℤ} (hx : (noted c start).Reachable x) : Inv c start x.1 x.2 := by
  refine hx.invariant (P := fun x => Inv c start x.1 x.2) ?_ ?_
  · rintro ⟨s, blocked⟩ ⟨hi, rfl⟩
    cases hi
    exact ⟨fun _ => rfl, fun _ w hw => absurd hw not_mem_nil, nofun⟩
  · rintro ⟨s, blocked⟩ a ⟨u, blocked'⟩ hI - hs
    obtain ⟨hs, hnote⟩ := System.withHistory_step hs
    rw [hnote]
    exact hI.step hs

/-! ## The deadline -/

end Runloom.TimedSocket
