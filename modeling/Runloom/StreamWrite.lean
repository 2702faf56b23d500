import Mathlib.Data.Int.Notation
import Runloom.StreamTransport.Model

/-!
# The write side of a stream transport

Model of `write`, `_drain_step`, the watermarks and the closing of `_StreamTransport`.  Callbacks may make any call,
and raise; they do not park, so that `stack` has those that are running.  A `send` of the io fiber may park (over
TLS), so that a drain is two steps.  `accepted`, `sent`, `calls` and the last four fields are history.
-/

namespace Runloom.StreamWrite

open Transition List
open StreamTransport (Send)

/-- A callback that runs, with what the transport does after it. -/
inductive Frame where
  /-- `pause_writing`, in `write`. -/
  | write
  /-- `pause_writing`, in `set_write_buffer_limits`. -/
  | limits
  /-- `resume_writing`, in `set_write_buffer_limits`. -/
  | resumed
  /-- `resume_writing`, in `_drain_step`. -/
  | drain

structure State (β : Type) where
  closed : Bool
  stopping : Bool
  closeWhenDrained : Bool
  eofPending : Bool
  eofWritten : Bool
  buf : List β
  sending : Option (List β)
  protocolPaused : Bool
  high : ℤ
  low : ℤ
  stack : List Frame
  accepted : List β
  sent : List β
  /-- The calls of `pause_writing` (`true`) and `resume_writing`. -/
  calls : List Bool
  graceful : Bool
  aborted : Bool
  sendError : Bool
  /-- `connection_lost` was scheduled. -/
  lost : Bool

/-- `item` is the size of an item of the data; `send` is the outcome on the fast path. `writelines` is a write for
each line. -/
inductive Action (β : Type) where
  | write (data : List β) (item : ℕ) (send : Send)
  | close (exc : Bool)
  | abort
  | writeEof
  | setLimits (high low : Option ℤ)
  | drainStart
  | drainEnd (send : Send)
  /-- A callback ends; what is not an `Exception` escapes. -/
  | ret (escapes : Bool)

variable {β : Type}

/-- The bytes that a `send` took. -/
def took : Send → ℕ
  | .sent n => n
  | .blocked | .error => 0

namespace State

def initial (β : Type) : State β :=
  ⟨false, false, false, false, false, [], none, false, 64 * 1024, 16 * 1024, [], [], [], [], false, false, false, false⟩

/-- The test of `_maybe_pause_writing`. -/
def Pauses (s : State β) : Prop := s.protocolPaused = false ∧ s.high < s.buf.length

instance (s : State β) : Decidable s.Pauses := inferInstanceAs (Decidable (_ ∧ _))

def pause (s : State β) (f : Frame) : State β :=
  { s with protocolPaused := true, calls := s.calls ++ [true], stack := f :: s.stack }

/-- The test of `_maybe_resume_writing`. -/
def Resumes (s : State β) : Prop := s.protocolPaused = true ∧ s.buf.length ≤ s.low

instance (s : State β) : Decidable s.Resumes := inferInstanceAs (Decidable (_ ∧ _))

def resume (s : State β) (f : Frame) : State β :=
  { s with protocolPaused := false, calls := s.calls ++ [false], stack := f :: s.stack }

/-- `_stopping`, and `_deliver_connection_lost`. -/
def tearDown (s : State β) : State β := { s with closeWhenDrained := false, stopping := true, lost := true }

def close (s : State β) (exc : Bool) : State β :=
  if s.closed then s
  else
    let s := { s with closed := true, graceful := !exc }
    if !exc && !s.buf.isEmpty then { s with closeWhenDrained := true } else s.tearDown

def abort (s : State β) : State β :=
  let s := { s with buf := [], aborted := true }
  if !s.closed then s.close false else if s.stopping then s else s.tearDown

def writeEof (s : State β) : State β :=
  if s.closed || s.eofWritten || s.eofPending then s
  else if !s.buf.isEmpty then { s with eofPending := true } else { s with eofWritten := true }

/-- The end of `write`. -/
def queue (s : State β) (data : List β) : State β :=
  let s := { s with buf := s.buf ++ data }
  if s.Pauses then s.pause .write else s

/-- `write`; `len(data)` counts items, and so does the slice of the `memoryview`. -/
def write (s : State β) (plain : Bool) (data : List β) (item : ℕ) (send : Send) : State β :=
  if s.eofWritten || s.eofPending || s.closed || data.isEmpty then s
  else
    let s := { s with accepted := s.accepted ++ data }
    if plain && s.buf.isEmpty then
      match send with
      | .error => { s with sendError := true }.close true
      | .blocked => s.queue data
      | .sent n =>
        let s := { s with sent := s.sent ++ data.take n }
        if data.length / item ≤ n then s else s.queue (data.drop (n * item))
    else s.queue data

def setLimits (s : State β) (high low : Option ℤ) : State β :=
  let high := high.getD ((low.map (4 * ·)).getD (64 * 1024))
  let low := low.getD (high / 4)
  if 0 ≤ low ∧ low ≤ high then
    let s := { s with high, low }
    if s.Pauses then s.pause .limits else if s.Resumes then s.resume .resumed else s
  else s

/-- The end of `_drain_step`. -/
def drained (s : State β) : State β :=
  if s.buf.isEmpty then
    let s := if s.eofPending && !s.eofWritten && !s.closed then { s with eofPending := false, eofWritten := true } else s
    if s.closeWhenDrained && !s.stopping then s.tearDown else s
  else s

def drainEnd (s : State β) (chunk : List β) (send : Send) : State β :=
  let s := { s with sending := none }
  match send with
  | .blocked => s
  | .error =>
    let s := { s with sendError := true }
    if s.closeWhenDrained then s.tearDown else s.close true
  | .sent n =>
    if n = 0 then s.drained
    else
      let s := { s with buf := s.buf.drop n, sent := s.sent ++ chunk.take n }
      if s.Resumes then s.resume .drain else s.drained

/-- What the transport does when the callback of `f` has returned. -/
def after (s : State β) : Frame → State β
  | .limits => if s.Resumes then s.resume .resumed else s
  | .drain => s.drained
  | .write | .resumed => s

end State

/-- `plain` is `_sock_is_plain`. -/
def stream (β : Type) (plain : Bool) : System (State β) (Action β) where
  init s := s = .initial β
  step s
    | .write data item send =>
      if 0 < item ∧ item ∣ data.length ∧ took send ≤ data.length then some (s.write plain data item send) else none
    | .close exc => some (s.close exc)
    | .abort => some s.abort
    | .writeEof => some s.writeEof
    | .setLimits high low => some (s.setLimits high low)
    | .drainStart =>
      if s.stack = [] ∧ s.sending.isNone ∧ s.buf.isEmpty = false ∧ s.stopping = false then
        some { s with sending := some (s.buf.take 262144) }
      else none
    | .drainEnd send =>
      match s.sending with
      | some chunk => if s.stack = [] ∧ took send ≤ chunk.length then some (s.drainEnd chunk send) else none
      | none => none
    | .ret escapes =>
      match s.stack with
      | f :: stack => some (if escapes then { s with stack } else { s with stack }.after f)
      | [] => none

/-! ## The watermarks -/

/-- `pause_writing` first, and then by turns. -/
def alternating (n : ℕ) : List Bool := (range n).map (· % 2 == 0)

/-- The calls were made by turns, and the flag has the last one. -/
structure Turns (s : State β) : Prop where
  marks : s.low ≤ s.high
  calls : s.calls = alternating s.calls.length
  paused : s.protocolPaused = (s.calls.length % 2 == 1)

structure Level (s : State β) : Prop extends Turns s where
  level : s.closed = false → (s.protocolPaused = true → s.low < s.buf.length) ∧
    (s.protocolPaused = false → s.buf.length ≤ s.high)

variable {s t : State β} {f : Frame}

theorem Turns.level_of_closed (hT : Turns s) (h : s.closed = true) : Level s := ⟨hT, by simp [h]⟩

theorem Turns.concat {b : Bool} (hT : Turns s) (hb : s.protocolPaused = !b) :
    s.calls ++ [b] = alternating (s.calls ++ [b]).length ∧ b = ((s.calls ++ [b]).length % 2 == 1) := by
  have hparity : (s.calls.length % 2 == 0) = b := by
    have := hT.paused.symm.trans hb
    cases b <;> simp_all
  rw [length_append, length_singleton, alternating, range_succ, map_append, map_singleton, hparity]
  refine ⟨congrArg (· ++ [b]) hT.calls, ?_⟩
  cases b <;> simp_all <;> omega

theorem Turns.pause (hT : Turns s) (h : s.Pauses) : Level (s.pause f) where
  marks := hT.marks
  calls := (hT.concat (b := true) h.1).1
  paused := (hT.concat (b := true) h.1).2
  level _ := ⟨fun _ => Int.lt_of_le_of_lt hT.marks h.2, nofun⟩

theorem Turns.resume (hT : Turns s) (h : s.Resumes) : Level (s.resume f) where
  marks := hT.marks
  calls := (hT.concat (b := false) h.1).1
  paused := (hT.concat (b := false) h.1).2
  level _ := ⟨nofun, fun _ => Int.le_trans h.2 hT.marks⟩

section

variable (hL : Level s)
include hL

theorem Level.queue (hopen : s.closed = false) (data : List β) : Level (s.queue data) := by
  have hT : Turns { s with buf := s.buf ++ data } := ⟨hL.marks, hL.calls, hL.paused⟩
  dsimp only [State.queue]
  split
  next h => exact hT.pause h
  next h =>
    refine ⟨hT, fun _ => ⟨fun hp => ?_, fun hp => ?_⟩⟩
    · have := (hL.level hopen).1 hp
      simp only [length_append]
      omega
    · exact Int.not_lt.mp fun hlt => h ⟨hp, hlt⟩

theorem Level.close (exc : Bool) : Level (s.close exc) := by
  dsimp only [State.close]
  split
  · exact hL
  · split <;> exact Turns.level_of_closed ⟨hL.marks, hL.calls, hL.paused⟩ rfl

theorem Level.abort : Level s.abort := by
  dsimp only [State.abort]
  split
  next h =>
    rw [State.close, if_neg (by simpa using h)]
    exact Turns.level_of_closed ⟨hL.marks, hL.calls, hL.paused⟩ rfl
  next h =>
    have h : s.closed = true := by simpa using h
    split <;> exact Turns.level_of_closed ⟨hL.marks, hL.calls, hL.paused⟩ h

theorem Level.write (plain : Bool) (data : List β) (item : ℕ) (send : Send) :
    Level (s.write plain data item send) := by
  dsimp only [State.write]
  split
  · exact hL
  next h =>
    have hopen : s.closed = false := by simp at h; exact h.1.2
    have hL' (sent accepted : List β) : Level { s with sent, accepted } := ⟨⟨hL.marks, hL.calls, hL.paused⟩, hL.level⟩
    split
    · cases send with
      | error =>
        have hL : Level { s with accepted := s.accepted ++ data, sendError := true } :=
          ⟨⟨hL.marks, hL.calls, hL.paused⟩, hL.level⟩
        exact hL.close true
      | blocked => exact (hL' s.sent (s.accepted ++ data)).queue hopen data
      | sent n =>
        dsimp only
        split
        · exact hL' _ _
        · exact (hL' (s.sent ++ data.take n) (s.accepted ++ data)).queue hopen _
    · exact (hL' s.sent (s.accepted ++ data)).queue hopen data

theorem Level.setLimits (high low : Option ℤ) : Level (s.setLimits high low) := by
  dsimp only [State.setLimits]
  split
  next h =>
    have hT : Turns { s with high := high.getD ((low.map (4 * ·)).getD (64 * 1024)), low := _ } :=
      ⟨h.2, hL.calls, hL.paused⟩
    split
    next hp => exact hT.pause hp
    next hp =>
      split
      next hr => exact hT.resume hr
      next hr =>
        exact ⟨hT, fun _ => ⟨fun hpaused => Int.not_le.mp fun hle => hr ⟨hpaused, hle⟩,
          fun hpaused => Int.not_lt.mp fun hlt => hp ⟨hpaused, hlt⟩⟩⟩
  · exact hL

theorem Level.drained : Level s.drained := by
  dsimp only [State.drained]
  split
  · split <;> split <;> exact ⟨⟨hL.marks, hL.calls, hL.paused⟩, hL.level⟩
  · exact hL

theorem Level.drainEnd (chunk : List β) (send : Send) : Level (s.drainEnd chunk send) := by
  cases send with
  | blocked => exact ⟨⟨hL.marks, hL.calls, hL.paused⟩, hL.level⟩
  | error =>
    have hL : Level { s with sending := none, sendError := true } := ⟨⟨hL.marks, hL.calls, hL.paused⟩, hL.level⟩
    dsimp only [State.drainEnd]
    split
    · exact ⟨⟨hL.marks, hL.calls, hL.paused⟩, hL.level⟩
    · exact hL.close true
  | sent n =>
    have hT : Turns { s with sending := none, buf := s.buf.drop n, sent := s.sent ++ chunk.take n } :=
      ⟨hL.marks, hL.calls, hL.paused⟩
    dsimp only [State.drainEnd]
    split
    · exact Level.drained (s := { s with sending := none }) ⟨⟨hL.marks, hL.calls, hL.paused⟩, hL.level⟩
    · split
      next hr => exact hT.resume hr
      next hr =>
        refine Level.drained ⟨hT, fun hopen => ⟨fun hp => Int.not_le.mp fun hle => hr ⟨hp, hle⟩, fun hp => ?_⟩⟩
        have := (hL.level hopen).2 hp
        simp only [length_drop]
        omega

theorem Level.after (f : Frame) : Level (s.after f) := by
  cases f with
  | limits =>
    dsimp only [State.after]
    split
    next hr => exact hL.resume hr
    next => exact hL
  | drain => exact hL.drained
  | write | resumed => exact hL

theorem Level.step {plain : Bool} {a : Action β} (hs : (stream β plain).step s a = some t) :
    Level t := by
  cases a with
  | write data item send =>
    obtain ⟨-, ⟨⟩⟩ := Option.ite_none_right_eq_some.mp hs
    exact hL.write plain data item send
  | close exc =>
    cases hs
    exact hL.close exc
  | abort =>
    cases hs
    exact hL.abort
  | writeEof =>
    cases hs
    dsimp only [State.writeEof]
    split
    · exact hL
    · split <;> exact ⟨⟨hL.marks, hL.calls, hL.paused⟩, hL.level⟩
  | setLimits high low =>
    cases hs
    exact hL.setLimits high low
  | drainStart =>
    obtain ⟨-, ⟨⟩⟩ := Option.ite_none_right_eq_some.mp hs
    exact ⟨⟨hL.marks, hL.calls, hL.paused⟩, hL.level⟩
  | drainEnd send =>
    simp only [stream] at hs
    split at hs
    next chunk _ =>
      obtain ⟨-, ⟨⟩⟩ := Option.ite_none_right_eq_some.mp hs
      exact hL.drainEnd chunk send
    next => cases hs
  | ret escapes =>
    simp only [stream] at hs
    split at hs <;> cases hs
    next f stack _ =>
      have hL : Level { s with stack } := ⟨⟨hL.marks, hL.calls, hL.paused⟩, hL.level⟩
      cases escapes with
      | true => exact hL
      | false => exact hL.after f

end

/-- The two callbacks are called by turns, and on an open transport the protocol is paused above the high mark, and
only above the low one. -/
theorem write_flow_control {plain : Bool} (h : (stream β plain).Reachable s) :
    s.calls = alternating s.calls.length ∧ s.protocolPaused = (s.calls.length % 2 == 1) ∧
      (s.closed = false → (s.protocolPaused = true → s.low < s.buf.length) ∧
        (s.protocolPaused = false → s.buf.length ≤ s.high)) := by
  have hL : Level s := by
    refine h.invariant (P := Level) ?_ fun s a t hL _ hs => hL.step hs
    rintro s rfl
    exact ⟨⟨by simp [State.initial], rfl, rfl⟩, fun _ => ⟨nofun, fun _ => by simp [State.initial]⟩⟩
  exact ⟨hL.calls, hL.paused, hL.level⟩

/-- The callback that resumes writes past the high mark. -/
theorem write_flow_control_nested : ∃ s : State ℕ, (stream ℕ true).Reachable s ∧ s.calls = [true, false, true] ∧
      (s.protocolPaused = true → s.low < s.buf.length) := by
  obtain ⟨s, hr, hcalls, hopen⟩ := (stream ℕ true).reaches (fun s => s.calls = [true, false, true] ∧ s.closed = false)
    [.setLimits (some 3) (some 1), .write [0, 1, 2, 3, 4] 1 .blocked, .ret false, .drainStart, .drainEnd (.sent 4),
      .write [5, 6, 7] 1 .blocked] (s := .initial ℕ) rfl (by decide +kernel)
  exact ⟨s, hr, hcalls, ((write_flow_control hr).2.2 hopen).1⟩

/-! ## The order of the bytes -/

structure Order (s : State β) : Prop where
  whole : s.aborted = false → s.sendError = false → s.sent ++ s.buf = s.accepted
  broken : s.aborted = true ∨ s.sendError = true → s.closed = true
  prior : s.sent ++ s.buf <+: s.accepted
  chunk : ∀ c ∈ s.sending, s.sent ++ c <+: s.accepted ∧ (c <+: s.buf ∨ s.buf = [] ∧ s.aborted = true)
  scheduled : s.lost = true ∨ s.closeWhenDrained = true → s.closed = true
  done : s.lost = true → s.graceful = true → s.aborted = false → s.sendError = false → s.buf = []

/-- A `send` on the fast path takes all or nothing, where the items are not bytes. -/
def ByteItems (s : State β) : Action β → Prop
  | .write data item (.sent n) => s.buf = [] → item = 1 ∨ n = 0 ∨ n = data.length
  | _ => True

instance (s : State β) : (a : Action β) → Decidable (ByteItems s a)
  | .write data item (.sent n) =>
    decidable_of_iff (s.buf.isEmpty = true → item = 1 ∨ n = 0 ∨ n = data.length) (by simp [ByteItems])
  | .write _ _ .blocked | .write _ _ .error | .close _ | .abort | .writeEof | .setLimits .. | .drainStart
  | .drainEnd _ | .ret _ => inferInstanceAs (Decidable True)

theorem Order.whole_of_open (hO : Order s) (hopen : s.closed = false) : s.sent ++ s.buf = s.accepted := by
  apply hO.whole
  · cases ha : s.aborted with
    | false => rfl
    | true => exact absurd (hO.broken (.inl ha)) (by simp [hopen])
  · cases he : s.sendError with
    | false => rfl
    | true => exact absurd (hO.broken (.inr he)) (by simp [hopen])

theorem Order.extend (hO : Order s) (hopen : s.closed = false) {accepted sent buf : List β}
    (hwhole : sent ++ buf = accepted) (hbuf : s.buf <+: buf) : Order { s with accepted, sent, buf } where
  whole _ _ := hwhole
  broken := hO.broken
  prior := hwhole ▸ prefix_rfl
  chunk c hc := by
    have hcbuf : c <+: buf := by
      rcases (hO.chunk c hc).2 with h | h
      · exact h.trans hbuf
      · exact absurd (hO.broken (.inl h.2)) (by simp [hopen])
    refine ⟨?_, .inl hcbuf⟩
    show sent ++ c <+: accepted
    rw [← hwhole]
    exact (prefix_append_right_inj sent).mpr hcbuf
  scheduled := hO.scheduled
  done hlost := absurd (hO.scheduled (.inl hlost)) (by simp [hopen])

theorem Order.pause (hO : Order s) : Order (s.pause f) :=
  ⟨hO.whole, hO.broken, hO.prior, hO.chunk, hO.scheduled, hO.done⟩

theorem Order.resume (hO : Order s) : Order (s.resume f) :=
  ⟨hO.whole, hO.broken, hO.prior, hO.chunk, hO.scheduled, hO.done⟩

theorem Order.queue {data : List β} (hO : Order { s with buf := s.buf ++ data }) : Order (s.queue data) := by
  dsimp only [State.queue]
  split
  · exact hO.pause
  · exact hO

section

variable (hO : Order s)
include hO

theorem Order.tearDown (hclosed : s.closed = true)
    (hdone : s.graceful = true → s.aborted = false → s.sendError = false → s.buf = []) : Order s.tearDown :=
  ⟨hO.whole, hO.broken, hO.prior, hO.chunk, fun _ => hclosed, fun _ => hdone⟩

theorem Order.closed (graceful : Bool) (hopen : s.closed = false) : Order { s with closed := true, graceful } :=
  ⟨hO.whole, fun _ => rfl, hO.prior, hO.chunk, fun _ => rfl,
    fun hlost => absurd (hO.scheduled (.inl hlost)) (by simp [hopen])⟩

theorem Order.close (exc : Bool) : Order (s.close exc) := by
  dsimp only [State.close]
  split
  · exact hO
  next h =>
    have hO := hO.closed (!exc) (by simpa using h)
    split
    · exact ⟨hO.whole, hO.broken, hO.prior, hO.chunk, fun _ => rfl, hO.done⟩
    next h => exact hO.tearDown rfl fun hg _ _ => by simp_all

theorem Order.abort : Order s.abort := by
  have hprior : s.sent ++ [] <+: s.accepted := by
    rw [append_nil]
    exact (prefix_append _ _).trans hO.prior
  have hO' (closed graceful : Bool) (hc : closed = true) :
      Order { s with buf := [], aborted := true, closed, graceful } :=
    ⟨nofun, fun _ => hc, hprior, fun c hc' => ⟨(hO.chunk c hc').1, .inr ⟨rfl, rfl⟩⟩, fun _ => hc, fun _ _ ha => nomatch ha⟩
  dsimp only [State.abort]
  split
  next h =>
    rw [State.close, if_neg (by simpa using h)]
    exact (hO' true true rfl).tearDown rfl fun _ ha => nomatch ha
  next h =>
    have hO' := hO' s.closed s.graceful (by simpa using h)
    split
    · exact hO'
    · exact hO'.tearDown (by simpa using h) fun _ ha => nomatch ha

/-- A `send` fails: the transport is closed with the error. -/
theorem Order.fail {accepted : List β} (h : s.accepted <+: accepted) :
    Order ({ s with accepted, sendError := true }.close true) := by
  have hO' (closed graceful : Bool) (hc : closed = true) :
      Order { s with accepted, sendError := true, closed, graceful } :=
    ⟨fun _ he => (nomatch he), fun _ => hc, hO.prior.trans h,
      fun c hc' => ⟨(hO.chunk c hc').1.trans h, (hO.chunk c hc').2⟩, fun _ => hc,
      fun _ _ _ he => nomatch he⟩
  dsimp only [State.close]
  split
  next h => exact hO' s.closed s.graceful h
  next => exact (hO' true false rfl).tearDown rfl fun _ _ he => nomatch he

theorem Order.write {plain : Bool} {data : List β} {item : ℕ} {send : Send} (hitem : item ∣ data.length)
    (hn : took send ≤ data.length) (hC : ByteItems s (.write data item send)) :
    Order (s.write plain data item send) := by
  dsimp only [State.write]
  split
  · exact hO
  next h =>
    have hdata : data ≠ [] := by simp at h; exact h.2
    have hopen : s.closed = false := by simp at h; exact h.1.2
    have hwhole := hO.whole_of_open hopen
    have hqueue : Order ({ s with accepted := s.accepted ++ data }.queue data) := by
      apply Order.queue
      exact hO.extend hopen (by rw [← append_assoc, hwhole]) (prefix_append _ _)
    split
    next hfast =>
      have hbuf : s.buf = [] := by simp at hfast; exact hfast.2
      rw [hbuf, append_nil] at hwhole
      cases send with
      | error => exact hO.fail (prefix_append _ _)
      | blocked => exact hqueue
      | sent n =>
        have hC := hC hbuf
        have hle : data.length / item ≤ data.length := Nat.div_le_self _ _
        have hpos : 0 < data.length / item :=
          Nat.div_pos (Nat.le_of_dvd (length_pos_iff.mpr hdata) hitem)
            (Nat.pos_of_dvd_of_pos hitem (length_pos_iff.mpr hdata))
        dsimp only
        split
        next hall =>
          have htake : data.take n = data := by
            apply take_of_length_le
            rcases hC with rfl | rfl | rfl
            · simpa using hall
            · omega
            · exact Nat.le_refl _
          exact hO.extend hopen (by rw [htake, hbuf, append_nil, hwhole]) prefix_rfl
        next hpart =>
          have hdrop : n * item = n := by
            rcases hC with rfl | rfl | rfl
            · exact Nat.mul_one n
            · exact Nat.zero_mul item
            · exact absurd hle hpart
          apply Order.queue
          refine hO.extend hopen ?_ (prefix_append _ _)
          rw [hdrop, hbuf, nil_append, append_assoc, take_append_drop, hwhole]
    next => exact hqueue

theorem Order.drained : Order s.drained := by
  dsimp only [State.drained]
  split
  next hbuf =>
    have hdone : s.buf = [] := by simpa using hbuf
    have hend {t : State β} (hO : Order t) (hbuf : t.buf = []) :
        Order (if t.closeWhenDrained && !t.stopping then t.tearDown else t) := by
      split
      next h => exact hO.tearDown (hO.scheduled (.inr ((Bool.and_eq_true_iff.mp h).1))) fun _ _ _ => hbuf
      next => exact hO
    split
    · exact hend (t := { s with eofPending := false, eofWritten := true })
        ⟨hO.whole, hO.broken, hO.prior, hO.chunk, hO.scheduled, hO.done⟩ hdone
    · exact hend hO hdone
  next => exact hO

theorem Order.drainEnd {c : List β} (hc : s.sending = some c) {send : Send} (hn : took send ≤ c.length) :
    Order (s.drainEnd c send) := by
  have hnone : Order { s with sending := none } := ⟨hO.whole, hO.broken, hO.prior, nofun, hO.scheduled, hO.done⟩
  cases send with
  | blocked => exact hnone
  | error =>
    dsimp only [State.drainEnd]
    split
    next h =>
      have hclosed := hO.scheduled (.inr h)
      exact ⟨fun _ he => (nomatch he), fun _ => hclosed, hO.prior, nofun, fun _ => hclosed, fun _ _ _ he => nomatch he⟩
    next => exact hnone.fail prefix_rfl
  | sent n =>
    have hsent : Order { s with sending := none, buf := s.buf.drop n, sent := s.sent ++ c.take n } := by
      obtain ⟨hprior, hcbuf⟩ := hO.chunk c hc
      rcases hcbuf with ⟨rest, hrest⟩ | ⟨hbuf, haborted⟩
      · -- the chunk is still the head of the buffer
        have hmove : s.sent ++ c.take n ++ s.buf.drop n = s.sent ++ s.buf := by
          rw [← hrest, drop_append_of_le_length (show n ≤ c.length from hn), append_assoc, ← append_assoc (take n c), take_append_drop]
        exact ⟨fun ha he => hmove.trans (hO.whole ha he), hO.broken, hmove ▸ hO.prior, nofun, hO.scheduled,
          fun hl hg ha he => by simp [hO.done hl hg ha he]⟩
      · -- the buffer was dropped during the `send`
        refine ⟨fun ha => absurd ha (by simp [haborted]), hO.broken, ?_, nofun, hO.scheduled, fun _ _ _ _ => by simp [hbuf]⟩
        simp only [hbuf, drop_nil, append_nil]
        exact ((prefix_append_right_inj _).mpr ( take_prefix n c)).trans hprior
    dsimp only [State.drainEnd]
    split
    · exact hnone.drained
    · split
      · exact hsent.resume
      · exact hsent.drained

theorem Order.after (f : Frame) : Order (s.after f) := by
  cases f with
  | limits =>
    dsimp only [State.after]
    split
    · exact hO.resume
    · exact hO
  | drain => exact hO.drained
  | write | resumed => exact hO

theorem Order.step {plain : Bool} {a : Action β} (hC : ByteItems s a)
    (hs : (stream β plain).step s a = some t) : Order t := by
  cases a with
  | write data item send =>
    obtain ⟨⟨-, hitem, hn⟩, ⟨⟩⟩ := Option.ite_none_right_eq_some.mp hs
    exact hO.write hitem hn hC
  | close exc =>
    cases hs
    exact hO.close exc
  | abort =>
    cases hs
    exact hO.abort
  | writeEof =>
    cases hs
    dsimp only [State.writeEof]
    split
    · exact hO
    · split <;> exact ⟨hO.whole, hO.broken, hO.prior, hO.chunk, hO.scheduled, hO.done⟩
  | setLimits high low =>
    cases hs
    dsimp only [State.setLimits]
    split
    · split
      · exact ⟨hO.whole, hO.broken, hO.prior, hO.chunk, hO.scheduled, hO.done⟩
      · split <;> exact ⟨hO.whole, hO.broken, hO.prior, hO.chunk, hO.scheduled, hO.done⟩
    · exact hO
  | drainStart =>
    obtain ⟨-, ⟨⟩⟩ := Option.ite_none_right_eq_some.mp hs
    refine ⟨hO.whole, hO.broken, hO.prior, fun c hc => ?_, hO.scheduled, hO.done⟩
    cases hc
    have hhead := take_prefix 262144 s.buf
    exact ⟨((prefix_append_right_inj _).mpr hhead).trans hO.prior, .inl hhead⟩
  | drainEnd send =>
    simp only [stream] at hs
    split at hs
    next c hc =>
      obtain ⟨⟨-, hn⟩, ⟨⟩⟩ := Option.ite_none_right_eq_some.mp hs
      exact hO.drainEnd hc hn
    next => cases hs
  | ret escapes =>
    simp only [stream] at hs
    split at hs <;> cases hs
    next f stack _ =>
      have hO : Order { s with stack } := ⟨hO.whole, hO.broken, hO.prior, hO.chunk, hO.scheduled, hO.done⟩
      cases escapes with
      | true => exact hO
      | false => exact hO.after f

end

/-- What the socket took is a prefix of what was accepted; and all of it, after a graceful close without an error or
an abort. -/
theorem write_order (h : (stream β true).ReachableWith ByteItems s) : s.sent <+: s.accepted ∧
      (s.lost = true → s.graceful = true → s.sendError = false → s.aborted = false → s.sent = s.accepted) := by
  have hO : Order s := by
    refine h.invariant (P := Order) ?_ fun s a t hO hC hs => hO.step hC hs
    rintro s rfl
    exact ⟨fun _ _ => rfl, nofun, prefix_rfl, nofun, nofun, nofun⟩
  refine ⟨(prefix_append _ _).trans hO.prior, fun hlost hg he ha => ?_⟩
  rw [← hO.whole ha he, hO.done hlost hg ha he, append_nil]

/-- A write of two bytes of which one is sent, a close, and the drain. -/
theorem write_order_graceful :
    ∃ s : State ℕ, (stream ℕ true).ReachableWith ByteItems s ∧ s.lost = true ∧ s.accepted = [1, 2] ∧
      s.sent = s.accepted := by
  obtain ⟨s, hr, hlost, hg, he, ha, hacc⟩ := (stream ℕ true).reachesWith ByteItems
    (fun s => s.lost = true ∧ s.graceful = true ∧ s.sendError = false ∧ s.aborted = false ∧
      s.accepted = [1, 2])
    [.write [1, 2] 1 (.sent 1), .close false, .drainStart, .drainEnd (.sent 1)] (s := .initial ℕ) rfl
    (by decide +kernel)
  exact ⟨s, hr, hlost, hacc, (write_order hr).2 hlost hg he ha⟩

/-- Four items of four bytes, and the socket takes four bytes: `n >= len(data)` holds, and the rest is dropped. -/
theorem items_dropped :
    ∃ s : State ℕ, (stream ℕ true).Reachable s ∧ s.lost = true ∧ s.graceful = true ∧ s.sendError = false ∧
      s.aborted = false ∧ s.sent ≠ s.accepted ∧ ¬s.sent <+: s.accepted := by
  exact (stream ℕ true).reaches
    (fun s => s.lost = true ∧ s.graceful = true ∧ s.sendError = false ∧ s.aborted = false ∧
      s.sent ≠ s.accepted ∧ ¬s.sent <+: s.accepted)
    [.write [1, 0, 0, 0, 2, 0, 0, 0, 3, 0, 0, 0, 4, 0, 0, 0] 4 (.sent 4), .write [9] 1 (.sent 1), .close false]
    (s := .initial ℕ) rfl (by decide +kernel)

end Runloom.StreamWrite
