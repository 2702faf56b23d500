import Runloom.Transition.System

/-!
# Sending datagrams

Model of `sendto`, `_send_loop`, `close` and `abort` of `DatagramTransport`.  A call may come at any place of the
flush fiber, and from `error_received` too; what a callback does after a failed direct send are calls like any other.
A datagram is known by the number of its `sendto`.

`sent` and `failed` are ghost: the datagrams that the socket took, and those whose own send failed.
-/

namespace Runloom.Datagram

open Transition List

/-- How a `send` ends; `raised` is an exception that is not an `OSError`. -/
inductive Outcome where
  | accepted
  | wouldBlock
  | osError
  | raised
deriving DecidableEq

/-- Where the flush fiber is: before the test of the outer loop, in `_wait_fd`, before the test of the inner loop, or
in `error_received`. -/
inductive Flush where
  | none
  | outer
  | parked
  | inner
  | callback
deriving DecidableEq

structure State where
  closed : Bool
  sendBuf : List ℕ
  sendG : Bool
  flush : Flush
  next : ℕ
  sent : List ℕ
  failed : List ℕ

/-- `out` is how a direct send ends, and `spawns` that the flush fiber can be created; `raises` and `escapes` say that
`_wait_fd` raises, and that an exception gets out of `error_received` and `_report`. -/
inductive Action where
  | sendto (out : Outcome) (spawns : Bool)
  | close
  | abort
  | look
  | wait (raises : Bool)
  | send (out : Outcome)
  | ret (escapes : Bool)

namespace State

def sendto (s : State) (out : Outcome) (spawns : Bool) : State :=
  if s.closed then s
  else
    let s' := { s with next := s.next + 1 }
    if s.sendBuf ≠ [] then { s' with sendBuf := s.sendBuf ++ [s.next] }
    else
      match out with
      | .accepted => { s' with sent := s.sent ++ [s.next] }
      | .wouldBlock =>
        let s' := { s' with sendBuf := s.sendBuf ++ [s.next] }
        -- An exception of `_fiber_io` leaves the datagram where it is.
        if s.sendG = false ∧ spawns then { s' with sendG := true, flush := .outer } else s'
      | .osError | .raised => { s' with failed := s.failed ++ [s.next] }

/-- The parked flush fiber is woken with an exception, which is a step of its own. -/
def close (s : State) : State :=
  if s.closed then s else { s with closed := true, sendG := false }

def abort (s : State) : State :=
  { s with sendBuf := [] }.close

/-- The flush fiber ends, by way of its `finally`. -/
def leave (s : State) : State :=
  { s with flush := .none, sendG := false }

/-- A turn of the inner loop. -/
def send (s : State) (out : Outcome) : State :=
  match s.sendBuf with
  | [] => { s with flush := .outer }
  | d :: rest =>
    if s.closed then { s with flush := .outer }
    else
      match out with
      | .accepted => { s with sendBuf := rest, sent := s.sent ++ [d] }
      | .wouldBlock => { s with flush := .outer }
      | .osError => { s with sendBuf := rest, failed := s.failed ++ [d], flush := .callback }
      | .raised => s.leave

end State

def step (s : State) : Action → Option State
  | .sendto out spawns => some (s.sendto out spawns)
  | .close => some s.close
  | .abort => some s.abort
  | .look =>
    if s.flush = .outer then
      some (if s.sendBuf ≠ [] ∧ s.closed = false then { s with flush := .parked } else s.leave)
    else none
  | .wait raises =>
    -- `_wait_fd` raises only after the close.
    if s.flush = .parked ∧ (raises → s.closed) then some (if raises then s.leave else { s with flush := .inner })
    else none
  | .send out => if s.flush = .inner then some (s.send out) else none
  | .ret escapes =>
    if s.flush = .callback then some (if escapes then s.leave else { s with flush := .inner }) else none

def start : State := ⟨false, [], false, .none, 0, [], []⟩

def datagram : System State Action where
  init s := s = start
  step := step

/-! ## What becomes of a datagram -/

/-- The datagrams that were taken and those that wait are in the order of their calls, and none is missing. -/
structure Ordered (s : State) : Prop where
  sorted : (s.sent ++ s.sendBuf).Pairwise (· < ·)
  below : ∀ d ∈ s.sent ++ s.sendBuf, d < s.next
  kept : s.closed = false → ∀ d < s.next, d ∈ s.sent ∨ d ∈ s.failed ∨ d ∈ s.sendBuf

/-- `_send_g` tells whether there is a flush fiber. -/
def Known (s : State) : Prop :=
  s.closed = false → (s.sendG = true ↔ s.flush ≠ .none)

/-- A backlog has a flush fiber. -/
def Live (s : State) : Prop :=
  s.closed = false → s.sendBuf ≠ [] → s.flush ≠ .none

variable {s t : State} {a : Action} {out : Outcome} {spawns : Bool}

theorem Ordered.snoc (h : Ordered s) : (s.sent ++ s.sendBuf ++ [s.next]).Pairwise (· < ·) ∧
    ∀ d ∈ s.sent ++ s.sendBuf ++ [s.next], d < s.next + 1 := by
  refine ⟨pairwise_append.mpr ⟨h.sorted, pairwise_singleton _ _, fun d hd e he => ?_⟩, fun d hd => ?_⟩
  · exact mem_singleton.mp he ▸ h.below d hd
  · rcases mem_append.mp hd with hd | hd
    · exact Nat.lt_succ_of_lt (h.below d hd)
    · exact mem_singleton.mp hd ▸ Nat.lt_succ_self _

theorem Ordered.sendto (h : Ordered s) : Ordered (s.sendto out spawns) := by
  have hkept : s.closed = false → ∀ d < s.next + 1, (d ∈ s.sent ∨ d ∈ s.failed ∨ d ∈ s.sendBuf) ∨ d = s.next := by
    intro hc d hd
    rcases Nat.lt_succ_iff_lt_or_eq.mp hd with hd | hd
    · exact .inl (h.kept hc d hd)
    · exact .inr hd
  have hqueued : ∀ (g : Bool) (f : Flush),
      Ordered { s with next := s.next + 1, sendBuf := s.sendBuf ++ [s.next], sendG := g, flush := f } := by
    intro g f
    refine ⟨?_, ?_, fun hc d hd => ?_⟩
    · simpa only [append_assoc] using h.snoc.1
    · simpa only [append_assoc] using h.snoc.2
    · rcases hkept hc d hd with (hd | hd | hd) | rfl
      · exact .inl hd
      · exact .inr (.inl hd)
      · exact .inr (.inr (mem_append_left _ hd))
      · exact .inr (.inr (mem_append_right _ mem_cons_self))
  unfold State.sendto
  split
  · exact h
  split
  · exact hqueued s.sendG s.flush
  next hbuf =>
    have hnil : s.sendBuf = [] := not_not.mp hbuf
    cases out with
    | accepted =>
      have hsnoc := h.snoc
      rw [hnil, append_nil] at hsnoc
      refine ⟨by simpa [hnil] using hsnoc.1, by simpa [hnil] using hsnoc.2, fun hc d hd => ?_⟩
      rcases hkept hc d hd with (hd | hd | hd) | rfl
      · exact .inl (mem_append_left _ hd)
      · exact .inr (.inl hd)
      · exact .inr (.inr hd)
      · exact .inl (mem_append_right _ mem_cons_self)
    | wouldBlock =>
      dsimp only
      split
      · exact hqueued true .outer
      · exact hqueued s.sendG s.flush
    | osError | raised =>
      refine ⟨h.sorted, fun d hd => Nat.lt_succ_of_lt (h.below d hd), fun hc d hd => ?_⟩
      rcases hkept hc d hd with (hd | hd | hd) | rfl
      · exact .inl hd
      · exact .inr (.inl (mem_append_left _ hd))
      · exact .inr (.inr hd)
      · exact .inr (.inl (mem_append_right _ mem_cons_self))

theorem Ordered.send (h : Ordered s) : Ordered (s.send out) := by
  unfold State.send
  split
  · exact ⟨h.sorted, h.below, h.kept⟩
  next d rest hbuf =>
    have hsub : s.sent ++ rest <+ s.sent ++ s.sendBuf := by
      rw [hbuf]
      exact (sublist_cons_self d rest).append_left _
    split
    · exact ⟨h.sorted, h.below, h.kept⟩
    · cases out with
      | accepted =>
        have heq : s.sent ++ [d] ++ rest = s.sent ++ s.sendBuf := by rw [hbuf, append_assoc]; rfl
        refine ⟨by rw [heq]; exact h.sorted, by rw [heq]; exact h.below, fun hc e he => ?_⟩
        rcases h.kept hc e he with he | he | he
        · exact .inl (mem_append_left _ he)
        · exact .inr (.inl he)
        · rcases mem_cons.mp (hbuf ▸ he) with rfl | he
          · exact .inl (mem_append_right _ mem_cons_self)
          · exact .inr (.inr he)
      | osError =>
        refine ⟨h.sorted.sublist hsub, fun e he => h.below e (hsub.subset he), fun hc e he => ?_⟩
        rcases h.kept hc e he with he | he | he
        · exact .inl he
        · exact .inr (.inl (mem_append_left _ he))
        · rcases mem_cons.mp (hbuf ▸ he) with rfl | he
          · exact .inr (.inl (mem_append_right _ mem_cons_self))
          · exact .inr (.inr he)
      | wouldBlock | raised => exact ⟨h.sorted, h.below, h.kept⟩

theorem close_frame (s : State) :
    s.close.closed = true ∧ s.close.sent = s.sent ∧ s.close.sendBuf = s.sendBuf ∧ s.close.next = s.next := by
  unfold State.close
  split
  next h => exact ⟨h, rfl, rfl, rfl⟩
  next => exact ⟨rfl, rfl, rfl, rfl⟩

/-- A close of the transport, with or without its backlog. -/
theorem Ordered.close (h : Ordered s) {buf : List ℕ} (hbuf : buf <+ s.sendBuf) :
    Ordered { s with sendBuf := buf }.close := by
  obtain ⟨hclosed, hsent, hrest, hnext⟩ := close_frame { s with sendBuf := buf }
  have hsub : s.sent ++ buf <+ s.sent ++ s.sendBuf := hbuf.append_left _
  refine ⟨?_, ?_, fun hopen => nomatch hclosed.symm.trans hopen⟩
  · rw [hsent, hrest]
    exact h.sorted.sublist hsub
  · rw [hsent, hrest, hnext]
    exact fun d hd => h.below d (hsub.subset hd)

theorem Ordered.next (h : Ordered s) (hs : step s a = some t) : Ordered t := by
  cases a with
  | sendto out spawns =>
    cases hs
    exact h.sendto
  | close =>
    cases hs
    exact h.close (Sublist.refl _)
  | abort =>
    cases hs
    exact h.close (nil_sublist _)
  | look | wait raises | ret escapes =>
    obtain ⟨-, ⟨⟩⟩ := Option.ite_none_right_eq_some.mp hs
    split <;> exact ⟨h.sorted, h.below, h.kept⟩
  | send out =>
    obtain ⟨-, ⟨⟩⟩ := Option.ite_none_right_eq_some.mp hs
    exact h.send

/-! ## The flush fiber -/

theorem Known.move (h : Known s) (hf : s.flush ≠ .none) (hc : t.closed = s.closed) (hg : t.sendG = s.sendG)
    (hf' : t.flush ≠ .none) : Known t := by
  intro hopen
  rw [hg]
  exact ⟨fun _ => hf', fun _ => (h (hc ▸ hopen)).mpr hf⟩

theorem Known.leave (s : State) : Known s.leave :=
  fun _ => ⟨nofun, fun h => absurd rfl h⟩

theorem Known.turn (h : Known s) {ends : Bool} (hf : s.flush ≠ .none) :
    Known (if ends then s.leave else { s with flush := .inner }) := by
  split
  · exact .leave s
  · exact h.move hf rfl rfl nofun

theorem Known.next (h : Known s) (hs : step s a = some t) : Known t := by
  cases a with
  | sendto out spawns =>
    cases hs
    unfold State.sendto
    split
    · exact h
    split
    · exact h
    cases out with
    | accepted | osError | raised => exact h
    | wouldBlock =>
      dsimp only
      split
      · exact fun _ => ⟨fun _ => nofun, fun _ => rfl⟩
      · exact h
  | close | abort =>
    cases hs
    exact fun hopen => nomatch (close_frame _).1.symm.trans hopen
  | look =>
    obtain ⟨hf, ⟨⟩⟩ := Option.ite_none_right_eq_some.mp hs
    split
    · exact h.move (by rw [hf]; nofun) rfl rfl nofun
    · exact .leave s
  | wait raises =>
    obtain ⟨⟨hf, -⟩, ⟨⟩⟩ := Option.ite_none_right_eq_some.mp hs
    exact h.turn (by rw [hf]; nofun)
  | ret escapes =>
    obtain ⟨hf, ⟨⟩⟩ := Option.ite_none_right_eq_some.mp hs
    exact h.turn (by rw [hf]; nofun)
  | send out =>
    obtain ⟨hf, ⟨⟩⟩ := Option.ite_none_right_eq_some.mp hs
    have hne : s.flush ≠ .none := by rw [hf]; nofun
    unfold State.send
    split
    · exact h.move hne rfl rfl nofun
    split
    · exact h.move hne rfl rfl nofun
    cases out with
    | accepted => exact h
    | wouldBlock | osError => exact h.move hne rfl rfl nofun
    | raised => exact .leave s

/-- With a backlog on an open transport, the flush fiber meets no exception but an `OSError` and none gets out of its
callback; and it is created when it is needed. -/
def Orderly (s : State) : Action → Prop
  | .sendto out spawns =>
    s.closed = false → s.sendBuf = [] → out = .wouldBlock → s.sendG = false → spawns = true
  | .send out => s.closed = false → s.sendBuf ≠ [] → out ≠ .raised
  | .ret escapes => s.closed = false → s.sendBuf ≠ [] → escapes = false
  | _ => True

instance (s : State) : DecidablePred (Orderly s) := fun a => by
  cases a <;> unfold Orderly <;> infer_instance

theorem Live.next (h : Live s) (hK : Known s) (hC : Orderly s a) (hs : step s a = some t) : Live t := by
  cases a with
  | sendto out spawns =>
    cases hs
    unfold State.sendto
    split
    · exact h
    next hopen =>
    split
    next hbuf => exact fun hc _ => h hc hbuf
    next hbuf =>
    cases out with
    | accepted | osError | raised => exact h
    | wouldBlock =>
      dsimp only
      split
      · exact fun _ _ => nofun
      next hspawn =>
        intro hc _
        refine (hK hc).mp (Bool.of_not_eq_false fun hg => hspawn ⟨hg, ?_⟩)
        exact hC hc (not_not.mp hbuf) rfl hg
  | close | abort =>
    cases hs
    exact fun hopen => nomatch (close_frame _).1.symm.trans hopen
  | look =>
    obtain ⟨-, ⟨⟩⟩ := Option.ite_none_right_eq_some.mp hs
    split
    · exact fun _ _ => nofun
    next hdone => exact fun hc hbuf => absurd ⟨hbuf, hc⟩ hdone
  | wait raises =>
    obtain ⟨⟨-, hraise⟩, ⟨⟩⟩ := Option.ite_none_right_eq_some.mp hs
    split
    next hr => exact fun hc => nomatch (hraise hr).symm.trans hc
    next => exact fun _ _ => nofun
  | ret escapes =>
    obtain ⟨-, ⟨⟩⟩ := Option.ite_none_right_eq_some.mp hs
    split
    next he => exact fun hc hbuf => nomatch he.symm.trans (hC hc hbuf)
    next => exact fun _ _ => nofun
  | send out =>
    obtain ⟨hf, ⟨⟩⟩ := Option.ite_none_right_eq_some.mp hs
    unfold State.send
    split
    · exact fun _ _ => nofun
    next d rest hbuf =>
    split
    · exact fun _ _ => nofun
    cases out with
    | accepted => exact fun _ _ => by rw [hf]; nofun
    | wouldBlock | osError => exact fun _ _ => nofun
    | raised => exact fun hc _ => absurd rfl (hC hc (by rw [hbuf]; nofun))

/-- The socket takes the datagrams in the order of their calls, each at most once, and on an open transport none is
lost but by an error of its own send. If the flush fiber is created when it is needed, meets no exception but an
`OSError` and lets none out of its callback, a backlog on an open transport has a flush fiber. -/
theorem datagrams_in_order (s : State) : (datagram.Reachable s → s.sent.Pairwise (· < ·) ∧
      (s.closed = false → ∀ d < s.next, d ∈ s.sent ∨ d ∈ s.failed ∨ d ∈ s.sendBuf)) ∧
    (datagram.ReachableWith Orderly s → s.closed = false → s.sendBuf ≠ [] → s.flush ≠ .none) := by
  constructor
  · intro h
    have hO : Ordered s := by
      refine h.invariant (P := Ordered) ?_ fun _ _ _ hO _ hs => hO.next hs
      rintro _ rfl
      exact ⟨.nil, nofun, fun _ d hd => absurd hd (Nat.not_lt_zero d)⟩
    exact ⟨(pairwise_append.mp hO.sorted).1, hO.kept⟩
  · intro h
    have hboth : Known s ∧ Live s := by
      refine h.invariant (P := fun s => Known s ∧ Live s) ?_ ?_
      · rintro _ rfl
        exact ⟨fun _ => ⟨nofun, fun h => absurd rfl h⟩, fun _ h => absurd rfl h⟩
      · rintro s a t ⟨hK, hL⟩ hC hs
        exact ⟨hK.next hs, hL.next hK hC hs⟩
    exact hboth.2

/-- The first of two datagrams fails in the flush fiber, and the second is still to be sent. -/
theorem datagrams_in_order_failed : ∃ s, datagram.ReachableWith Orderly s ∧ s.failed = [0] ∧ s.sendBuf = [1] ∧
      s.sent.Pairwise (· < ·) ∧ s.flush ≠ .none := by
  obtain ⟨s, hr, hopen, hfailed, hbuf⟩ := datagram.reachesWith Orderly
    (fun s => s.closed = false ∧ s.failed = [0] ∧ s.sendBuf = [1])
    [.sendto .wouldBlock true, .sendto .accepted true, .look, .wait false, .send .osError, .ret false] rfl
    (by decide +kernel)
  exact ⟨s, hr, hfailed, hbuf, ((datagrams_in_order s).1 hr.reachable).1,
    (datagrams_in_order s).2 hr hopen (by rw [hbuf]; nofun)⟩

/-- A queued datagram for the port 70000 makes `sendto` of the socket raise `OverflowError` in the flush fiber, which
ends; whatever is sent from then on is queued behind it. -/
theorem backlog_left_alone :
    ¬∀ s, datagram.Reachable s → s.closed = false → s.sendBuf ≠ [] → s.flush ≠ .none := by
  obtain ⟨s, hr, hopen, hbuf, hflush⟩ := datagram.reaches
    (fun s => s.closed = false ∧ s.sendBuf = [1, 2] ∧ s.flush = .none)
    [.sendto .wouldBlock true, .sendto .accepted true, .look, .wait false, .send .accepted, .send .raised,
      .sendto .accepted true] rfl (by decide +kernel)
  exact fun h => h s hr hopen (by rw [hbuf]; nofun) hflush

end Runloom.Datagram
