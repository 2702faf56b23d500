import Runloom.StreamRead.Model
import Runloom.Transition.History

/-!
# No read after a close

The mask of the io fiber leaves READ out once the transport is closed, but the fiber does not look at `_closed` again
before it reads: what it does after a park, in the read-ahead loop or between `get_buffer` and the read depends on
`_stopping` at most.  So a `close()` that comes while the fiber is at such a place, and does not stop it, is followed
by one more read.
-/

namespace Runloom.StreamRead

open Transition StreamTransport

variable {cfg : Config} {s s' : State} {f : Nat}

/-! ## Places from which a fiber reads -/

/-- From this place the fiber may read without a look at `_closed`. -/
def Pc.mayRead (stopping : Bool) : Pc → Bool
  | .ahead _ _ | .aheadNext _ => !stopping
  | .data (.ahead _) | .updated (.ahead _) | .eof (.ahead _) => !stopping
  | .parked r | .drain r | .sending r | .resume r | .drainNotify r | .recv r => r.read && !stopping
  -- nothing is looked at between `get_buffer` and `buffer_updated`, nor between a read and its callback
  | .getBuffer _ | .reading _ _ => true
  | _ => false

def Unread (s : State) : Prop := ∀ f, (s.fiber f).mayRead s.stopping = false

/-- The fiber may read after a `close(exc)` in this state. -/
def State.readsOn (s : State) (cfg : Config) (exc : Bool) : Pc → Bool
  | .parked r => r.read && (!exc && s.buf == 0 && s.sendsNotify cfg)
  | pc => pc.mayRead (exc || (s.buf == 0 && !s.sendsNotify cfg))

/-- When a call closes the transport, no fiber is at a place from which it reads on. -/
def Settled (cfg : Config) (s : State) : Action → Prop
  | .call .close => s.closed = false → ∀ f, s.readsOn cfg false (s.fiber f) = false
  | .call .abort => s.closed = false → ∀ f, { s with buf := 0 }.readsOn cfg false (s.fiber f) = false
  | .call (.write _ .error) => s.closed = false → ∀ f, s.readsOn cfg true (s.fiber f) = false
  | .io f (.ret res) =>
    s.closed = false → (∃ mask, s.fiber f = .eof (.ahead mask)) → res = .returned true ∨ s.buf = 0
  | _ => True

/-- A step by which `data_received`, `buffer_updated` or `eof_received` is called. -/
def State.dispatches (s : State) : Action → Bool
  | .io f (.read outcome) =>
    match s.fiber f, outcome with
    | .reading _ _, .data | .reading _ _, .empty => true
    | _, _ => false
  | _ => false

def note (late : Nat) (s : State) (a : Action) (_ : State) : Nat :=
  late + if s.closed && s.dispatches a then 1 else 0

def noted (cfg : Config) : System (State × Nat) Action := (transport cfg).withHistory 0 note

variable {pc : Pc}

theorem Pc.mayRead_stopping {stopping : Bool} (h : pc.mayRead stopping = false) : pc.mayRead true = false := by
  cases stopping with
  | true => exact h
  | false =>
    cases pc with
    | data k | updated k | eof k => cases k <;> rfl
    | getBuffer k | reading b k => cases h
    | _ => simp [Pc.mayRead]

theorem Pc.mayRead_of_false (h : pc.mayRead false = false) (stopping : Bool) : pc.mayRead stopping = false := by
  cases stopping with
  | true => exact Pc.mayRead_stopping h
  | false => exact h

def Pc.live : Pc → Bool
  | .unborn | .exited => false
  | _ => true

theorem Pc.live_of_mayRead {stopping : Bool} (h : pc.mayRead stopping = true) : pc.live = true := by
  cases pc <;> first | rfl | cases h

theorem Unread.not_dispatches (hU : Unread s) (a : Action) : s.dispatches a = false := by
  cases a with
  | io f e =>
    cases e with
    | read outcome =>
      simp only [State.dispatches]
      split
      next b k hpc => exact absurd (hU f) (by simp [hpc, Pc.mayRead])
      next b k hpc => exact absurd (hU f) (by simp [hpc, Pc.mayRead])
      next => rfl
    | _ => rfl
  | _ => rfl

/-! ## What a step can do -/

/-- The fibers are where they were, and the transport is no less stopped. -/
structure Frame (s u : State) : Prop where
  fiber : u.fiber = s.fiber
  ioG : u.ioG = s.ioG
  closed : u.closed = s.closed
  stopping : s.stopping = true → u.stopping = true

theorem Frame.refl : Frame s s := ⟨rfl, rfl, rfl, id⟩

/-- In a call that closes nothing the fiber may be woken, or one spawned. -/
inductive Told (s : State) : State → Prop
  | frame {u : State} (h : Frame s u) : Told s u
  | woken {u : State} (h : Frame s u) : Told s u.cancelWaitFd
  | spawned {u : State} (h : Frame s u) (hio : u.ioG = none) : Told s u.spawn

@[simp] theorem closed_cancelWaitFd (s : State) : s.cancelWaitFd.closed = s.closed := by
  unfold State.cancelWaitFd
  split
  · rfl
  · split <;> rfl

@[simp] theorem stopping_cancelWaitFd (s : State) : s.cancelWaitFd.stopping = s.stopping := by
  unfold State.cancelWaitFd
  split
  · rfl
  · split <;> rfl

@[simp] theorem ioG_cancelWaitFd (s : State) : s.cancelWaitFd.ioG = s.ioG := by
  unfold State.cancelWaitFd
  split
  · rfl
  · split <;> rfl

theorem Told.closed (h : Told s s') : s'.closed = s.closed := by
  cases h with
  | frame h => exact h.closed
  | woken h => rw [closed_cancelWaitFd, h.closed]
  | spawned h hio => exact h.closed

variable {u : State}

theorem Frame.kickIo (h : Frame s u) : Told s u.kickIo := by
  unfold State.kickIo
  split
  · exact .frame h
  · split
    next => exact .woken h
    next hio => exact .spawned h hio

theorem Frame.closeEnd (h : Frame s u) : Told s u.closeEnd :=
  .woken ⟨h.fiber, h.ioG, h.closed, fun _ => rfl⟩

theorem Frame.queue (h : Frame s u) (lim : Limits) (n : Nat) : Told s (u.queue lim n) := by
  obtain ⟨hfiber, hio, hclosed, hstop⟩ := h
  unfold State.queue
  dsimp only
  split
  · exact .frame ⟨hfiber, hio, hclosed, hstop⟩
  · exact Frame.kickIo ⟨hfiber, hio, hclosed, hstop⟩

theorem close_of_closed (hc : s.closed = true) (exc : Bool) : s.close cfg exc = (s, false) := by
  simp [State.close, hc]

theorem told_close (hc : s.closed = false) (exc : Bool) :
    Told { s with closed := true, writePaused := false } (s.close cfg exc).1 := by
  unfold State.close
  rw [hc, if_neg Bool.false_ne_true]
  dsimp only
  split
  · exact Frame.kickIo ⟨rfl, rfl, rfl, id⟩
  · split
    · exact .frame ⟨rfl, rfl, rfl, id⟩
    · exact Frame.closeEnd .refl

/-- A step of the fiber `f`: it does not come to a place from which it reads a closed transport, or leaves
`_io_loop`, or closes. -/
inductive Turn (cfg : Config) (s : State) (f : Nat) (e : Event) : State → Prop
  | go {u : State} {pc : Pc} (h : Told s u)
    (hpc : s.closed = true → (s.fiber f).mayRead s.stopping = false → pc.mayRead u.stopping = false) :
    Turn cfg s f e (u.setFiber f pc)
  | leave : Turn cfg s f e (s.leave f)
  | close {exc : Bool} {pc : Pc} (hc : s.closed = false)
    (hpc : Settled cfg s (.io f e) → pc.mayRead (s.close cfg exc).1.stopping = false) :
    Turn cfg s f e ((s.close cfg exc).1.setFiber f pc)

/-- A close by a call is made in a state `u` that is settled. -/
inductive Effect (cfg : Config) (s : State) (a : Action) : State → Prop
  | told {s' : State} (h : Told s s') : Effect cfg s a s'
  | close {u s' : State} (exc : Bool) (hc : s.closed = false) (hu : Frame s u)
    (hon : Settled cfg s a → ∀ f, u.readsOn cfg exc (u.fiber f) = false) (h : Frame (u.close cfg exc).1 s') :
    Effect cfg s a s'
  | turn {f : Nat} {e : Event} {s' : State} (ha : a = .io f e) (hlive : (s.fiber f).live = true)
    (h : Turn cfg s f e s') : Effect cfg s a s'

section Turn

variable {e : Event} {u : State} {pc : Pc}

theorem Turn.stay (hpc : s.closed = true → (s.fiber f).mayRead s.stopping = false → pc.mayRead s.stopping = false) :
    Turn cfg s f e (s.setFiber f pc) := .go (.frame .refl) hpc

theorem turn_computeMask : Turn cfg s f e (s.computeMask cfg f) := by
  unfold State.computeMask
  dsimp only
  split
  next => exact .leave
  next =>
    -- the mask of a closed transport has no READ in it
    split
    next hread => exact .stay fun hc => by simp [hc] at hread
    next => exact .stay fun hc _ => by simp [Pc.mayRead, hc]

theorem turn_top : Turn cfg s f e (s.top cfg f) := by
  unfold State.top
  split
  · exact .leave
  · split
    · exact .go (u := { s with tlsShutdownSent := true }) (.frame ⟨rfl, rfl, rfl, id⟩) fun _ _ => rfl
    · exact turn_computeMask

theorem turn_afterRecv (h : Told s u) {k : From}
    (hk : s.closed = true → (s.fiber f).mayRead s.stopping = false → ∀ mask, k = .ahead mask → u.stopping = true) :
    Turn cfg s f e (u.afterRecv f k) := by
  cases k with
  | main => exact .go h fun _ _ => rfl
  | ahead mask => exact .go h fun hc hpc => by simp [Pc.mayRead, hk hc hpc mask rfl]

theorem turn_tearDown (h : Frame s u) (r : Ready) : Turn cfg s f e (u.tearDown f r) :=
  .go (u := { u with closeWhenDrained := false, stopping := true })
    (.frame ⟨h.fiber, h.ioG, h.closed, fun _ => rfl⟩) fun _ _ => by simp [Pc.mayRead]

theorem turn_drained (h : Frame s u) {r : Ready}
    (hr : s.closed = true → (s.fiber f).mayRead s.stopping = false → (r.read && !u.stopping) = false) :
    Turn cfg s f e (u.drained cfg f r) := by
  -- the half-close that was put off leaves everything here as it is
  have hcore : ∀ v : State, Frame s v → v.stopping = u.stopping →
      Turn cfg s f e (if v.closeWhenDrained && !v.stopping then
        if v.sendsNotify cfg then { v with tlsShutdownSent := true }.setFiber f (.drainNotify r) else v.tearDown f r
      else v.setFiber f (.recv r)) := by
    intro v hv hstop
    rw [← hstop] at hr
    obtain ⟨hfiber, hio, hclosed, hmono⟩ := hv
    split
    · split
      · exact .go (u := { v with tlsShutdownSent := true }) (.frame ⟨hfiber, hio, hclosed, hmono⟩) hr
      · exact turn_tearDown ⟨hfiber, hio, hclosed, hmono⟩ r
    · exact .go (.frame ⟨hfiber, hio, hclosed, hmono⟩) hr
  unfold State.drained
  split
  · dsimp only
    split
    · exact hcore _ ⟨h.fiber, h.ioG, h.closed, h.stopping⟩ rfl
    · exact hcore u h rfl
  · exact .go (.frame h) hr

theorem stopping_close (hc : s.closed = false) {exc : Bool} (hexc : exc = true ∨ s.buf = 0)
    (hwaits : (s.close cfg exc).2 = false) : (s.close cfg exc).1.stopping = true := by
  unfold State.close at hwaits ⊢
  rw [hc, if_neg Bool.false_ne_true] at hwaits ⊢
  dsimp only at hwaits ⊢
  split
  next hqueued => rcases hexc with h | h <;> simp [h] at hqueued
  next hqueued =>
    split
    next hnotify => simp [hqueued, hnotify] at hwaits
    next => exact stopping_cancelWaitFd _

theorem waits_closeError (s : State) : (s.close cfg true).2 = false := by
  unfold State.close
  split <;> rfl

theorem turn_closeError (hpc : s.closed = true → (s.fiber f).mayRead s.stopping = false → pc.mayRead s.stopping = false)
    (hstop : pc.mayRead true = false) : Turn cfg s f e ((s.closeError cfg).setFiber f pc) := by
  unfold State.closeError
  cases hc : s.closed with
  | true =>
    rw [close_of_closed hc]
    exact .stay hpc
  | false =>
    refine .close hc fun _ => ?_
    rw [stopping_close hc (.inl rfl) (waits_closeError s)]
    exact hstop

theorem turn_sent {r : Ready} (send : Send)
    (hr : s.closed = true → (s.fiber f).mayRead s.stopping = false → (r.read && !s.stopping) = false) :
    Turn cfg s f e (s.sent cfg f r send) := by
  cases send with
  | blocked => exact .stay hr
  | error =>
    simp only [State.sent]
    split
    · exact turn_tearDown .refl r
    · exact turn_closeError hr (by simp [Pc.mayRead])
  | sent n =>
    simp only [State.sent]
    split
    · exact .go (u := { s with buf := s.buf - n, protocolPaused := false }) (.frame ⟨rfl, rfl, rfl, id⟩) hr
    · exact turn_drained (s := s) (u := { s with buf := s.buf - n }) ⟨rfl, rfl, rfl, id⟩ hr

theorem turn_readFailed : Turn cfg s f e (s.readFailed cfg f) := turn_closeError (fun _ _ => rfl) rfl

theorem turn_eofClosed (h : Told s u) {k : From}
    (hk : s.closed = true → (s.fiber f).mayRead s.stopping = false → ∀ mask, k = .ahead mask → u.stopping = true) :
    Turn cfg s f e (u.eofClosed f k) := by
  unfold State.eofClosed
  split
  · exact turn_afterRecv h hk
  · exact .go h fun _ _ => rfl

theorem turn_eof {k : From} (hpc : s.fiber f = .eof k)
    (hbuf : Settled cfg s (.io f e) → s.closed = false → ∀ mask, k = .ahead mask → s.buf = 0) :
    Turn cfg s f e (s.readEofHandled cfg f k false) := by
  simp only [State.readEofHandled, Bool.false_eq_true, if_false]
  cases hc : s.closed with
  | true =>
    rw [close_of_closed hc]
    refine turn_eofClosed (.frame .refl) fun _ hread mask hk => ?_
    simpa [hpc, hk, Pc.mayRead] using hread
  | false =>
    split
    next => exact .close hc fun _ => rfl
    next hwaits =>
      unfold State.eofClosed
      split
      · cases k with
        | main => exact .close hc fun _ => rfl
        | ahead mask =>
          refine .close hc fun hC => ?_
          simp [Pc.mayRead, stopping_close hc (.inr (hbuf hC hc mask rfl)) (by simpa using hwaits)]
      · exact .close hc fun _ => rfl

theorem stopping_of_ahead {k : From} (hread : pc.mayRead s.stopping = false)
    (hpc : pc = .data k ∨ pc = .updated k ∨ pc = .eof k) : ∀ mask, k = .ahead mask → s.stopping = true := by
  rintro mask rfl
  rcases hpc with rfl | rfl | rfl <;> simpa [Pc.mayRead] using hread

theorem turn_ret {res : Result} (he : e = .ret res) (h : s.ret cfg f res (s.fiber f) = some s') :
    Turn cfg s f e s' := by
  subst he
  generalize hpc : s.fiber f = pc at h
  cases pc with
  | resume r =>
    cases h
    exact turn_drained .refl fun _ hread => by simpa [hpc, Pc.mayRead] using hread
  | getBuffer k =>
    cases res with
    | returned keep =>
      cases h
      exact .stay fun _ hread => by simp [hpc, Pc.mayRead] at hread
    | raised =>
      cases h
      exact turn_readFailed
  | data k =>
    cases res with
    | returned keep =>
      cases h
      exact turn_afterRecv (.frame .refl) fun _ hread => stopping_of_ahead hread (.inl hpc)
    | raised =>
      cases h
      exact turn_readFailed
  | updated k =>
    cases res with
    | returned keep =>
      cases h
      exact turn_afterRecv (.frame .refl) fun _ hread => stopping_of_ahead hread (.inr (.inl hpc))
    | raised =>
      cases h
      exact turn_readFailed
  | eof k =>
    have hbuf : res ≠ .returned true → Settled cfg s (.io f (.ret res)) → s.closed = false →
        ∀ mask, k = .ahead mask → s.buf = 0 := fun hres hC hc mask hk => (hC hc ⟨mask, hk ▸ hpc⟩).resolve_left hres
    cases res with
    | returned keep =>
      cases h
      cases keep with
      | true =>
        exact turn_afterRecv (s := s) (u := { s with readEof := true }) (.frame ⟨rfl, rfl, rfl, id⟩)
          fun _ hread => stopping_of_ahead hread (.inr (.inr hpc))
      | false => exact turn_eof hpc (hbuf nofun)
    | raised =>
      cases h
      exact turn_eof hpc (hbuf nofun)
  | _ => cases h

theorem turn_io (h : s.io cfg f e (s.fiber f) = some s') : Turn cfg s f e s' := by
  generalize hpc : s.fiber f = pc at h
  unfold State.io at h
  split at h
  next =>
    cases h
    exact turn_top
  next =>
    cases h
    exact turn_computeMask
  next n buffered mask drained =>
    cases h
    unfold State.readAhead
    split
    next => exact .stay fun _ hread => by cases drained <;> simp_all [Pc.mayRead]
    next hgo => exact .stay fun _ hread => by simp_all [Pc.mayRead]
  next b mask =>
    cases h
    exact .stay fun _ hread => by cases b <;> simp_all [Pc.mayRead]
  next =>
    cases h
    exact .leave
  next r mask =>
    split at h <;> cases h
    next hsub =>
      refine .stay fun _ hread => ?_
      split
      next => rfl
      next hstop =>
        -- the park was for WRITE only
        have hmask : mask.read = false := by simpa [hpc, Pc.mayRead, hstop] using hread
        have hr : r.read = false := by
          by_contra hne
          simp [hmask, hne] at hsub
        simp [Pc.mayRead, hr]
  next cancelled mask =>
    cases h
    exact .stay fun _ _ => by split <;> rfl
  next r =>
    cases h
    exact .stay fun _ hread => by split <;> simpa [hpc, Pc.mayRead] using hread
  next send r =>
    cases h
    exact turn_sent send fun _ hread => by simpa [hpc, Pc.mayRead] using hread
  next r =>
    cases h
    exact turn_tearDown .refl r
  next buffered r =>
    cases h
    split
    next hgo => exact .stay fun _ hread => by simp_all [Pc.mayRead]
    next => exact .stay fun _ _ => rfl
  next outcome buffered k =>
    cases h
    have hreads : (s.fiber f).mayRead s.stopping ≠ false := by simp [hpc, Pc.mayRead]
    cases outcome with
    | blocked => exact turn_afterRecv (.frame .refl) fun _ hread => absurd hread hreads
    | error => exact turn_readFailed
    | empty | data => exact .stay fun _ hread => absurd hread hreads
  next res => exact turn_ret rfl (hpc ▸ h)
  next k =>
    cases h
    exact turn_eofClosed (Frame.closeEnd .refl) fun _ _ _ _ => stopping_cancelWaitFd _
  all_goals first
    | (cases h; done)
    | (cases h; exact .stay fun _ _ => rfl)

end Turn

theorem live_of_io {e : Event} (h : s.io cfg f e pc = some s') : pc.live = true := by
  cases pc with
  | unborn | exited => cases e <;> cases h
  | _ => rfl

variable {a : Action}

theorem effect_closeCall (hc : s.closed = false) (hu : Frame s u)
    (hon : Settled cfg s a → ∀ f, u.readsOn cfg false (u.fiber f) = false) :
    Effect cfg s a (u.closeCall cfg) := by
  refine .close false hc hu hon ?_
  unfold State.closeCall
  dsimp only
  split
  · exact ⟨rfl, rfl, rfl, id⟩
  · exact .refl

theorem effect_call (c : Call) : Effect cfg s (.call c) (s.call cfg c) := by
  cases c with
  | write n send =>
    simp only [State.call, State.write]
    split
    next => exact .told (.frame .refl)
    next hgo =>
      have hc : s.closed = false := by
        by_contra hne
        simp [hne] at hgo
      split
      · cases send with
        | error => exact .close true hc .refl (fun hC => hC hc) .refl
        | blocked => exact .told (Frame.refl.queue _ _)
        | sent k =>
          dsimp only
          split
          · exact .told (.frame .refl)
          · exact .told (Frame.refl.queue _ _)
      · exact .told (Frame.refl.queue _ _)
  | close =>
    cases hc : s.closed with
    | true =>
      have hsame : s.closeCall cfg = s := by simp [State.closeCall, close_of_closed hc]
      rw [State.call, hsame]
      exact .told (.frame .refl)
    | false => exact effect_closeCall hc .refl fun hC => hC hc
  | abort =>
    simp only [State.call, State.abort]
    split
    next hopen =>
      have hc : s.closed = false := by simpa using hopen
      exact effect_closeCall (u := { s with buf := 0 }) hc ⟨rfl, rfl, rfl, id⟩ fun hC => hC hc
    next =>
      split
      · exact .told (.frame ⟨rfl, rfl, rfl, id⟩)
      · exact .told (.woken ⟨rfl, rfl, rfl, fun _ => rfl⟩)
  | writeEof =>
    simp only [State.call, State.writeEof]
    split
    · exact .told (.frame .refl)
    · split <;> exact .told (.frame ⟨rfl, rfl, rfl, id⟩)
  | pauseReading | pauseWriting => exact .told (.frame ⟨rfl, rfl, rfl, id⟩)
  | resumeReading =>
    simp only [State.call, State.resumeReading]
    split
    · exact .told (Frame.kickIo ⟨rfl, rfl, rfl, id⟩)
    · exact .told (.frame .refl)
  | resumeWriting =>
    simp only [State.call, State.resumeWriting]
    split
    · exact .told (Frame.kickIo ⟨rfl, rfl, rfl, id⟩)
    · exact .told (.frame .refl)

theorem effect_of_step (h : StreamRead.step cfg s a = some s') : Effect cfg s a s' := by
  cases a with
  | call c =>
    cases h
    exact effect_call c
  | made =>
    simp only [StreamRead.step] at h
    split at h <;> cases h
    split
    next hio => exact .told (.spawned ⟨rfl, rfl, rfl, id⟩ hio)
    next => exact .told (.frame ⟨rfl, rfl, rfl, id⟩)
  | kick =>
    simp only [StreamRead.step] at h
    split at h <;> cases h
    exact .told (Frame.kickIo ⟨rfl, rfl, rfl, id⟩)
  | notified ok =>
    simp only [StreamRead.step] at h
    split at h <;> cases h
    split
    · exact .told (Frame.closeEnd ⟨rfl, rfl, rfl, id⟩)
    · exact .told (.frame ⟨rfl, rfl, rfl, id⟩)
  | io f e => exact .turn rfl (live_of_io h) (turn_io h)

/-! ## On a closed transport -/

theorem Unread.setFiber (hU : Unread s) (hpc : pc.mayRead s.stopping = false) : Unread (s.setFiber f pc) := by
  intro g
  simp only [State.setFiber, update_apply]
  split
  · exact hpc
  · exact hU g

theorem Unread.frame (hU : Unread s) (h : Frame s s') : Unread s' := by
  intro g
  rw [h.fiber]
  cases hs : s'.stopping with
  | true => exact Pc.mayRead_stopping (hU g)
  | false =>
    have : s.stopping = false := by
      by_contra hne
      rw [h.stopping (by simpa using hne)] at hs
      cases hs
    have hg := hU g
    rw [this] at hg
    exact hg

theorem Unread.told (hU : Unread s) (h : Told s s') : Unread s' := by
  cases h with
  | frame h => exact hU.frame h
  | woken h =>
    have hu := hU.frame h
    unfold State.cancelWaitFd
    split
    · exact hu
    · split
      · exact hu.setFiber rfl
      · exact hu
  | @spawned u h =>
    have hu : Unread (u.setFiber u.spawned .loop) := (hU.frame h).setFiber rfl
    exact hu

theorem Unread.step (hU : Unread s) (hc : s.closed = true) (h : StreamRead.step cfg s a = some s') :
    Unread s' := by
  cases effect_of_step h with
  | told h => exact hU.told h
  | close exc hopen => simp [hc] at hopen
  | @turn f e _ ha hlive ht =>
    cases ht with
    | go hu hpc => exact (hU.told hu).setFiber (hpc hc (hU f))
    | leave =>
      have hu : Unread { s with ioG := none } := hU
      exact hu.setFiber rfl
    | close hopen => simp [hc] at hopen

/-! ## One fiber at a time -/

/-- The fiber that runs or is parked is the one in `_io_g`. -/
def OneFiber (s : State) : Prop := ∀ f, (s.fiber f).live = true → s.ioG = some f

theorem OneFiber.frame (h : OneFiber s) (hf : Frame s s') : OneFiber s' := by
  intro g hg
  rw [hf.fiber] at hg
  rw [hf.ioG]
  exact h g hg

theorem OneFiber.setFiber (h : OneFiber s) (hf : pc.live = true → s.ioG = some f) :
    OneFiber (s.setFiber f pc) := by
  intro g hg
  simp only [State.setFiber, update_apply] at hg
  split at hg
  next hgf => exact hgf ▸ hf hg
  next => exact h g hg

theorem OneFiber.told (h : OneFiber s) (ht : Told s s') : OneFiber s' := by
  cases ht with
  | frame hf => exact h.frame hf
  | woken hf =>
    have hu := h.frame hf
    unfold State.cancelWaitFd
    split
    next => exact hu
    next f hio =>
      split
      · exact hu.setFiber fun _ => hio
      · exact hu
  | spawned hf hio =>
    intro g hg
    simp only [State.spawn, update_apply] at hg ⊢
    split at hg
    next hgs => rw [hgs]
    next =>
      have hsome := h.frame hf g hg
      rw [hio] at hsome
      cases hsome

theorem OneFiber.close (h : OneFiber s) (exc : Bool) : OneFiber (s.close cfg exc).1 := by
  cases hc : s.closed with
  | true =>
    rw [close_of_closed hc]
    exact h
  | false => exact OneFiber.told (s := { s with closed := true, writePaused := false }) h (told_close hc exc)

/-- The fiber `f` is the one in `_io_g`. -/
structure Own (f : Nat) (s : State) : Prop where
  one : OneFiber s
  ioG : s.ioG = some f

theorem Own.told (h : Own f s) (ht : Told s s') : Own f s' := by
  refine ⟨h.one.told ht, ?_⟩
  cases ht with
  | frame hf => exact hf.ioG.trans h.ioG
  | woken hf => exact (ioG_cancelWaitFd _).trans (hf.ioG.trans h.ioG)
  | spawned hf hio => exact absurd (hio.symm.trans (hf.ioG.trans h.ioG)) nofun

theorem Own.close (h : Own f s) (hc : s.closed = false) (exc : Bool) : Own f (s.close cfg exc).1 :=
  Own.told (s := { s with closed := true, writePaused := false }) ⟨h.one, h.ioG⟩ (told_close hc exc)

theorem Own.setFiber (h : Own f s) (pc : Pc) : Own f (s.setFiber f pc) :=
  ⟨h.one.setFiber fun _ => h.ioG, h.ioG⟩

theorem Own.leave (h : Own f s) : OneFiber (s.leave f) := by
  intro g hg
  simp only [State.leave, State.setFiber, update_apply] at hg
  split at hg
  next => cases hg
  next hgf => exact absurd (Option.some_inj.mp ((h.one g hg).symm.trans h.ioG)) hgf

theorem OneFiber.step (hO : OneFiber s) (h : StreamRead.step cfg s a = some s') : OneFiber s' := by
  cases effect_of_step h with
  | told h => exact hO.told h
  | close exc hc hu hon h => exact ((hO.frame hu).close exc).frame h
  | @turn f e _ ha hlive ht =>
    have hown : Own f s := ⟨hO, hO f hlive⟩
    cases ht with
    | go hu => exact ((hown.told hu).setFiber _).one
    | leave => exact hown.leave
    | close hc => exact ((hown.close hc _).setFiber _).one

/-! ## The step that closes -/

theorem Own.unread (h : Own f s) (hf : (s.fiber f).mayRead s.stopping = false) : Unread s := by
  intro g
  by_contra hne
  have hg : (s.fiber g).mayRead s.stopping = true := by simpa using hne
  have hgf : g = f := Option.some_inj.mp ((h.one g (Pc.live_of_mayRead hg)).symm.trans h.ioG)
  rw [hgf, hf] at hg
  cases hg

theorem not_mayRead_of_readsOn {exc : Bool} (h : s.readsOn cfg exc pc = false) (hpc : ∀ r, pc ≠ .parked r) :
    pc.mayRead (exc || (s.buf == 0 && !s.sendsNotify cfg)) = false := by
  cases pc with
  | parked r => exact absurd rfl (hpc r)
  | _ => exact h

theorem OneFiber.unread_cancelWaitFd (hO : OneFiber s)
    (hpc : ∀ f, (∀ r, s.fiber f ≠ .parked r) → (s.fiber f).mayRead s.stopping = false) : Unread s.cancelWaitFd := by
  have hio : ∀ g r, s.fiber g = .parked r → s.ioG = some g := fun g r hg => hO g (by rw [hg]; rfl)
  intro g
  unfold State.cancelWaitFd
  split
  next hnone => exact hpc g fun r hg => absurd (hnone.symm.trans (hio g r hg)) nofun
  next f hf =>
    split
    next mask hmask =>
      simp only [State.setFiber, update_apply]
      split
      next => rfl
      next hgf => exact hpc g fun r hg => hgf (Option.some_inj.mp ((hio g r hg).symm.trans hf))
    next hnot =>
      refine hpc g fun r hg => ?_
      obtain rfl : g = f := Option.some_inj.mp ((hio g r hg).symm.trans hf)
      exact hnot r hg

theorem Unread.of_close (hO : OneFiber s) (hc : s.closed = false) {exc : Bool}
    (hon : ∀ f, s.readsOn cfg exc (s.fiber f) = false) : Unread (s.close cfg exc).1 := by
  unfold State.close
  rw [hc, if_neg Bool.false_ne_true]
  dsimp only
  split
  next hqueued =>
    -- output is queued: the fiber is kicked, and is not stopped
    obtain ⟨hexc, hbuf⟩ := Bool.and_eq_true_iff.mp hqueued
    have hstops : (exc || (s.buf == 0 && !s.sendsNotify cfg)) = false := by
      simp only [Bool.not_eq_true', bne_iff_ne, ne_eq] at hexc hbuf
      simp [hexc, hbuf]
    have hpc : ∀ f, (∀ r, s.fiber f ≠ .parked r) → (s.fiber f).mayRead false = false := fun f hf =>
      hstops ▸ not_mayRead_of_readsOn (hon f) hf
    unfold State.kickIo
    split
    next hstop =>
      intro f
      have hstop' : s.stopping = true := hstop
      show (s.fiber f).mayRead s.stopping = false
      rw [hstop']
      by_cases hf : ∀ r, s.fiber f ≠ .parked r
      · exact Pc.mayRead_of_false (hpc f hf) true
      · obtain ⟨r, hr⟩ := not_forall_not.mp hf
        rw [hr]
        simp [Pc.mayRead]
    next =>
      split
      next =>
        exact OneFiber.unread_cancelWaitFd (fun f => hO f) fun f hf => Pc.mayRead_of_false (hpc f hf) _
      next hnone =>
        refine Unread.told (fun f => ?_) (.spawned .refl hnone)
        by_contra hne
        have hlive : (s.fiber f).live = true := Pc.live_of_mayRead (by simpa using hne)
        exact absurd (hnone.symm.trans (hO f hlive)) nofun
  next hqueued =>
    split
    next hnotify =>
      -- the close_notify is sent first, and a fiber that is parked stays so
      obtain ⟨hexc, hsends⟩ := Bool.and_eq_true_iff.mp hnotify
      have hexc' : exc = false := by simpa using hexc
      have hbuf : (s.buf == 0) = true := by simpa [hexc'] using hqueued
      have hsends' : s.sendsNotify cfg = true := hsends
      intro f
      have hf := hon f
      show (s.fiber f).mayRead s.stopping = false
      cases hpc : s.fiber f with
      | parked r =>
        have hread : r.read = false := by simpa [hpc, State.readsOn, hexc', hbuf, hsends'] using hf
        simp [Pc.mayRead, hread]
      | _ =>
        rw [hpc] at hf
        refine Pc.mayRead_of_false ?_ _
        simpa [State.readsOn, hexc', hbuf, hsends'] using hf
    next hnotify =>
      -- the fiber is stopped and woken
      have hstops : (exc || (s.buf == 0 && !s.sendsNotify cfg)) = true := by
        have hsame : ({ s with closed := true, writePaused := false } : State).sendsNotify cfg = s.sendsNotify cfg := rfl
        rw [hsame] at hnotify
        cases exc with
        | true => rfl
        | false => simp_all
      exact OneFiber.unread_cancelWaitFd (fun f => hO f) fun f hf => hstops ▸ not_mayRead_of_readsOn (hon f) hf

theorem unread_of_closing (hO : OneFiber s) (hc : s.closed = false) (hC : Settled cfg s a)
    (h : StreamRead.step cfg s a = some s') (hc' : s'.closed = true) : Unread s' := by
  cases effect_of_step h with
  | told h => simp [h.closed, hc] at hc'
  | close exc _ hu hon h => exact (Unread.of_close (hO.frame hu) (hu.closed.trans hc) (hon hC)).frame h
  | @turn f e _ ha hlive ht =>
    subst ha
    have hown : Own f s := ⟨hO, hO f hlive⟩
    cases ht with
    | go hu => simp [State.setFiber, hu.closed, hc] at hc'
    | leave => simp [State.leave, State.setFiber, hc] at hc'
    | close hc hpc => exact ((hown.close hc _).setFiber _).unread (by simpa [State.setFiber] using hpc hC)

/-! ## Closed for reading -/

/-- When no fiber may read on at the close, the transport calls no reading callback after it. -/
theorem no_reads_after_close {p : State × Nat}
    (h : (noted cfg).ReachableWith (fun p a => Settled cfg p.1 a) p) : p.2 = 0 := by
  have hI : OneFiber p.1 ∧ (p.1.closed = true → Unread p.1) ∧ p.2 = 0 := by
    refine h.invariant (P := fun p => OneFiber p.1 ∧ (p.1.closed = true → Unread p.1) ∧ p.2 = 0) (fun p hp => ?_)
      fun p a q ⟨hO, hU, hlate⟩ hC ha => ?_
    · refine ⟨fun f hf => ?_, fun hc => ?_, hp.2⟩
      · rw [hp.1.fiber f] at hf
        cases hf
      · rw [hp.1.closed] at hc
        cases hc
    · obtain ⟨hs, hr⟩ := System.withHistory_step ha
      refine ⟨hO.step hs, fun hc' => ?_, ?_⟩
      · by_cases hc : p.1.closed = true
        · exact (hU hc).step hc hs
        · exact unread_of_closing hO (by simpa using hc) hC hs hc'
      · rw [hr, note, hlate]
        by_cases hc : p.1.closed = true
        · simp [(hU hc).not_dispatches a]
        · simp [hc]
  exact hI.2.2

/-- A transport in its `__init__`. -/
def fresh : State :=
  ⟨false, false, false, false, false, false, false, false, false, false, 0, none, fun _ => .unborn, 0, true, 0, 0⟩

theorem fresh_init : Init fresh := ⟨rfl, rfl, rfl, rfl, rfl, fun _ => rfl, rfl, rfl, rfl, rfl⟩

/-- A plain socket, and a TLS socket with a `send_close_notify`. -/
def plainSocket : Config := ⟨true, false, ⟨65536, 16384⟩⟩

def tlsSocket : Config := ⟨false, true, ⟨65536, 16384⟩⟩

/-- A close with ten bytes queued, while the fiber is parked: they are written, and nothing is read. -/
theorem no_reads_after_close_parked :
    ∃ p : State × Nat, (noted plainSocket).ReachableWith (fun p a => Settled plainSocket p.1 a) p ∧
      p.1.closed = true ∧ p.1.stopping = true ∧ p.1.fiber 0 = .exited ∧ p.2 = 0 := by
  have hr := (System.ReachableWith.init (M := noted plainSocket) (C := fun p a => Settled plainSocket p.1 a)
      (s := (fresh, 0)) ⟨fresh_init, rfl⟩)
    |>.step (a := Action.made) trivial rfl |>.step (a := Action.call (.write 10 .blocked)) trivial rfl
    |>.step (a := Action.io 0 .top) trivial rfl
    -- the fiber is parked, and the close has output queued
    |>.step (a := Action.call .close) (fun _ f => by rcases f with _ | f <;> rfl) rfl
    |>.step (a := Action.io 0 .top) trivial rfl |>.step (a := Action.io 0 (.wake ⟨false, true⟩)) trivial rfl
    |>.step (a := Action.io 0 .drain) trivial rfl |>.step (a := Action.io 0 (.sent (.sent 10))) trivial rfl
    |>.step (a := Action.io 0 (.recv false)) trivial rfl |>.step (a := Action.io 0 .top) trivial rfl
  exact ⟨_, hr, rfl, rfl, rfl, no_reads_after_close hr⟩

/-- The fiber reads on the mask it has after `resume_writing` closes; over TLS a buffered record is delivered. -/
theorem data_received_after_close : (∃ p : State × Nat, (noted plainSocket).Reachable p ∧ p.2 = 1) ∧
    ∃ p : State × Nat, (noted tlsSocket).Reachable p ∧ p.2 = 1 := by
  constructor
  · exact (noted plainSocket).reaches (fun p => p.2 = 1)
      [.made, .call (.write 70000 .blocked), .kick, .io 0 .top, .io 0 (.wake ⟨true, true⟩), .io 0 .drain,
        .io 0 (.sent (.sent 60000)), .call .close, .io 0 (.ret (.returned false)), .io 0 (.recv false),
        .io 0 (.read .data)]
      (s := (fresh, 0)) ⟨fresh_init, rfl⟩ (by decide +kernel)
  · exact (noted tlsSocket).reaches (fun p => p.2 = 1)
      [.made, .io 0 .top, .io 0 (.pending 200 false), .io 0 (.read .data), .call (.write 10 .blocked), .call .close,
        .io 0 (.ret (.returned false)), .io 0 (.dropped true), .io 0 (.pending 100 false), .io 0 (.read .data)]
      (s := (fresh, 0)) ⟨fresh_init, rfl⟩ (by decide +kernel)

end Runloom.StreamRead
