import Runloom.StreamTransport.Model

/-!
# A closed transport is torn down

A close with bytes in the buffer leaves the teardown to the io fiber, so the io fiber must not leave
its loop while a close is pending: every exit needs a reason.  The failed read has none of its own, it
relies on `close`, which does nothing when a close is pending already.
-/

namespace Runloom.StreamTransport

open Transition List

variable {s s' : State} {lim : Limits}

def Pc.alive : Pc → Bool
  | .unborn | .exited => false
  | _ => true

def Frame.fiber : Frame → Option Nat
  | .resumeWriting f _ | .dataReceived f | .eofReceived f | .getBuffer f | .bufferUpdated f => some f
  | _ => none

/-- The rest of `_drain_step` comes after the callback. -/
def Frame.drains : Frame → Bool
  | .resumeWriting _ _ => true
  | _ => false

/-- There is at most one io fiber, and `_io_g` is its handle. -/
structure Fibers (s : State) : Prop where
  one : ∀ f, (s.fiber f).alive = true → s.ioG = some f
  fresh : ∀ f, s.spawned ≤ f → s.fiber f = .unborn
  handle : ∀ f, s.ioG = some f → (s.fiber f).alive = true ∨ s.stopping = true
  frames : ∀ fr ∈ s.stack, ∀ f, fr.fiber = some f → s.fiber f = .callback
  single : s.stack.countP (·.fiber.isSome) ≤ 1

/-- A close is in progress, or done. -/
structure Flags (s : State) : Prop where
  stop : s.stopping = true → s.closed = true
  drain : s.closeWhenDrained = true → s.closed = true ∧ s.stopping = false
  lost : s.lost ≤ s.stopping.toNat
  closing : s.closed = true → s.stopping = true ∨ s.closeWhenDrained = true ∧
    (0 < s.buf ∨ ∃ fr ∈ s.stack, fr.drains = true) ∧ s.ioG ≠ none

structure Inv (s : State) : Prop where
  fibers : Fibers s
  flags : Flags s

theorem Inv.init (h : Init s) : Inv s where
  fibers := by
    refine ⟨fun f hf => ?_, fun f _ => h.fiber f, fun f hf => ?_, fun fr hfr f hf => ?_, ?_⟩
    · rw [h.fiber] at hf
      cases hf
    · rw [h.ioG] at hf
      cases hf
    · rw [h.stack, mem_singleton] at hfr
      rw [hfr] at hf
      cases hf
    · rw [h.stack]
      decide
  flags := by
    refine ⟨fun hs => ?_, fun hc => ?_, ?_, fun hc => ?_⟩
    · rw [h.stopping] at hs
      cases hs
    · rw [h.closeWhenDrained] at hc
      cases hc
    · rw [h.lost]
      exact Nat.zero_le _
    · rw [h.closed] at hc
      cases hc

/-! ## Fibers -/

variable {f : Nat}

section

variable (h : Fibers s)
include h

theorem Fibers.setFiber {pc : Pc} (hf : (s.fiber f).alive = true) (hstack : ∀ fr ∈ s.stack, fr.fiber ≠ some f)
    (hpc : pc.alive = true ∨ pc = .exited ∧ s.stopping = true) : Fibers (s.setFiber f pc) where
  one g hg := by
    simp only [State.setFiber] at hg ⊢
    by_cases hgf : g = f
    · exact hgf ▸ h.one f hf
    · rw [update_of_ne hgf] at hg
      exact h.one g hg
  fresh g hg := by
    have hgf : g ≠ f := by
      rintro rfl
      rw [h.fresh g hg] at hf
      cases hf
    simp only [State.setFiber, update_of_ne hgf]
    exact h.fresh g hg
  handle g hg := by
    simp only [State.setFiber] at hg ⊢
    by_cases hgf : g = f
    · rw [hgf, update_self]
      exact hpc.imp_right fun h => h.2
    · rw [update_of_ne hgf]
      exact h.handle g hg
  frames fr hfr g hg := by
    have hgf : g ≠ f := by
      rintro rfl
      exact hstack fr hfr hg
    simp only [State.setFiber, update_of_ne hgf]
    exact h.frames fr hfr g hg
  single := h.single

theorem Fibers.exit (hf : (s.fiber f).alive = true) (hstack : s.stack = []) :
    Fibers ({ s with ioG := none }.setFiber f .exited) where
  one g hg := by
    simp only [State.setFiber] at hg
    have hgf : g ≠ f := by
      rintro rfl
      rw [update_self] at hg
      cases hg
    rw [update_of_ne hgf] at hg
    have hio := h.one g hg
    rw [h.one f hf] at hio
    cases hio
    exact absurd rfl hgf
  fresh g hg := by
    have hgf : g ≠ f := by
      rintro rfl
      rw [h.fresh g hg] at hf
      cases hf
    simp only [State.setFiber, update_of_ne hgf]
    exact h.fresh g hg
  handle := nofun
  frames fr hfr := by
    rw [show s.stack = [] from hstack] at hfr
    cases hfr
  single := h.single

theorem Fibers.spawn (hg : s.ioG = none) : Fibers s.spawn := by
  have hdead : ∀ f, (s.fiber f).alive = false := by
    intro f
    cases hf : (s.fiber f).alive with
    | false => rfl
    | true =>
      rw [h.one f hf] at hg
      cases hg
  refine ⟨fun f hf => ?_, fun f hf => ?_, fun f hf => ?_, fun fr hfr f hf => ?_, h.single⟩
  · simp only [State.spawn] at hf ⊢
    by_cases hfs : f = s.spawned
    · rw [hfs]
    · rw [update_of_ne hfs, hdead] at hf
      cases hf
  · have hlt : s.spawned + 1 ≤ f := hf
    have hfs : f ≠ s.spawned := by omega
    simp only [State.spawn, update_of_ne hfs]
    exact h.fresh f (by omega)
  · cases hf
    simp only [State.spawn, update_self]
    exact .inl rfl
  · have hcb := h.frames fr hfr f hf
    have hlive := hdead f
    rw [hcb] at hlive
    cases hlive

theorem Fibers.cancelWaitFd : Fibers s.cancelWaitFd := by
  unfold State.cancelWaitFd
  split
  next => exact h
  next f hg =>
    split
    next hp =>
      refine h.setFiber (by rw [hp]; rfl) (fun fr hfr hf => ?_) (.inl rfl)
      have hcb := h.frames fr hfr f hf
      rw [hp] at hcb
      cases hcb
    next => exact h

theorem Fibers.kickIo : Fibers s.kickIo := by
  unfold State.kickIo
  split
  · exact h
  · split
    next => exact h.cancelWaitFd
    next hg => exact h.spawn hg

theorem Fibers.congr (hf : s'.fiber = s.fiber) (hg : s'.ioG = s.ioG)
    (hn : s'.spawned = s.spawned) (hk : s'.stack = s.stack)
    (hs : s.stopping = true → s'.stopping = true) : Fibers s' where
  one f h' := by
    rw [hf] at h'
    rw [hg]
    exact h.one f h'
  fresh f h' := by
    rw [hn] at h'
    rw [hf]
    exact h.fresh f h'
  handle f h' := by
    rw [hg] at h'
    rw [hf]
    exact (h.handle f h').imp_right hs
  frames fr h' := by
    rw [hk] at h'
    rw [hf]
    exact h.frames fr h'
  single := by
    rw [hk]
    exact h.single

theorem Fibers.close (exc : Bool) : Fibers (s.close exc) := by
  unfold State.close
  split
  · exact h
  · simp only
    split
    · apply Fibers.kickIo
      exact h.congr rfl rfl rfl rfl id
    · have hstop : Fibers { s with closed := true, connLostCalled := true, stopping := true } :=
        h.congr rfl rfl rfl rfl fun _ => rfl
      exact hstop.cancelWaitFd.congr rfl rfl rfl rfl id

theorem Fibers.abort : Fibers s.abort := by
  have hbuf : Fibers { s with buf := 0 } := h.congr rfl rfl rfl rfl id
  unfold State.abort
  simp only
  split
  · split
    · exact hbuf
    · have hstop : Fibers { s with buf := 0, closeWhenDrained := false, stopping := true } :=
        h.congr rfl rfl rfl rfl fun _ => rfl
      exact hstop.cancelWaitFd.congr rfl rfl rfl rfl id
  · exact hbuf.close false

theorem Fibers.tearDown : Fibers s.tearDown :=
  h.congr rfl rfl rfl rfl fun _ => rfl

end

/-! ## Flags -/

/-- Nothing that `Flags` reads has changed, apart from `_io_g`. -/
structure Same (s s' : State) : Prop where
  closed : s'.closed = s.closed
  stopping : s'.stopping = s.stopping
  closeWhenDrained : s'.closeWhenDrained = s.closeWhenDrained
  lost : s'.lost = s.lost
  buf : s'.buf = s.buf
  stack : s'.stack = s.stack

theorem same_cancelWaitFd : Same s s.cancelWaitFd ∧ s.cancelWaitFd.ioG = s.ioG := by
  unfold State.cancelWaitFd
  split
  · exact ⟨⟨rfl, rfl, rfl, rfl, rfl, rfl⟩, rfl⟩
  · split <;> exact ⟨⟨rfl, rfl, rfl, rfl, rfl, rfl⟩, rfl⟩

theorem same_kickIo : Same s s.kickIo := by
  unfold State.kickIo
  split
  · exact ⟨rfl, rfl, rfl, rfl, rfl, rfl⟩
  · split
    · exact same_cancelWaitFd.1
    · exact ⟨rfl, rfl, rfl, rfl, rfl, rfl⟩

theorem ioG_kickIo (hs : s.stopping = false) : s.kickIo.ioG ≠ none := by
  unfold State.kickIo
  rw [hs]
  cases hg : s.ioG with
  | none => nofun
  | some f =>
    show s.cancelWaitFd.ioG ≠ none
    rw [same_cancelWaitFd.2, hg]
    nofun

theorem Flags.of_same (h : Flags s) (hsame : Same s s') (hio : s.ioG ≠ none → s'.ioG ≠ none) : Flags s' where
  stop hs := by
    rw [hsame.stopping] at hs
    rw [hsame.closed]
    exact h.stop hs
  drain hd := by
    rw [hsame.closeWhenDrained] at hd
    rw [hsame.closed, hsame.stopping]
    exact h.drain hd
  lost := by
    rw [hsame.lost, hsame.stopping]
    exact h.lost
  closing hc := by
    rw [hsame.closed] at hc
    rw [hsame.stopping, hsame.closeWhenDrained, hsame.buf, hsame.stack]
    exact (h.closing hc).imp_right fun h => ⟨h.1, h.2.1, hio h.2.2⟩

theorem Flags.kickIo (h : Flags s) : Flags s.kickIo := by
  apply h.of_same same_kickIo
  intro hio
  unfold State.kickIo
  split
  · exact hio
  · split
    · rw [same_cancelWaitFd.2]
      exact hio
    · nofun

theorem flags_of_stopping (hs : s.stopping = true) (hc : s.closed = true)
    (hd : s.closeWhenDrained = false) (hl : s.lost ≤ 1) : Flags s where
  stop _ := hc
  drain h := by
    rw [hd] at h
    cases h
  lost := by
    rw [hs]
    exact hl
  closing _ := .inl hs

section

variable (h : Flags s)
include h

theorem Flags.lost_eq_zero (hs : s.stopping = false) : s.lost = 0 := by
  have := h.lost
  rw [hs] at this
  exact Nat.le_zero.mp this

theorem Flags.open (hc : s.closed = false) : s.stopping = false ∧ s.closeWhenDrained = false := by
  constructor
  · cases hs : s.stopping with
    | false => rfl
    | true =>
      rw [h.stop hs] at hc
      cases hc
  · cases hd : s.closeWhenDrained with
    | false => rfl
    | true =>
      rw [(h.drain hd).1] at hc
      cases hc

theorem Flags.lost_le (hs : s.stopping = false) (b : Bool) : s.lost + b.toNat ≤ 1 := by
  rw [h.lost_eq_zero hs, Nat.zero_add]
  exact Bool.toNat_le b

theorem Flags.close (exc : Bool) : Flags (s.close exc) := by
  unfold State.close
  split
  next => exact h
  next hc =>
    have hc' : s.closed = false := Bool.eq_false_iff.mpr hc
    obtain ⟨hstop, hdrain⟩ := h.open hc'
    simp only
    split
    next hb =>
      simp only [Bool.and_eq_true, bne_iff_ne] at hb
      -- The state of a pending close, before the kick; the kick sees to the io fiber.
      have hsame := same_kickIo (s := { s with
        closed := true, connLostCalled := true, closeDeliverCl := !s.connLostCalled,
        closeWhenDrained := true })
      refine ⟨fun hs => ?_, fun _ => ?_, ?_, fun _ => .inr ⟨hsame.closeWhenDrained, ?_, ?_⟩⟩
      · exact hsame.closed
      · exact ⟨hsame.closed, hsame.stopping.trans hstop⟩
      · rw [hsame.lost, hsame.stopping]
        exact h.lost
      · rw [hsame.buf]
        exact .inl (Nat.pos_of_ne_zero hb.2)
      · exact ioG_kickIo hstop
    next =>
      have hsame := (same_cancelWaitFd (s := { s with
        closed := true, connLostCalled := true, stopping := true })).1
      refine flags_of_stopping hsame.stopping hsame.closed (hsame.closeWhenDrained.trans hdrain) ?_
      show _ + _ ≤ 1
      rw [hsame.lost]
      exact h.lost_le hstop _

theorem Flags.abort : Flags s.abort := by
  unfold State.abort
  simp only
  split
  next hc =>
    split
    next hs =>
      refine flags_of_stopping hs hc ?_ ?_
      · show s.closeWhenDrained = false
        by_contra hd
        have := (h.drain (Bool.not_eq_false _ ▸ hd)).2
        rw [show s.stopping = true from hs] at this
        cases this
      · have := h.lost
        rw [show s.stopping = true from hs] at this
        exact this
    next hs =>
      have hs' : s.stopping = false := Bool.eq_false_iff.mpr hs
      have hsame := (same_cancelWaitFd (s := { s with
        buf := 0, closeWhenDrained := false, stopping := true })).1
      refine flags_of_stopping hsame.stopping (hsame.closed.trans hc) hsame.closeWhenDrained ?_
      show _ + _ ≤ 1
      rw [hsame.lost]
      exact h.lost_le hs' _
  next hc =>
    have hopen : Flags { s with buf := 0 } := by
      refine ⟨h.stop, h.drain, h.lost, fun hc' => absurd hc' hc⟩
    exact hopen.close false

theorem Flags.tearDown (hd : s.closeWhenDrained = true) : Flags s.tearDown := by
  obtain ⟨hc, hs⟩ := h.drain hd
  exact flags_of_stopping rfl hc rfl (h.lost_le hs _)

end

/-! ## Calls -/

section

variable (hI : Inv s)
include hI

theorem Inv.close (exc : Bool) : Inv (s.close exc) :=
  ⟨hI.fibers.close exc, hI.flags.close exc⟩

theorem Inv.kickIo : Inv s.kickIo :=
  ⟨hI.fibers.kickIo, hI.flags.kickIo⟩

theorem Inv.congr (hsame : Same s s') (hf : s'.fiber = s.fiber) (hg : s'.ioG = s.ioG)
    (hn : s'.spawned = s.spawned) : Inv s' where
  fibers := hI.fibers.congr hf hg hn hsame.stack fun h => hsame.stopping.trans h
  flags := hI.flags.of_same hsame fun h => hg ▸ h

theorem Inv.queue {n : Nat} (hc : s.closed = false) : Inv (s.queue lim n) := by
  have hI' : Inv { s with buf := s.buf + n } := by
    refine ⟨hI.fibers.congr rfl rfl rfl rfl id, ⟨hI.flags.stop, hI.flags.drain, hI.flags.lost, ?_⟩⟩
    intro h
    rw [show s.closed = true from h] at hc
    cases hc
  unfold State.queue
  simp only
  split
  · refine ⟨⟨hI'.fibers.one, hI'.fibers.fresh, hI'.fibers.handle, fun fr hfr f hf => ?_, ?_⟩,
      ⟨hI'.flags.stop, hI'.flags.drain, hI'.flags.lost, ?_⟩⟩
    · rcases mem_cons.mp hfr with rfl | hfr
      · cases hf
      · exact hI'.fibers.frames fr hfr f hf
    · show (Frame.pauseWriting :: s.stack).countP _ ≤ 1
      rw [countP_cons_of_neg (by decide)]
      exact hI.fibers.single
    · intro h
      rw [show s.closed = true from h] at hc
      cases hc
  · exact hI'.kickIo

theorem Inv.write (n : Nat) (send : Send) : Inv (s.write lim n send) := by
  unfold State.write
  split
  next => exact hI
  next h =>
    have hc : s.closed = false := by
      cases hc : s.closed with
      | false => rfl
      | true =>
        rw [hc] at h
        simp at h
    split
    · split
      · exact hI.close true
      · exact hI.queue hc
      · split
        · exact hI
        · exact hI.queue hc
    · exact hI.queue hc

theorem Inv.call (c : Call) : Inv (s.call lim c) := by
  cases c with
  | write n send => exact hI.write n send
  | close => exact hI.close false
  | abort => exact ⟨hI.fibers.abort, hI.flags.abort⟩
  | writeEof =>
    show Inv s.writeEof
    unfold State.writeEof
    split
    · exact hI
    · split <;> exact hI.congr ⟨rfl, rfl, rfl, rfl, rfl, rfl⟩ rfl rfl rfl
  | pauseReading => exact hI.congr ⟨rfl, rfl, rfl, rfl, rfl, rfl⟩ rfl rfl rfl
  | resumeReading =>
    show Inv s.resumeReading
    unfold State.resumeReading
    split
    · apply Inv.kickIo
      exact hI.congr ⟨rfl, rfl, rfl, rfl, rfl, rfl⟩ rfl rfl rfl
    · exact hI

end

/-! ## The io fiber -/

/-- The fiber is alive, and no callback runs in it. -/
structure Runs (s : State) (f : Nat) : Prop where
  alive : (s.fiber f).alive = true
  free : ∀ fr ∈ s.stack, fr.fiber ≠ some f

theorem Runs.cancelWaitFd (h : Runs s f) : Runs s.cancelWaitFd f := by
  unfold State.cancelWaitFd
  split
  next => exact h
  next g hg =>
    split
    · refine ⟨?_, h.free⟩
      simp only [State.setFiber]
      by_cases hfg : f = g
      · rw [hfg, update_self]
        rfl
      · rw [update_of_ne hfg]
        exact h.alive
    · exact h

theorem Runs.kickIo (h : Runs s f) : Runs s.kickIo f := by
  unfold State.kickIo
  split
  · exact h
  · split
    · exact h.cancelWaitFd
    · refine ⟨?_, h.free⟩
      simp only [State.spawn]
      by_cases hfs : f = s.spawned
      · rw [hfs, update_self]
        rfl
      · rw [update_of_ne hfs]
        exact h.alive

theorem Runs.close (h : Runs s f) (exc : Bool) : Runs (s.close exc) f := by
  unfold State.close
  split
  · exact h
  · simp only
    split
    · apply Runs.kickIo
      exact ⟨h.alive, h.free⟩
    · have hstop : Runs { s with closed := true, connLostCalled := true, stopping := true } f :=
        ⟨h.alive, h.free⟩
      exact ⟨hstop.cancelWaitFd.alive, hstop.cancelWaitFd.free⟩

theorem Inv.setFiber (hI : Inv s) {pc : Pc} (hf : Runs s f)
    (hpc : pc.alive = true ∨ pc = .exited ∧ s.stopping = true) : Inv (s.setFiber f pc) where
  fibers := hI.fibers.setFiber hf.alive hf.free hpc
  flags := hI.flags.of_same ⟨rfl, rfl, rfl, rfl, rfl, rfl⟩ id

theorem Inv.top (hI : Inv s) (hf : Runs s f) (hstack : s.stack = []) : Inv (s.top f) := by
  unfold State.top
  split
  next hs =>
    refine ⟨hI.fibers.exit hf.alive hstack, ?_⟩
    exact ⟨hI.flags.stop, hI.flags.drain, hI.flags.lost, fun _ => .inl hs⟩
  next =>
    split
    next h =>
      simp only [Bool.and_eq_true, beq_iff_eq] at h
      refine ⟨hI.fibers.exit hf.alive hstack, hI.flags.stop, hI.flags.drain, hI.flags.lost, ?_⟩
      -- With an empty buffer, no close is pending.
      intro hc
      rcases hI.flags.closing hc with hs | ⟨-, hb | ⟨fr, hfr, -⟩, -⟩
      · exact .inl hs
      · omega
      · rw [hstack] at hfr
        cases hfr
    next => exact hI.setFiber hf (.inl rfl)

/-- What is left of `Flags` while the buffer is being drained. -/
structure Draining (s : State) : Prop where
  stop : s.stopping = true → s.closed = true
  drain : s.closeWhenDrained = true → s.closed = true ∧ s.stopping = false
  lost : s.lost ≤ s.stopping.toNat
  closing : s.closed = true → s.stopping = true ∨ s.closeWhenDrained = true ∧ s.ioG ≠ none

theorem Flags.draining (h : Flags s) : Draining s :=
  ⟨h.stop, h.drain, h.lost, fun hc => (h.closing hc).imp_right fun h => ⟨h.1, h.2.2⟩⟩

theorem Inv.drained (hF : Fibers s) (hD : Draining s) (hf : Runs s f) {r : Ready} : Inv (s.drained f r) := by
  unfold State.drained
  split
  next =>
    -- The deferred `write_eof` does not concern the invariant.
    have heof : ∀ s₁ : State, Same s s₁ → s₁.fiber = s.fiber → s₁.ioG = s.ioG → s₁.spawned = s.spawned →
        Inv ((if s₁.closeWhenDrained && !s₁.stopping then s₁.tearDown else s₁).setFiber f (.recv r)) := by
      intro s₁ hsame hfib hg hn
      have hF₁ : Fibers s₁ := hF.congr hfib hg hn hsame.stack fun h => hsame.stopping.trans h
      have hf₁ : Runs s₁ f := ⟨by rw [hfib]; exact hf.alive, by rw [hsame.stack]; exact hf.free⟩
      have hstop : s₁.stopping = true → s₁.closed = true := by
        rw [hsame.stopping, hsame.closed]
        exact hD.stop
      have hdrain : s₁.closeWhenDrained = true → s₁.closed = true ∧ s₁.stopping = false := by
        rw [hsame.closeWhenDrained, hsame.closed, hsame.stopping]
        exact hD.drain
      have hlost : s₁.lost ≤ s₁.stopping.toNat := by
        rw [hsame.lost, hsame.stopping]
        exact hD.lost
      split
      next hd =>
        simp only [Bool.and_eq_true, Bool.not_eq_true'] at hd
        have hl : s₁.lost = 0 := by
          rw [hd.2] at hlost
          exact Nat.le_zero.mp hlost
        have hI : Inv s₁.tearDown := by
          refine ⟨hF₁.tearDown, flags_of_stopping rfl (hdrain hd.1).1 rfl ?_⟩
          show s₁.lost + _ ≤ 1
          rw [hl, Nat.zero_add]
          exact Bool.toNat_le _
        exact hI.setFiber ⟨hf₁.alive, hf₁.free⟩ (.inl rfl)
      next hd =>
        have hI : Inv s₁ := by
          refine ⟨hF₁, hstop, hdrain, hlost, fun hc => ?_⟩
          rw [hsame.closed] at hc
          rcases hD.closing hc with h | h
          · exact .inl (hsame.stopping.trans h)
          · refine absurd ?_ hd
            rw [hsame.closeWhenDrained, hsame.stopping, h.1, (hD.drain h.1).2]
            rfl
        exact hI.setFiber hf₁ (.inl rfl)
    simp only
    split
    · exact heof _ ⟨rfl, rfl, rfl, rfl, rfl, rfl⟩ rfl rfl rfl
    · exact heof s ⟨rfl, rfl, rfl, rfl, rfl, rfl⟩ rfl rfl rfl
  next hb =>
    have hI : Inv s := by
      refine ⟨hF, hD.stop, hD.drain, hD.lost, fun hc => ?_⟩
      exact (hD.closing hc).imp_right fun h => ⟨h.1, .inl (Nat.pos_of_ne_zero hb), h.2⟩
    exact hI.setFiber hf (.inl rfl)

variable {fr : Frame}

theorem Fibers.push (h : Fibers s) (hf : (s.fiber f).alive = true)
    (hstack : s.stack = []) (hfr : fr.fiber = some f) :
    Fibers ({ s with stack := fr :: s.stack }.setFiber f .callback) := by
  have hfree : ∀ fr ∈ s.stack, fr.fiber ≠ some f := by
    rw [hstack]
    exact nofun
  have hset : Fibers (s.setFiber f .callback) := h.setFiber hf hfree (.inl rfl)
  refine ⟨hset.one, hset.fresh, hset.handle, fun fr' hmem g hg => ?_, ?_⟩
  · simp only [State.setFiber, hstack, mem_singleton] at hmem ⊢
    rw [hmem, hfr] at hg
    cases hg
    exact update_self ..
  · show (fr :: s.stack).countP _ ≤ 1
    rw [hstack]
    exact countP_le_length

theorem Flags.push (h : Flags s) : Flags ({ s with stack := fr :: s.stack }.setFiber f .callback) := by
  refine ⟨h.stop, h.drain, h.lost, fun hc => ?_⟩
  rcases h.closing hc with hs | ⟨hd, hb | ⟨fr', hmem, hdr⟩, hio⟩
  · exact .inl hs
  · exact .inr ⟨hd, .inl hb, hio⟩
  · exact .inr ⟨hd, .inr ⟨fr', mem_cons_of_mem _ hmem, hdr⟩, hio⟩

theorem Inv.push (hI : Inv s) (hf : (s.fiber f).alive = true) (hstack : s.stack = []) (hfr : fr.fiber = some f) :
    Inv ({ s with stack := fr :: s.stack }.setFiber f .callback) :=
  ⟨hI.fibers.push hf hstack hfr, hI.flags.push⟩

theorem Inv.drainStep (hI : Inv s) {r : Ready} (hf : Runs s f) (hstack : s.stack = [])
    (send : Send) : Inv (s.drainStep lim f r send) := by
  cases send with
  | blocked => exact hI.setFiber hf (.inl rfl)
  | error =>
    show Inv (State.setFiber (if s.closeWhenDrained then s.tearDown else s.close true) f (.recv r))
    split
    next hd =>
      have hI' : Inv s.tearDown := ⟨hI.fibers.tearDown, hI.flags.tearDown hd⟩
      exact hI'.setFiber ⟨hf.alive, hf.free⟩ (.inl rfl)
    next => exact (hI.close true).setFiber (hf.close true) (.inl rfl)
  | sent n =>
    have hF : Fibers { s with buf := s.buf - n } := hI.fibers.congr rfl rfl rfl rfl id
    have hD := hI.flags.draining
    unfold State.drainStep
    simp only
    split
    next =>
      -- The rest of the drain is left to the frame of the callback.
      have hF' : Fibers { s with buf := s.buf - n, protocolPaused := false } :=
        hF.congr rfl rfl rfl rfl id
      refine ⟨hF'.push hf.alive hstack rfl, hD.stop, hD.drain, hD.lost, fun hc => ?_⟩
      exact (hD.closing hc).imp_right fun h =>
        ⟨h.1, .inr ⟨_, mem_cons_self, rfl⟩, h.2⟩
    next =>
      exact Inv.drained hF ⟨hD.stop, hD.drain, hD.lost, hD.closing⟩ ⟨hf.alive, hf.free⟩

theorem stopping_close (h : Flags s) (hd : s.closeWhenDrained = false) : (s.close true).stopping = true := by
  unfold State.close
  split
  next hc =>
    rcases h.closing hc with hs | ⟨hd', -⟩
    · exact hs
    · rw [hd] at hd'
      cases hd'
  next => exact same_cancelWaitFd.1.stopping

theorem Inv.readFailed (hI : Inv s) (hf : Runs s f) (hd : s.closeWhenDrained = false) : Inv (s.readFailed f) :=
  (hI.close true).setFiber (hf.close true) (.inr ⟨rfl, stopping_close hI.flags hd⟩)

theorem Inv.received (hI : Inv s) (hf : Runs s f) (hstack : s.stack = [])
    (hfr : fr.fiber = some f) {outcome : Recv}
    (hd : outcome = .error → s.closeWhenDrained = false) : Inv (s.received f fr outcome) := by
  cases outcome with
  | blocked => exact hI.setFiber hf (.inl rfl)
  | error => exact hI.readFailed hf (hd rfl)
  | empty => exact hI.push hf.alive hstack rfl
  | data => exact hI.push hf.alive hstack hfr

theorem Inv.readEofHandled (hI : Inv s) (hf : Runs s f) (keep : Bool) : Inv (s.readEofHandled f keep) := by
  unfold State.readEofHandled
  cases keep with
  | true =>
    have hI' : Inv { s with readEof := true } := hI.congr ⟨rfl, rfl, rfl, rfl, rfl, rfl⟩ rfl rfl rfl
    exact hI'.setFiber ⟨hf.alive, hf.free⟩ (.inl rfl)
  | false =>
    have hIc := hI.close false
    refine hIc.setFiber (hf.close false) ?_
    cases hd : (s.close false).closeWhenDrained with
    | true => exact .inl rfl
    | false =>
      -- The transport is closed, and with no close pending it stops.
      have hc : (s.close false).closed = true := by
        unfold State.close at hd ⊢
        split
        next hc => exact hc
        next =>
          simp only
          split
          · exact same_kickIo.closed
          · exact same_cancelWaitFd.1.closed
      rcases hIc.flags.closing hc with hs | ⟨hd', -⟩
      · exact .inr ⟨rfl, hs⟩
      · rw [hd] at hd'
        cases hd'

/-! ## The end of a callback -/

variable {rest : List Frame}

theorem Fibers.pop (h : Fibers s) (hstack : s.stack = fr :: rest) : Fibers { s with stack := rest } where
  one := h.one
  fresh := h.fresh
  handle := h.handle
  frames fr' hfr' := by
    apply h.frames
    rw [hstack]
    exact mem_cons_of_mem _ hfr'
  single := by
    have hs := h.single
    rw [hstack] at hs
    exact Nat.le_trans (List.Sublist.countP_le (sublist_cons_self ..)) hs

theorem Flags.pop (h : Flags s) (hstack : s.stack = fr :: rest)
    (hfr : fr.drains = false) : Flags { s with stack := rest } := by
  refine ⟨h.stop, h.drain, h.lost, fun hc => ?_⟩
  rcases h.closing hc with hs | ⟨hd, hb | ⟨fr', hmem, hdr⟩, hio⟩
  · exact .inl hs
  · exact .inr ⟨hd, .inl hb, hio⟩
  · rw [hstack] at hmem
    rcases mem_cons.mp hmem with rfl | hmem
    · rw [hfr] at hdr
      cases hdr
    · exact .inr ⟨hd, .inr ⟨fr', hmem, hdr⟩, hio⟩

theorem Runs.pop (h : Fibers s)
    (hstack : s.stack = fr :: rest) (hfr : fr.fiber = some f) : Runs { s with stack := rest } f where
  alive := by
    have hcb := h.frames fr (hstack ▸ mem_cons_self) f hfr
    show (s.fiber f).alive = true
    rw [hcb]
    rfl
  free fr' hmem hf := by
    -- Two frames of the fiber would be two callbacks in io fibers.
    have hs := h.single
    rw [hstack, countP_cons_of_pos (by rw [hfr]; rfl)] at hs
    have hpos : 0 < rest.countP (·.fiber.isSome) :=
      countP_pos_iff.mpr ⟨fr', hmem, by rw [hf]; rfl⟩
    omega

def readFails (s : State) : Action → Bool
  | .ret .raised =>
    match s.stack with
    | .dataReceived _ :: _ | .getBuffer _ :: _ | .bufferUpdated _ :: _ => true
    | _ => false
  | .io f (.recv false .error) =>
    match s.fiber f with
    | .recv r => r.read && !s.paused && !s.readEof && !s.stopping
    | _ => false
  | .io f (.recvInto .error) => s.fiber f == .recvInto
  | _ => false

def Graceful (s : State) (a : Action) : Prop :=
  readFails s a = true → s.closeWhenDrained = false

instance (s : State) (a : Action) : Decidable (Graceful s a) :=
  inferInstanceAs (Decidable (_ → _))

theorem Inv.ret (hI : Inv s) (hstack : s.stack = fr :: rest)
    (r : Result) (hg : Graceful s (.ret r)) : Inv ({ s with stack := rest }.ret r fr) := by
  have hF := hI.fibers.pop hstack
  have hrun : ∀ f, fr.fiber = some f → Runs { s with stack := rest } f :=
    fun f hf => Runs.pop hI.fibers hstack hf
  have hI' : fr.drains = false → Inv { s with stack := rest } :=
    fun h => ⟨hF, hI.flags.pop hstack h⟩
  unfold Graceful readFails at hg
  cases fr with
  | connectionMade =>
    unfold State.ret
    simp only
    split
    next hio =>
      refine ⟨hF.spawn hio, ?_⟩
      exact (hI' rfl).flags.of_same ⟨rfl, rfl, rfl, rfl, rfl, rfl⟩ nofun
    next => exact hI' rfl
  | pauseWriting => exact (hI' rfl).kickIo
  | resumeWriting f ready =>
    have hD := hI.flags.draining
    exact Inv.drained hF ⟨hD.stop, hD.drain, hD.lost, hD.closing⟩ (hrun f rfl)
  | dataReceived f | bufferUpdated f | getBuffer f =>
    cases r with
    | returned keep => exact (hI' rfl).setFiber (hrun f rfl) (.inl rfl)
    | raised => exact (hI' rfl).readFailed (hrun f rfl) (hg (by rw [hstack]))
  | eofReceived f =>
    cases r with
    | returned keep => exact (hI' rfl).readEofHandled (hrun f rfl) keep
    | raised => exact (hI' rfl).readEofHandled (hrun f rfl) false

theorem Inv.io (hI : Inv s) {e : Event} (hstack : s.stack = [])
    (hg : Graceful s (.io f e)) (h : s.io lim f e (s.fiber f) = some s') : Inv s' := by
  have hrun : (s.fiber f).alive = true → Runs s f := by
    refine fun hf => ⟨hf, fun fr hfr => ?_⟩
    rw [hstack] at hfr
    cases hfr
  unfold Graceful readFails at hg
  generalize hpc : s.fiber f = pc at h hg hrun
  cases e with
  | top =>
    cases pc <;> cases h
    exact hI.top (hrun rfl) hstack
  | wake r =>
    cases pc <;> cases h
    refine hI.setFiber (hrun rfl) ?_
    split
    next hs => exact .inr ⟨rfl, hs⟩
    next => exact .inl rfl
  | interrupted cancelled =>
    cases pc <;> cases h
    refine hI.setFiber (hrun rfl) ?_
    split
    next hs =>
      simp only [Bool.and_eq_true] at hs
      exact .inr ⟨rfl, hs.2⟩
    next => exact .inl rfl
  | drain send =>
    cases pc <;> cases h
    split
    · exact hI.drainStep (hrun rfl) hstack send
    · exact hI.setFiber (hrun rfl) (.inl rfl)
  | recv buffered outcome =>
    cases pc <;> cases h
    split
    next hr =>
      unfold State.recvStep
      cases buffered with
      | true => exact hI.push (hrun rfl).alive hstack rfl
      | false =>
        refine hI.received (hrun rfl) hstack rfl ?_
        rintro rfl
        apply hg
        simp only [hpc]
        exact hr
    next => exact hI.setFiber (hrun rfl) (.inl rfl)
  | recvInto outcome =>
    cases pc <;> cases h
    refine hI.received (hrun rfl) hstack rfl ?_
    rintro rfl
    apply hg
    simp only [hpc]
    rfl

theorem Inv.step {a : Action} (hI : Inv s) (hg : Graceful s a) (h : step lim s a = some s') :
    Inv s' := by
  cases a with
  | call c =>
    cases h
    exact hI.call c
  | ret r =>
    simp only [StreamTransport.step] at h
    split at h <;> cases h
    next fr rest hstack => exact hI.ret hstack r hg
  | io f e =>
    simp only [StreamTransport.step] at h
    split at h
    next hstack => exact hI.io hstack hg h
    next => cases h

theorem inv_of_reachable (h : (transport lim).ReachableWith Graceful s) : Inv s :=
  h.invariant (fun _ => Inv.init) fun _ _ _ hI hg hs => hI.step hg hs

/-- A close leads to the teardown. -/
structure TornDown (s : State) : Prop where
  lost : s.lost ≤ 1
  one : ∀ f g, (s.fiber f).alive = true → (s.fiber g).alive = true → f = g
  closed : s.closed = true → s.stack = [] → s.stopping = true ∨
    s.closeWhenDrained = true ∧ 0 < s.buf ∧ ∃ f, s.ioG = some f ∧ (s.fiber f).alive = true

/-- As long as no read fails under a pending close, a closed transport is torn down, or its io fiber drains the
buffer. -/
theorem closed_transport_torn_down (lim : Limits) (s : State)
    (h : (transport lim).ReachableWith Graceful s) : TornDown s := by
  have hI := inv_of_reachable h
  refine ⟨?_, fun f g hf hg => ?_, fun hc hstack => ?_⟩
  · exact Nat.le_trans hI.flags.lost (Bool.toNat_le _)
  · have hio := hI.fibers.one f hf
    rw [hI.fibers.one g hg] at hio
    exact (Option.some.inj hio).symm
  · rcases hI.flags.closing hc with hs | ⟨hd, hb | ⟨fr, hfr, -⟩, hio⟩
    · exact .inl hs
    · obtain ⟨f, hf⟩ := Option.ne_none_iff_exists'.mp hio
      rcases hI.fibers.handle f hf with halive | hs
      · exact .inr ⟨hd, hb, f, hf, halive⟩
      · exact .inl hs
    · rw [hstack] at hfr
      cases hfr

/-- `__init__` calls `connection_made`. -/
def State.start : State where
  closed := false
  stopping := false
  closeWhenDrained := false
  connLostCalled := false
  closeDeliverCl := false
  paused := false
  readEof := false
  eofWritten := false
  eofPending := false
  protocolPaused := false
  buf := 0
  ioG := none
  fiber _ := .unborn
  spawned := 0
  stack := [.connectionMade]
  lost := 0

theorem init_start : Init .start :=
  ⟨rfl, rfl, rfl, rfl, rfl, rfl, fun _ => rfl, rfl, rfl, rfl⟩

/-- A close with bytes in the buffer, which the io fiber drains. -/
theorem closed_transport_torn_down_drained : ∃ s, TornDown s ∧ s.stopping = true ∧ s.lost = 1 := by
  obtain ⟨s, hr, hp⟩ := (transport ⟨64, 16⟩).reachesWith Graceful (fun s => s.stopping = true ∧ s.lost = 1)
    [.ret (.returned false), .call (.write 5 .blocked), .call .close, .io 0 .top,
      .io 0 (.wake ⟨false, true⟩), .io 0 (.drain (.sent 5))]
    init_start (by decide +kernel)
  exact ⟨s, closed_transport_torn_down _ s hr, hp⟩

/-- `data_received` queues a reply, closes and raises, and the io fiber leaves with the reply in the buffer. -/
theorem raise_after_close_strands_transport :
    ¬∀ (lim : Limits) (s : State), (transport lim).Reachable s → TornDown s := by
  intro hclaim
  obtain ⟨s, hr, hc, hstack, hstop, hio, hexit⟩ := (transport ⟨64, 16⟩).reaches
    (fun s => s.closed = true ∧ s.stack = [] ∧ s.stopping = false ∧ s.ioG = some 0 ∧
      s.fiber 0 = .exited)
    [.ret (.returned false), .io 0 .top, .io 0 (.wake ⟨true, false⟩), .io 0 (.drain .blocked),
      .io 0 (.recv false .data), .call (.write 5 .blocked), .call .close, .ret .raised]
    init_start (by decide +kernel)
  rcases (hclaim _ s hr).closed hc hstack with hs | ⟨-, -, f, hf, halive⟩
  · rw [hstop] at hs
    cases hs
  · rw [hio] at hf
    cases hf
    rw [hexit] at halive
    cases halive

end Runloom.StreamTransport
