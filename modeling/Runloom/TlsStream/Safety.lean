import Mathlib.Data.List.Infix
import Runloom.TlsStream.Model

/-!
# TLS output keeps its order, and its fiber stays alive

The bytes that the TLS object has produced are on the wire, in the view of the one fiber that is in
`_pump_out`, or in the outgoing BIO.  A cancel that finds the io fiber in a park inside `_pump_out` or
`send` drops the view and ends the fiber.
-/

namespace Runloom.TlsStream

open Transition List

variable {α : Type*} {s s' : State α}

/-- The pump is part of `send`. -/
def After.sends : After → Bool
  | .consumed _ | .retry => true
  | _ => false

namespace Pc

def view : Pc α → List α
  | .pump v _ | .pumpWait v _ => v
  | _ => []

/-- The fiber is in `send`, for bytes of the write buffer. -/
def sends : Pc α → Bool
  | .encrypt | .feed | .readWait => true
  | .flush k | .pump _ k | .pumpWait _ k => k.sends
  | _ => false

def notifies : Pc α → Bool
  | .flush k | .pump _ k | .pumpWait _ k => !k.sends
  | _ => false

/-- The fiber is parked inside `send` or `_pump_out`. -/
def inner : Pc α → Bool
  | .pumpWait _ _ | .readWait => true
  | _ => false

end Pc

variable {pc : Pc α}

theorem Pc.view_eq_nil (hs : pc.sends = false) (hn : pc.notifies = false) : pc.view = [] := by
  cases pc with
  | pump v k | pumpWait v k =>
    simp only [Pc.sends] at hs
    simp only [Pc.notifies, hs] at hn
    cases hn
  | _ => rfl

def Closer.view : Closer α → List α
  | .pump v | .pumpWait v => v
  | _ => []

def Bytes (s : State α) : Prop :=
  if s.lost then s.sent <+: s.produced ∧ s.io = .dead ∧ s.closer = .idle
  else s.produced = s.sent ++ (s.io.view ++ (s.closer.view ++ s.out))

structure Inv (s : State α) : Prop where
  bytes : Bytes s
  sends : s.io.sends = true → 0 < s.buf
  notifies : s.io.notifies = true → s.tlsShutdownSent = true
  closer : s.closer ≠ .idle → s.closed = true ∧ s.buf = 0 ∧ s.tlsShutdownSent = true ∧
    s.io.sends = false ∧ s.io.notifies = false
  dead : s.io = .dead → 0 < s.buf ∨ s.tlsShutdownSent = true
  exited : s.io = .exited → s.stopping = true ∨ s.ioG = false ∧ s.buf = 0
  handle : s.ioG = false → s.io = .exited

theorem Inv.init (h : Init s) : Inv s where
  bytes := by
    unfold Bytes
    rw [h.lost, h.produced, h.sent, h.io, h.closer, h.out]
    rfl
  sends hs := by
    rw [h.io] at hs
    cases hs
  notifies hs := by
    rw [h.io] at hs
    cases hs
  closer hc := absurd h.closer hc
  dead hd := by
    rw [h.io] at hd
    cases hd
  exited _ := .inr ⟨h.ioG, h.buf⟩
  handle _ := h.io

theorem Inv.sent_isPrefix (hI : Inv s) : s.sent <+: s.produced := by
  have hbytes := hI.bytes
  unfold Bytes at hbytes
  split at hbytes
  · exact hbytes.1
  · rw [hbytes]
    exact prefix_append ..

theorem Inv.conserve (hI : Inv s) (hd : s.io ≠ .dead) :
    s.lost = false ∧ s.produced = s.sent ++ (s.io.view ++ (s.closer.view ++ s.out)) := by
  have hbytes := hI.bytes
  unfold Bytes at hbytes
  split at hbytes
  next => exact absurd hbytes.2.1 hd
  next hl => exact ⟨Bool.eq_false_iff.mpr hl, hbytes⟩

theorem bytes_of_conserve (hl : s.lost = false)
    (h : s.produced = s.sent ++ (s.io.view ++ (s.closer.view ++ s.out))) : Bytes s := by
  unfold Bytes
  rw [hl]
  exact h

theorem Inv.rest (hI : Inv s) (hg : s.ioG = true) (hd : s.io ≠ .dead) (hview : s.io.view = [])
    (hpc : pc.view = [] ∧ pc.sends = false ∧ pc.notifies = false ∧ pc ≠ .dead ∧ pc ≠ .exited) :
    Inv { s with io := pc } := by
  obtain ⟨hlost, hcons⟩ := hI.conserve hd
  obtain ⟨hv, hs, hn, hdead, hexit⟩ := hpc
  refine ⟨bytes_of_conserve hlost ?_, fun h => ?_, fun h => ?_, fun h => ?_,
    fun h => absurd h hdead, fun h => absurd h hexit, fun h => ?_⟩
  · show s.produced = s.sent ++ (pc.view ++ (s.closer.view ++ s.out))
    rw [hv, ← hview]
    exact hcons
  · rw [show pc.sends = true from h] at hs
    cases hs
  · rw [show pc.notifies = true from h] at hn
    cases hn
  · obtain ⟨h1, h2, h3, -⟩ := hI.closer h
    exact ⟨h1, h2, h3, hs, hn⟩
  · rw [show s.ioG = false from h] at hg
    cases hg

theorem Inv.inSend (hI : Inv s) (hg : s.ioG = true) (hd : s.io ≠ .dead) (hview : pc.view = s.io.view)
    (hsends : pc.sends = true) (hbuf : 0 < s.buf) : Inv { s with io := pc } := by
  obtain ⟨hlost, hcons⟩ := hI.conserve hd
  have hn : pc.notifies = false := by
    cases pc <;> simp_all [Pc.sends, Pc.notifies]
  refine ⟨bytes_of_conserve hlost ?_, fun _ => hbuf, fun h => ?_, fun h => ?_, fun h => ?_,
    fun h => ?_, fun h => ?_⟩
  · show s.produced = s.sent ++ (pc.view ++ (s.closer.view ++ s.out))
    rw [hview]
    exact hcons
  · rw [show pc.notifies = true from h] at hn
    cases hn
  · have := (hI.closer h).2.1
    omega
  · rw [show pc = .dead from h] at hsends
    cases hsends
  · rw [show pc = .exited from h] at hsends
    cases hsends
  · rw [show s.ioG = false from h] at hg
    cases hg

theorem Inv.ioG_of_ne (hI : Inv s) (h : s.io ≠ .exited) : s.ioG = true := by
  cases hg : s.ioG with
  | true => rfl
  | false => exact absurd (hI.handle hg) h

/-! ## The io fiber is cancelled -/

theorem Inv.cancelWaitFd (hI : Inv s) : Inv s.cancelWaitFd := by
  unfold State.cancelWaitFd
  split
  next hio =>
    apply hI.rest (hI.ioG_of_ne (by rw [hio]; nofun)) (by rw [hio]; nofun) (by rw [hio]; rfl)
    exact ⟨rfl, rfl, rfl, nofun, nofun⟩
  next v k hio =>
    have hg := hI.ioG_of_ne (by rw [hio]; nofun)
    have hsends := hI.sends
    have hnotifies := hI.notifies
    have hcloser := hI.closer
    rw [hio] at hsends hnotifies hcloser
    have hactive : 0 < s.buf ∨ s.tlsShutdownSent = true := by
      cases hk : k.sends with
      | true => exact .inl (hsends hk)
      | false =>
        refine .inr (hnotifies ?_)
        simp only [Pc.notifies, hk]
        rfl
    -- The call of `close` does not pump while the io fiber does.
    have hidle : s.closer = .idle := by
      by_contra h
      obtain ⟨-, -, -, h1, h2⟩ := hcloser h
      simp only [Pc.sends] at h1
      simp only [Pc.notifies, h1] at h2
      cases h2
    refine ⟨⟨hI.sent_isPrefix, rfl, hidle⟩, nofun, nofun, fun h => absurd hidle h, fun _ => hactive,
      nofun, fun h => ?_⟩
    rw [show s.ioG = false from h] at hg
    cases hg
  next hio =>
    have hg := hI.ioG_of_ne (by rw [hio]; nofun)
    obtain ⟨hlost, hcons⟩ := hI.conserve (by rw [hio]; nofun)
    have hbuf : 0 < s.buf := hI.sends (by rw [hio]; rfl)
    rw [hio] at hcons
    refine ⟨bytes_of_conserve hlost hcons, nofun, nofun, fun h => ?_, fun _ => .inl hbuf, nofun, fun h => ?_⟩
    · have := (hI.closer h).2.1
      omega
    · rw [show s.ioG = false from h] at hg
      cases hg
  next => exact hI

theorem Inv.spawn (hI : Inv s) (hg : s.ioG = false) : Inv { s with ioG := true, io := .loop } := by
  have hio := hI.handle hg
  obtain ⟨hlost, hcons⟩ := hI.conserve (by rw [hio]; nofun)
  rw [hio] at hcons
  refine ⟨bytes_of_conserve hlost hcons, nofun, nofun, fun h => ?_, nofun, nofun, nofun⟩
  obtain ⟨h1, h2, h3, -⟩ := hI.closer h
  exact ⟨h1, h2, h3, rfl, rfl⟩

theorem Inv.kickIo (hI : Inv s) : Inv s.kickIo := by
  unfold State.kickIo
  split
  · exact hI
  · split
    next => exact hI.cancelWaitFd
    next hg => exact hI.spawn (Bool.eq_false_iff.mpr hg)

/-! ## The calls -/

section

variable (hI : Inv s)
include hI

theorem Inv.queue {n : Nat} (hc : s.closed = false)
    (hx : s.io = .exited → s.stopping = true) : Inv { s with buf := s.buf + n } where
  bytes := hI.bytes
  sends h := Nat.lt_of_lt_of_le (hI.sends h) (Nat.le_add_right _ _)
  notifies := hI.notifies
  closer h := by
    rw [show s.closed = true from (hI.closer h).1] at hc
    cases hc
  dead h := (hI.dead h).imp_left fun h => Nat.lt_of_lt_of_le h (Nat.le_add_right _ _)
  exited h := .inl (hx h)
  handle := hI.handle

theorem Inv.write (n : Nat) : Inv (s.write n) := by
  unfold State.write
  split
  next => exact hI
  next h =>
    have hc : s.closed = false := by
      cases hc : s.closed with
      | false => rfl
      | true =>
        rw [hc] at h
        exact absurd rfl h
    unfold State.kickIo
    split
    next hs => exact hI.queue hc fun _ => hs
    next hs =>
      split
      next hg =>
        refine (hI.queue hc fun hio => ?_).cancelWaitFd
        rcases hI.exited hio with h | ⟨h, -⟩
        · exact h
        · rw [show s.ioG = true from hg] at h
          cases h
      next hg =>
        have hI' := hI.spawn (Bool.eq_false_iff.mpr hg)
        exact hI'.queue hc nofun

theorem Inv.resumeReading : Inv s.resumeReading := by
  unfold State.resumeReading
  split
  · have hI' : Inv { s with paused := false } := { hI with }
    exact hI'.kickIo
  · exact hI

theorem Inv.tearDown (hcons : s.closer.view = []) : Inv s.tearDown := by
  apply Inv.cancelWaitFd
  refine ⟨?_, hI.sends, hI.notifies, fun h => absurd rfl h, hI.dead, fun _ => .inl rfl, hI.handle⟩
  have hbytes := hI.bytes
  unfold Bytes at hbytes ⊢
  split at hbytes
  next hl =>
    rw [if_pos hl]
    exact ⟨hbytes.1, hbytes.2.1, rfl⟩
  next hl =>
    rw [hcons] at hbytes
    rw [if_neg hl]
    exact hbytes

theorem Inv.close (bytes : List α) : Inv (s.close bytes) := by
  unfold State.close
  split
  next => exact hI
  next hc =>
    have hidle : s.closer = .idle := by
      by_contra h
      exact hc (hI.closer h).1
    have hI' : Inv { s with closed := true } :=
      { hI with closer := fun h => absurd hidle h }
    simp only
    split
    next hbuf =>
      split
      next =>
        apply hI'.tearDown
        show s.closer.view = []
        rw [hidle]
        rfl
      next htls =>
        -- With nothing queued and no close_notify sent, the io fiber does not send.
        have hd : s.io ≠ .dead := by
          intro h
          rcases hI.dead h with h | h
          · omega
          · exact htls h
        have hsends : s.io.sends = false := by
          cases h : s.io.sends with
          | false => rfl
          | true =>
            have := hI.sends h
            omega
        have hnotifies : s.io.notifies = false := by
          cases h : s.io.notifies with
          | false => rfl
          | true => exact absurd (hI.notifies h) htls
        obtain ⟨hlost, hcons⟩ := hI.conserve hd
        have hview := Pc.view_eq_nil hsends hnotifies
        rw [hidle, hview] at hcons
        refine ⟨bytes_of_conserve hlost ?_, hI.sends, fun _ => rfl, fun _ => ?_,
          fun _ => .inr rfl, hI.exited, hI.handle⟩
        · show s.produced ++ bytes = s.sent ++ (s.io.view ++ ([] ++ (s.out ++ bytes)))
          rw [hview, hcons]
          simp only [Closer.view, nil_append, append_assoc]
        · exact ⟨rfl, hbuf, rfl, hsends, hnotifies⟩
    next =>
      have hI'' : Inv { s with closed := true, closeWhenDrained := true } := { hI' with }
      exact hI''.kickIo

theorem Inv.setCloser {c : Closer α} {out sent : List α} (hold : s.closer ≠ .idle)
    (hmove : s.sent ++ (s.closer.view ++ s.out) = sent ++ (c.view ++ out)) :
    Inv { s with closer := c, out := out, sent := sent } := by
  obtain ⟨h1, h2, h3, h4, h5⟩ := hI.closer hold
  have hview := Pc.view_eq_nil h4 h5
  refine ⟨?_, hI.sends, hI.notifies, fun _ => ⟨h1, h2, h3, h4, h5⟩, hI.dead, hI.exited, hI.handle⟩
  have hbytes := hI.bytes
  unfold Bytes at hbytes
  split at hbytes
  next => exact absurd hbytes.2.2 hold
  next hl =>
    refine bytes_of_conserve (Bool.eq_false_iff.mpr hl) ?_
    rw [hview] at hbytes
    show s.produced = sent ++ (s.io.view ++ (c.view ++ out))
    rw [hview, nil_append, ← hmove]
    exact hbytes

theorem Inv.closing {k : Nat} (h : s.closing k s.closer = some s') : Inv s' := by
  unfold State.closing at h
  split at h
  next => cases h
  next hc =>
    cases h
    apply hI.setCloser (by rw [hc]; nofun)
    rw [hc]
    simp only [Closer.view, nil_append, append_nil]
  next hc =>
    cases h
    apply hI.tearDown
    rw [hc]
    rfl
  next view _ hc =>
    have hne : s.closer ≠ .idle := by
      rw [hc]
      nofun
    split at h
    · cases h
      apply hI.setCloser hne
      rw [hc]
      rfl
    · split at h <;> cases h
      apply hI.setCloser hne
      rw [hc]
      simp only [Closer.view, append_assoc]
      rw [← append_assoc (view.take k), take_append_drop]
  next view hc =>
    cases h
    apply hI.setCloser (by rw [hc]; nofun)
    rw [hc]
    rfl

end

/-! ## The io fiber -/

theorem Inv.exit (hI : Inv s) {g : Bool} (hd : s.io ≠ .dead) (hview : s.io.view = [])
    (hwhy : s.stopping = true ∨ g = false ∧ s.buf = 0) : Inv { s with ioG := g, io := .exited } := by
  obtain ⟨hlost, hcons⟩ := hI.conserve hd
  rw [hview] at hcons
  refine ⟨bytes_of_conserve hlost hcons, nofun, nofun, fun h => ?_, nofun, fun _ => hwhy, fun _ => rfl⟩
  obtain ⟨h1, h2, h3, -⟩ := hI.closer h
  exact ⟨h1, h2, h3, rfl, rfl⟩

variable {k : After} {bytes : List α}

section

variable (hI : Inv s)
include hI

theorem Inv.notify (hd : s.io ≠ .dead)
    (hg : s.ioG = true) (hview : s.io.view = []) (hidle : s.closer = .idle) (hk : k.sends = false) :
    Inv { s.unwrap bytes with io := .flush k } := by
  obtain ⟨hlost, hcons⟩ := hI.conserve hd
  refine ⟨bytes_of_conserve hlost ?_, fun h => ?_, fun _ => rfl, fun h => absurd hidle h, nofun,
    nofun, fun h => ?_⟩
  · show s.produced ++ bytes = s.sent ++ ([] ++ (s.closer.view ++ (s.out ++ bytes)))
    rw [hcons, hview]
    simp only [nil_append, append_assoc]
  · rw [show k.sends = true from h] at hk
    cases hk
  · rw [show s.ioG = false from h] at hg
    cases hg

theorem Inv.top (hio : s.io = .loop) : Inv (s.top bytes) := by
  have hd : s.io ≠ .dead := by
    rw [hio]
    nofun
  have hg : s.ioG = true := hI.ioG_of_ne (by rw [hio]; nofun)
  have hview : s.io.view = [] := by
    rw [hio]
    rfl
  unfold State.top
  split
  next hs => exact hI.exit hd hview (.inl hs)
  next =>
    split
    next h =>
      simp only [Bool.and_eq_true, Bool.not_eq_true'] at h
      apply hI.notify hd hg hview _ rfl
      by_contra hc
      rw [(hI.closer hc).1] at h
      cases h.1.2
    next =>
      split
      next h =>
        simp only [Bool.and_eq_true, beq_iff_eq] at h
        exact hI.exit hd hview (.inr ⟨rfl, h.2⟩)
      next => exact hI.rest hg hd hview ⟨rfl, rfl, rfl, nofun, nofun⟩

theorem Inv.ready {writable : Bool} (hio : s.io = .outer) : Inv (s.ready writable) := by
  have hd : s.io ≠ .dead := by
    rw [hio]
    nofun
  have hg : s.ioG = true := hI.ioG_of_ne (by rw [hio]; nofun)
  have hview : s.io.view = [] := by
    rw [hio]
    rfl
  unfold State.ready
  split
  next hs => exact hI.exit hd hview (.inl hs)
  next =>
    split
    next h =>
      simp only [Bool.and_eq_true, bne_iff_ne] at h
      apply hI.inSend hg hd _ rfl (Nat.pos_of_ne_zero h.2)
      rw [hio]
      rfl
    next => exact hI.rest hg hd hview ⟨rfl, rfl, rfl, nofun, nofun⟩

theorem Inv.encrypt (hio : s.io = .encrypt) (hk : k.sends = true) :
    Inv { s with out := s.out ++ bytes, produced := s.produced ++ bytes, io := .flush k } := by
  have hbuf : 0 < s.buf := hI.sends (by rw [hio]; rfl)
  have hg : s.ioG = true := hI.ioG_of_ne (by rw [hio]; nofun)
  have hidle : s.closer = .idle := by
    by_contra hc
    have := (hI.closer hc).2.1
    omega
  obtain ⟨hlost, hcons⟩ := hI.conserve (by rw [hio]; nofun)
  refine ⟨bytes_of_conserve hlost ?_, fun _ => hbuf, fun h => ?_, fun h => absurd hidle h, nofun,
    nofun, fun h => ?_⟩
  · show s.produced ++ bytes = s.sent ++ ([] ++ (s.closer.view ++ (s.out ++ bytes)))
    rw [hcons, hio]
    simp only [Pc.view, nil_append, append_assoc]
  · simp only [Pc.notifies, hk] at h
    cases h
  · rw [show s.ioG = false from h] at hg
    cases hg

theorem Inv.pumping {out sent : List α} (hd : s.io ≠ .dead)
    (hg : s.ioG = true) (hs : pc.sends = s.io.sends) (hn : pc.notifies = s.io.notifies)
    (hpc : pc ≠ .dead ∧ pc ≠ .exited) (hidle : s.closer = .idle)
    (hmove : s.sent ++ (s.io.view ++ s.out) = sent ++ (pc.view ++ out)) :
    Inv { s with io := pc, out := out, sent := sent } := by
  obtain ⟨hlost, hcons⟩ := hI.conserve hd
  refine ⟨bytes_of_conserve hlost ?_, fun h => hI.sends (hs ▸ h), fun h => hI.notifies (hn ▸ h),
    fun h => absurd hidle h, fun h => absurd h hpc.1, fun h => absurd h hpc.2, fun h => ?_⟩
  · show s.produced = sent ++ (pc.view ++ (s.closer.view ++ out))
    rw [hidle] at hcons ⊢
    exact hcons.trans hmove
  · rw [show s.ioG = false from h] at hg
    cases hg

theorem Inv.closer_idle (h : (s.io.sends || s.io.notifies) = true) : s.closer = .idle := by
  by_contra hc
  obtain ⟨-, -, -, hs, hn⟩ := hI.closer hc
  rw [hs, hn] at h
  cases h

end

theorem After.sends_or (k : After) : (k.sends || !k.sends) = true := by
  cases k.sends <;> rfl

section

variable (hI : Inv s)
include hI

theorem Inv.flush (hio : s.io = .flush k) : Inv { s with io := .pump s.out k, out := [] } := by
  refine hI.pumping (by rw [hio]; nofun) (hI.ioG_of_ne (by rw [hio]; nofun)) (by rw [hio]; rfl)
    (by rw [hio]; rfl) ⟨nofun, nofun⟩ ?_ ?_
  · apply hI.closer_idle
    rw [hio]
    exact k.sends_or
  · rw [hio]
    simp only [Pc.view, nil_append, append_nil]

theorem Inv.rawSend {view : List α} {after : After} {n : Nat} (hio : s.io = .pump view after) :
    Inv { s with sent := s.sent ++ view.take n, io := .pump (view.drop n) after } := by
  refine hI.pumping (by rw [hio]; nofun) (hI.ioG_of_ne (by rw [hio]; nofun)) (by rw [hio]; rfl)
    (by rw [hio]; rfl) ⟨nofun, nofun⟩ ?_ ?_
  · apply hI.closer_idle
    rw [hio]
    exact after.sends_or
  · rw [hio]
    simp only [Pc.view, append_assoc]
    rw [← append_assoc (view.take n), take_append_drop]

theorem Inv.pumpPark {view : List α} {after : After} (hio : s.io = .pump view after ∨ s.io = .pumpWait view after)
    (hpc : pc = .pump view after ∨ pc = .pumpWait view after) : Inv { s with io := pc } := by
  refine hI.pumping ?_ ?_ ?_ ?_ ?_ ?_ ?_
  · rcases hio with h | h <;> rw [h] <;> nofun
  · apply hI.ioG_of_ne
    rcases hio with h | h <;> rw [h] <;> nofun
  · rcases hio with h | h <;> rcases hpc with rfl | rfl <;> rw [h] <;> rfl
  · rcases hio with h | h <;> rcases hpc with rfl | rfl <;> rw [h] <;> rfl
  · rcases hpc with rfl | rfl <;> exact ⟨nofun, nofun⟩
  · apply hI.closer_idle
    rcases hio with h | h <;> rw [h] <;> exact after.sends_or
  · rcases hio with h | h <;> rcases hpc with rfl | rfl <;> rw [h] <;> rfl

theorem Inv.afterSend {n : Nat} (hio : s.io = .pump [] (.consumed n)) : Inv (s.afterSend n bytes) := by
  have hidle : s.closer = .idle := hI.closer_idle (by rw [hio]; rfl)
  have hg : s.ioG = true := hI.ioG_of_ne (by rw [hio]; nofun)
  -- The fiber has left `send`.
  have hI' : Inv { s with buf := s.buf - n, io := .loop } := by
    obtain ⟨hlost, hcons⟩ := hI.conserve (by rw [hio]; nofun)
    rw [hio] at hcons
    refine ⟨bytes_of_conserve hlost hcons, nofun, nofun, fun h => absurd hidle h, nofun, nofun, fun h => ?_⟩
    rw [show s.ioG = false from h] at hg
    cases hg
  unfold State.afterSend
  simp only
  split
  · split
    · exact ⟨hI'.bytes, nofun, nofun, hI'.closer, nofun, nofun, hI'.handle⟩
    · exact hI'.notify nofun hg rfl hidle rfl
  · exact hI'

theorem Inv.pumped (hio : s.io = .pump [] k) : Inv (s.pumped bytes k) := by
  have hd : s.io ≠ .dead := by
    rw [hio]
    nofun
  have hg : s.ioG = true := hI.ioG_of_ne (by rw [hio]; nofun)
  have hview : s.io.view = [] := by
    rw [hio]
    rfl
  cases k with
  | consumed n => exact hI.afterSend hio
  | retry => exact hI.inSend hg hd hview.symm rfl (hI.sends (by rw [hio]; rfl))
  | notified =>
    unfold State.pumped State.afterNotify
    simp only
    split
    next h =>
      simp only [Bool.and_eq_true, beq_iff_eq] at h
      exact hI.exit hd hview (.inr ⟨rfl, h.2⟩)
    next => exact hI.rest hg hd hview ⟨rfl, rfl, rfl, nofun, nofun⟩
  | drained =>
    have hI' : Inv { s with io := .loop } := hI.rest hg hd hview ⟨rfl, rfl, rfl, nofun, nofun⟩
    exact ⟨hI'.bytes, nofun, nofun, hI'.closer, nofun, nofun, hI'.handle⟩

theorem Inv.step {a : Action α} (h : step s a = some s') : Inv s' := by
  cases a with
  | start =>
    simp only [TlsStream.step] at h
    split at h <;> cases h
    next hg => exact hI.spawn (Bool.eq_false_iff.mpr hg)
  | write n =>
    cases h
    exact hI.write n
  | pauseReading =>
    cases h
    exact { hI with }
  | resumeReading =>
    cases h
    exact hI.resumeReading
  | close bytes =>
    cases h
    exact hI.close bytes
  | closing k => exact hI.closing h
  | top bytes =>
    simp only [TlsStream.step] at h
    split at h <;> cases h
    next hio => exact hI.top hio
  | ready writable eof =>
    simp only [TlsStream.step] at h
    split at h <;> cases h
    next hio =>
      have hI' : Inv { s with readEof := s.readEof || eof } := { hI with }
      exact hI'.ready hio
  | encrypt bytes n =>
    simp only [TlsStream.step] at h
    split at h
    next hio =>
      split at h <;> cases h
      apply hI.encrypt hio
      split <;> rfl
    next => cases h
  | flush =>
    simp only [TlsStream.step] at h
    split at h <;> cases h
    next k hio => exact hI.flush hio
  | rawSend n =>
    simp only [TlsStream.step] at h
    split at h
    next view after hio =>
      split at h
      · cases h
      · split at h
        · cases h
          exact hI.pumpPark (.inl hio) (.inr rfl)
        · split at h <;> cases h
          exact hI.rawSend hio
    next => cases h
  | wake =>
    simp only [TlsStream.step] at h
    split at h <;> cases h
    next view k hio => exact hI.pumpPark (.inr hio) (.inl rfl)
    next hio =>
      apply hI.inSend (hI.ioG_of_ne (by rw [hio]; nofun)) (by rw [hio]; nofun) _ rfl (hI.sends (by rw [hio]; rfl))
      rw [hio]
      rfl
  | feed blocked =>
    simp only [TlsStream.step] at h
    split at h <;> cases h
    next hio =>
      apply hI.inSend (hI.ioG_of_ne (by rw [hio]; nofun)) (by rw [hio]; nofun) _ _ (hI.sends (by rw [hio]; rfl))
      · rw [hio]
        cases blocked <;> rfl
      · cases blocked <;> rfl
  | pumped bytes =>
    simp only [TlsStream.step] at h
    split at h <;> cases h
    next k hio => exact hI.pumped hio

end

theorem inv_of_reachable (h : transport.Reachable s) : Inv s :=
  h.invariant (fun _ => Inv.init) fun _ _ _ hI _ hs => hI.step hs

/-! ## The io fiber stays alive -/

/-- The call goes through `_kick_io` to the io fiber. -/
def kicks (s : State α) : Action α → Bool
  | .write n => !s.closed && n != 0
  | .resumeReading => s.paused
  | .close _ => !s.closed && s.buf != 0
  | _ => false

/-- A kick does not find the io fiber parked inside `send` or `_pump_out`. -/
def Quiet (s : State α) (a : Action α) : Prop :=
  kicks s a = true → s.io.inner = false

instance (s : State α) (a : Action α) : Decidable (Quiet s a) :=
  inferInstanceAs (Decidable (_ → _))

def Alive (s : State α) : Prop :=
  s.io = .dead → s.stopping = true

theorem Alive.kickIo (h : Alive s) (hq : s.io.inner = false) : Alive s.kickIo := by
  unfold State.kickIo
  split
  · exact h
  · split
    · unfold State.cancelWaitFd
      split
      next => nofun
      next hio =>
        rw [hio] at hq
        cases hq
      next hio =>
        rw [hio] at hq
        cases hq
      next => exact h
    · nofun

theorem alive_tearDown : Alive s.tearDown := by
  intro _
  unfold State.tearDown State.cancelWaitFd
  split <;> rfl

theorem Alive.step (h : Alive s) {a : Action α} (hq : Quiet s a) (hs : step s a = some s') :
    Alive s' := by
  have hkick : ∀ {b c d p}, (kicks s a = true) →
      Alive { s with buf := b, closed := c, closeWhenDrained := d, paused := p }.kickIo :=
    fun hk => Alive.kickIo (s := { s with buf := _, closed := _, closeWhenDrained := _, paused := _ }) h (hq hk)
  cases a with
  | start | flush =>
    simp only [TlsStream.step] at hs
    split at hs <;> cases hs
    nofun
  | write n =>
    cases hs
    unfold State.write
    split
    next => exact h
    next hk =>
      apply hkick
      simpa [kicks] using hk
  | pauseReading =>
    cases hs
    exact h
  | resumeReading =>
    cases hs
    unfold State.resumeReading
    split
    next hk => exact hkick hk
    next => exact h
  | close bytes =>
    cases hs
    unfold State.close
    split
    next => exact h
    next hc =>
      simp only
      split
      next =>
        split
        · exact alive_tearDown
        · exact h
      next hb =>
        apply hkick
        show (!s.closed && s.buf != 0) = true
        rw [Bool.eq_false_iff.mpr hc]
        exact bne_iff_ne.mpr hb
  | closing k =>
    simp only [TlsStream.step] at hs
    unfold State.closing at hs
    split at hs
    · cases hs
    · cases hs
      exact h
    · cases hs
      exact alive_tearDown
    · split at hs
      · cases hs
        exact h
      · split at hs <;> cases hs
        exact h
    · cases hs
      exact h
  | top bytes =>
    simp only [TlsStream.step] at hs
    split at hs <;> cases hs
    unfold State.top
    split
    · nofun
    split
    · nofun
    split <;> nofun
  | ready writable eof =>
    simp only [TlsStream.step] at hs
    split at hs <;> cases hs
    unfold State.ready
    split
    · nofun
    split <;> nofun
  | encrypt bytes n =>
    simp only [TlsStream.step] at hs
    split at hs
    · split at hs <;> cases hs
      nofun
    · cases hs
  | rawSend k =>
    simp only [TlsStream.step] at hs
    split at hs
    · split at hs
      · cases hs
      split at hs
      · cases hs
        nofun
      split at hs <;> cases hs
      nofun
    · cases hs
  | wake =>
    simp only [TlsStream.step] at hs
    split at hs <;> cases hs <;> nofun
  | feed blocked =>
    simp only [TlsStream.step] at hs
    split at hs <;> cases hs
    cases blocked <;> nofun
  | pumped bytes =>
    simp only [TlsStream.step] at hs
    split at hs <;> cases hs
    rename_i k _
    cases k with
    | consumed n =>
      unfold State.pumped State.afterSend
      simp only
      split
      · split <;> nofun
      · nofun
    | retry => nofun
    | notified =>
      unfold State.pumped State.afterNotify
      simp only
      split <;> nofun
    | drained => nofun

theorem alive_of_reachable (h : transport.ReachableWith Quiet s) : Alive s := by
  apply h.invariant
  · intro s hs hd
    rw [hs.io] at hd
    cases hd
  · exact fun _ _ _ hA hq hs => hA.step hq hs

/-- The bytes on the wire are a prefix of those produced. As long as no kick finds the io fiber parked inside `send`
or `_pump_out`, the fiber lives while there is something to write. -/
theorem output_survives_kicks : (∀ s : State α, transport.Reachable s → s.sent <+: s.produced) ∧
    ∀ s : State α, transport.ReachableWith Quiet s → s.stopping = false → 0 < s.buf →
      s.io ≠ .exited ∧ s.io ≠ .dead := by
  refine ⟨fun s h => (inv_of_reachable h).sent_isPrefix, fun s h hstop hbuf => ⟨fun hio => ?_, fun hio => ?_⟩⟩
  · rcases (inv_of_reachable h.reachable).exited hio with h | ⟨-, h⟩
    · rw [hstop] at h
      cases h
    · omega
  · rw [alive_of_reachable h hio] at hstop
    cases hstop

/-- A kick at the park of `_io_loop`, and a partial send. -/
theorem output_survives_kicks_outer :
    ∃ s : State (Fin 3), transport.ReachableWith Quiet s ∧ s.sent = [0] ∧ s.produced = [0, 1] ∧
      s.sent <+: s.produced ∧ s.io ≠ .exited ∧ s.io ≠ .dead := by
  obtain ⟨s, hr, hsent, hprod, hstop, hbuf⟩ := (transport (α := Fin 3)).reachesWith Quiet
    (fun s => s.sent = [0] ∧ s.produced = [0, 1] ∧ s.stopping = false ∧ 0 < s.buf)
    [.start, .top [], .write 3, .top [], .ready true false, .encrypt [0, 1] 3, .flush, .rawSend 1,
      .rawSend 0, .wake]
    ⟨rfl, rfl, rfl, rfl, rfl, rfl, rfl, rfl, rfl, rfl, rfl, rfl⟩
    (s := ⟨.exited, false, .idle, 0, false, false, false, false, false, false, [], [], [], false⟩)
    (by decide +kernel)
  refine ⟨s, hr, hsent, hprod, output_survives_kicks.1 s hr.reachable, ?_⟩
  exact output_survives_kicks.2 s hr hstop hbuf

/-- A write while the io fiber is parked in `_pump_out` ends the fiber, with bytes unsent. -/
theorem kick_in_pump_kills_fiber : ¬∀ s : State (Fin 3), transport.Reachable s → s.stopping = false → 0 < s.buf →
      s.io ≠ .exited ∧ s.io ≠ .dead := by
  intro hclaim
  obtain ⟨s, hr, hstop, hbuf, hio⟩ := (transport (α := Fin 3)).reaches
    (fun s => s.stopping = false ∧ 0 < s.buf ∧ s.io = .dead)
    [.start, .top [], .write 3, .top [], .ready true false, .encrypt [0, 1] 3, .flush, .rawSend 1,
      .rawSend 0, .write 1]
    ⟨rfl, rfl, rfl, rfl, rfl, rfl, rfl, rfl, rfl, rfl, rfl, rfl⟩
    (s := ⟨.exited, false, .idle, 0, false, false, false, false, false, false, [], [], [], false⟩)
    (by decide +kernel)
  exact (hclaim s hr hstop hbuf).2 hio

end Runloom.TlsStream
