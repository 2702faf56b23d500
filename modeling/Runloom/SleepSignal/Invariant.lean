import Runloom.SleepSignal.Look

/-!
# What holds of the whole state

The fibers, each by its look, and the exceptions: the slot of a hub is held for one fiber, the one whose node the main
thread marks, until that fiber has taken the exception out.
-/

namespace Runloom.SleepSignal

open Transition
open WakeState (Ws)

variable {F H E : Type*} [DecidableEq F] [DecidableEq H] [DecidableEq E]

def Pc.owes : Pc H E → Option H
  | .yield t io | .parked t io | .resumed t io => if io then some t else none
  | .test t | .remove t | .load t | .store t _ => some t
  | _ => none

def Main.gives (e : E) : Main F H E → Option F
  | .mark e' g _ | .claim e' g _ | .wake e' g _ _ => if e' = e then some g else none
  | _ => none

def Main.busy : Main F H E → Option E
  | .idle => none
  | .walk e _ | .mark e _ _ | .claim e _ _ | .wake e _ _ _ => some e

/-- The exception was handed to the fiber, whether or not the call is over. -/
def State.Gives (s : State F H E) (e : E) (g : F) : Prop := s.returned e = some (some g) ∨ s.main.gives e = some g

/-- `holder h` is the fiber for which the slot of the hub is reserved. -/
structure Delivery (s : State F H E) (holder : H → Option F) : Prop where
  slot (h : H) : s.exc h = none ↔ holder h = none
  held {h : H} {g : F} (hh : holder h = some g) :
    (s.pc g).owes = some h ∧ (s.signaled g = true ∨ ∃ e, s.main = .mark e g h)
  owed {h : H} {g : F} (ho : (s.pc g).owes = some h) (hs : s.signaled g = true) : holder h = some g
  named {h : H} {e : E} {g : F} (he : s.exc h = some e) (hh : holder h = some g) : s.Gives e g
  given {e : E} {g : F} (hg : s.Gives e g) : s.raised e = [] ∧ (∃ h, s.exc h = some e ∧ holder h = some g) ∨
    s.raised e = [g] ∧ ∀ h, s.exc h ≠ some e
  free {e : E} (hg : ∀ g, ¬s.Gives e g) : s.raised e = [] ∧ ∀ h, s.exc h ≠ some e
  once {h h' : H} {e : E} (he : s.exc h = some e) (he' : s.exc h' = some e) : h = h'
  stored {g : F} {h : H} {x : Option E} (hp : s.pc g = .store h x) : x = s.exc h
  marking {e : E} {g : F} {h : H} (hm : s.main = .mark e g h) :
    s.exc h = some e ∧ holder h = some g ∧ s.signaled g = false
  busy {e : E} (hm : s.main.busy = some e) : s.returned e = none

structure Inv (migrate : Bool) (s : State F H E) (holder : H → Option F) : Prop where
  fiber (g : F) : (s.look g).Ok migrate
  walk {e : E} {rest : List F} (hm : s.main = .walk e rest) : ∀ g ∈ rest, g ∈ s.waiters
  chosen {e : E} {g : F} {h : H} (hm : s.main = .mark e g h ∨ s.main = .claim e g h) :
    g ∈ s.waiters ∧ s.node g = some h
  marked {e : E} {g : F} {h : H} (hm : s.main = .claim e g h) : s.signaled g = true
  delivery : Delivery s holder

variable {s t : State F H E} {holder : H → Option F} {migrate : Bool} {g g' : F} {h : H}

/-! ### What a step leaves alone -/

section

omit [DecidableEq E]

theorem count_update (q : H → List F) (k : H) (l : List F) :
    (fun h => (update q k l h).count g) = update (fun h => (q h).count g) k (l.count g) := by
  funext h
  by_cases he : h = k
  · rw [he, update_self, update_self]
  · rw [update_of_ne he, update_of_ne he]

theorem sight_update (q : H → Seat F) (k : H) (x : Seat F) :
    (fun h => (update q k x h).sight g) = update (fun h => (q h).sight g) k (x.sight g) := by
  funext h
  by_cases he : h = k
  · rw [he, update_self, update_self]
  · rw [update_of_ne he, update_of_ne he]

end

@[simp] theorem Seat.sight_loop : Seat.sight g .loop = .elsewhere := rfl

@[simp] theorem Seat.sight_popped : (Seat.popped g').sight g = if g' = g then .popped else .elsewhere := rfl

@[simp] theorem Seat.sight_won : (Seat.won g').sight g = if g' = g then .won else .elsewhere := rfl

@[simp] theorem Seat.sight_running : (Seat.running g').sight g = if g' = g then .running else .elsewhere := rfl

section

variable (hd : Delivery s holder)
include hd

omit [DecidableEq F] [DecidableEq H] in
theorem Delivery.congr (hpc : ∀ g, (t.pc g).owes = (s.pc g).owes)
    (hstored : ∀ g h x, t.pc g = .store h x → x = s.exc h) (hexc : t.exc = s.exc)
    (hsig : t.signaled = s.signaled) (hmain : t.main = s.main) (hraised : t.raised = s.raised)
    (hret : t.returned = s.returned) : Delivery t holder := by
  have hgives : ∀ e g, t.Gives e g ↔ s.Gives e g := by
    intro e g
    unfold State.Gives
    rw [hmain, hret]
  refine ⟨?_, ?_, ?_, ?_, ?_, ?_, ?_, ?_, ?_, ?_⟩
  · rw [hexc]
    exact hd.slot
  · intro h g hh
    rw [hpc, hsig, hmain]
    exact hd.held hh
  · intro h g
    rw [hpc, hsig]
    exact hd.owed
  · intro h e g
    rw [hexc, hgives]
    exact hd.named
  · intro e g
    rw [hexc, hgives, hraised]
    exact hd.given
  · intro e hg
    rw [hexc, hraised]
    exact hd.free fun g => mt (hgives e g).mpr (hg g)
  · rw [hexc]
    exact hd.once
  · rw [hexc]
    exact hstored _ _ _
  · rw [hmain, hexc, hsig]
    exact hd.marking
  · rw [hmain, hret]
    exact hd.busy

omit [DecidableEq H] in
theorem Delivery.move {p : Pc H E} (hpc : t.pc = update s.pc g p)
    (ho : p.owes = (s.pc g).owes) (hp : ∀ k x, p = .store k x → x = s.exc k) (hexc : t.exc = s.exc)
    (hsig : t.signaled = s.signaled) (hmain : t.main = s.main) (hraised : t.raised = s.raised)
    (hret : t.returned = s.returned) : Delivery t holder := by
  refine hd.congr (fun g' => ?_) (fun g' k x hx => ?_) hexc hsig hmain hraised hret
  · rw [hpc]
    by_cases hne : g' = g
    · rw [hne, update_self, ho]
    · rw [update_of_ne hne]
  · rw [hpc] at hx
    by_cases hne : g' = g
    · rw [hne, update_self] at hx
      exact hp k x hx
    · rw [update_of_ne hne] at hx
      exact hd.stored hx

section

omit [DecidableEq F] [DecidableEq H]

theorem Delivery.stay (hpc : t.pc = s.pc) (hexc : t.exc = s.exc)
    (hsig : t.signaled = s.signaled) (hmain : t.main = s.main) (hraised : t.raised = s.raised)
    (hret : t.returned = s.returned) : Delivery t holder := by
  refine hd.congr (fun g' => ?_) (fun g' k x hx => ?_) hexc hsig hmain hraised hret
  · rw [hpc]
  · rw [hpc] at hx
    exact hd.stored hx

theorem Delivery.quiet (hgives : ∀ e g, t.Gives e g ↔ s.Gives e g)
    (hs : ∀ e g h, s.main ≠ .mark e g h) (ht : ∀ e g h, t.main ≠ .mark e g h)
    (hbusy : ∀ e, t.main.busy = some e → t.returned e = none) (hpc : t.pc = s.pc) (hexc : t.exc = s.exc)
    (hsig : t.signaled = s.signaled) (hraised : t.raised = s.raised) : Delivery t holder := by
  refine ⟨?_, fun {h g} hh => ?_, ?_, ?_, ?_, fun {e} hg => ?_, ?_, ?_, fun hm => absurd hm (ht _ _ _), hbusy _⟩
  · rw [hexc]
    exact hd.slot
  · obtain ⟨ho, hm⟩ := hd.held hh
    rw [hpc, hsig]
    exact ⟨ho, .inl (hm.resolve_right fun ⟨e, hm⟩ => hs e g h hm)⟩
  · rw [hpc, hsig]
    exact hd.owed
  · intro h e g
    rw [hexc, hgives]
    exact hd.named
  · intro e g
    rw [hexc, hgives, hraised]
    exact hd.given
  · rw [hexc, hraised]
    exact hd.free fun g => mt (hgives e g).mpr (hg g)
  · rw [hexc]
    exact hd.once
  · rw [hpc, hexc]
    exact hd.stored

end

end

theorem Inv.frame {holder' : H → Option F} (hv : Inv migrate s holder) (hfiber : ∀ g, (t.look g).Ok migrate)
    (hd : Delivery t holder') (hwaiters : t.waiters = s.waiters) (hnode : t.node = s.node)
    (hsig : t.signaled = s.signaled) (hmain : t.main = s.main) : Inv migrate t holder' := by
  refine ⟨hfiber, ?_, ?_, ?_, hd⟩
  · rw [hmain, hwaiters]
    exact hv.walk
  · rw [hmain, hwaiters, hnode]
    exact hv.chosen
  · rw [hmain, hsig]
    exact hv.marked

theorem Inv.of_unlocked (hfiber : ∀ g, (t.look g).Ok migrate) (hd : Delivery t holder)
    (hl : t.main.locked = false) : Inv migrate t holder := by
  refine ⟨hfiber, fun hm => ?_, fun hm => ?_, fun hm => ?_, hd⟩
  · rw [hm] at hl
    cases hl
  · rcases hm with hm | hm <;> rw [hm] at hl <;> cases hl
  · rw [hm] at hl
    cases hl

theorem Inv.fibers (hv : Inv migrate s holder) (hother : ∀ g', g' ≠ g → t.look g' = s.look g')
    (hg : (t.look g).Ok migrate) (g' : F) : (t.look g').Ok migrate := by
  by_cases he : g' = g
  · rw [he]
    exact hg
  · rw [hother g' he]
    exact hv.fiber g'

theorem Inv.waits (hv : Inv migrate s holder) (hg : g ∈ s.waiters) (hn : s.node g = some h) :
    (s.pc g).waits = some h := by
  have hlinked : s.waiters.count g = (s.pc g).waits.isSome.toNat := (hv.fiber g).linked
  have hpos := List.count_pos_iff.mpr hg
  cases hw : (s.pc g).waits with
  | none =>
    rw [hw] at hlinked
    exact absurd hlinked hpos.ne'
  | some k =>
    have hk : s.node g = some k := (hv.fiber g).node hw
    rw [← hk, hn]

end Runloom.SleepSignal
