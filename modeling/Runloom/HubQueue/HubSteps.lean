import Runloom.HubQueue.Steps

/-!
# The resume path

From the popped entry to the end of the resume.  The exchange of `in_sub_queue` passes the queue reference
from the flag to the hub; at the end of the resume the hub gives it back, and at the end of the fiber it
gives back the reference of the spawn.
-/

namespace Runloom.HubQueue

open Transition

variable {F H W : Type*} [DecidableEq F] [DecidableEq H] [DecidableEq W] {s t : State F H W}
  {loc : Entry F → Option (Place H W)} {f : F} {h : H} {w : W}

variable {x : Fiber} {pc : HubPc F}

section

omit [DecidableEq F] [DecidableEq W]

theorem holds_setHub (y : Holder H W) : Holds x (update s.hub h pc) s.waker f y ↔
      y = .hub h ∧ pc.ref = some f ∨ y ≠ .hub h ∧ Holds x s.hub s.waker f y := by
  cases y with
  | spawn | queue | waker w => simp [Holds]
  | hub h' =>
    by_cases hh : h' = h
    · subst hh
      simp [Holds]
    · simp [Holds, hh]

theorem holds_setHub_of_ref {x' : Fiber} (href : pc.ref = (s.hub h).ref)
    (hs : x'.spawnRef = x.spawnRef) (hq : x'.inSubQueue = x.inSubQueue) (y : Holder H W) :
    Holds x' (update s.hub h pc) s.waker f y ↔ Holds x s.hub s.waker f y := by
  rw [holds_setHub]
  cases y with
  | queue => simp [Holds, hq]
  | spawn => simp [Holds, hs]
  | waker w => simp [Holds]
  | hub h' =>
    by_cases hh : h' = h
    · subst hh
      simp [Holds, href]
    · simp [Holds, hh]

end

section

omit [DecidableEq F]

theorem eq_of_fiber (hf : pc.fiber = some f) : ∀ g, pc.fiber = some g → g = f := by
  intro g hg
  rw [hf] at hg
  exact (Option.some.inj hg).symm

theorem PcOk.mono {x' : Fiber} (hok : PcOk pc x) (hd : x'.done = x.done)
    (hy : x'.yielded = true → x.yielded = true) : PcOk pc x' := by
  have hy' : x.yielded = false → x'.yielded = false := by
    intro hf
    cases hx : x'.yielded with
    | false => rfl
    | true =>
      rw [hy hx] at hf
      cases hf
  cases pc with
  | claimed g q =>
    simp only [PcOk, hd] at hok ⊢
    exact ⟨hok.1, fun hd' => hy' (hok.2 hd')⟩
  | running g q =>
    simp only [PcOk, hd] at hok ⊢
    exact ⟨hok.1, hy' hok.2⟩
  | resumed g q sq | released g sq => exact fun hs => hy' (hok hs)
  | oom g q =>
    simp only [PcOk, hd] at hok ⊢
    exact hok
  | idle | route c | popped e | skip g q => trivial

theorem PcOk.of_not_busy {x' : Fiber} (hok : PcOk pc x) (hpc : pc.fiber = some f)
    (hb : ¬Busy pc f x.done) (hd : x.done = true → x'.done = true) : PcOk pc x' := by
  cases pc with
  | claimed g q =>
    cases hpc
    have hdone : x.done = true := by
      cases hx : x.done with
      | true => rfl
      | false => exact absurd ⟨rfl, hx⟩ hb
    refine ⟨fun hq => ?_, fun hx' => ?_⟩
    · have := hok.1 hq
      rw [hdone] at this
      cases this
    · rw [hd hdone] at hx'
      cases hx'
  | running g q | resumed g q sq | released g sq | oom g q => exact absurd (Option.some.inj hpc) hb
  | idle | route c | popped e | skip g q => trivial

end

theorem Inv.claim (hI : Inv s loc) {e : Entry F} (hpc : s.hub h = .popped e) :
    Inv ((s.setFiber e.fiber { s.fiber e.fiber with
        snapValid := false, inSubQueue := false, yielded := false }).setHub h
          (.claimed e.fiber (s.fiber e.fiber).inSubQueue)) (update loc e none) := by
  have hat : s.entries (.popped h) = [e] := by
    show (s.hub h).entry = [e]
    rw [hpc]
    rfl
  have hloc : loc e = some (.popped h) := by
    apply hI.placed.mem_iff.mp
    rw [hat]
    exact List.mem_singleton_self e
  obtain ⟨hinc, hqueued⟩ := hI.queued e _ hloc
  have hent : s.entry e.fiber = e := by
    cases e
    simp only [State.entry]
    simp only at hinc
    rw [← hinc]
  have hok := hI.fiber e.fiber
  have hpos := hI.pos_of_loc hloc
  have hspawn : (s.fiber e.fiber).done = false → (s.fiber e.fiber).spawnRef = true := by
    intro hd
    cases hs : (s.fiber e.fiber).spawnRef with
    | true => rfl
    | false =>
      rw [hok.ended (hI.not_free hpos) hs] at hd
      cases hd
  refine hI.atHub rfl rfl rfl ?_ (fun g hg => (Option.some.inj hg).symm) rfl ?_
    ⟨hok.free, hok.ended, fun hy => by cases hy⟩ ?_ (fun e' he => ?_) (fun p hp => ?_) ?_ (fun h' hh => ?_) id
    (fun hb h' hh hb' => ?_)
  · intro g hg
    rw [hpc] at hg
    cases hg
  · -- The reference of the flag, if there is one, is now the hub's.
    cases hq : (s.fiber e.fiber).inSubQueue with
    | true =>
      refine (hI.refs e.fiber).pass (x := .queue) (y := .hub h) hq ?_ fun y => ?_
      · show (s.hub h).ref ≠ some e.fiber
        rw [hpc]
        exact fun he => by cases he
      · rw [holds_setHub]
        cases y with
        | queue | spawn | waker w => simp [Holds]
        | hub h' =>
          by_cases hh : h' = h
          · subst hh
            simp [HubPc.ref]
          · simp [Holds, hh]
    | false =>
      refine (hI.refs e.fiber).congr (holds_setHub_of_ref ?_ rfl hq.symm)
      rw [hpc]
      rfl
  · rw [entries_setHub_entry, entries_setFiber]
    · refine hI.placed.remove ?_
      rw [hat]
      rfl
    · show _ = (s.hub h).chain
      rw [hpc]
      rfl
  · rw [hent] at he
    exact update_of_ne he ..
  · rw [hent, update_self] at hp
    cases hp
  · rw [hent, update_self]
    refine ⟨fun hb => hspawn hb.2, fun _ _ => trivial, fun _ => ⟨fun hq => ?_, fun _ => rfl⟩⟩
    rw [hq] at hqueued
    exact (hok.yielded (hqueued.resolve_left fun he => by cases he)).2.2
  · rw [hent, update_self]
    have hok' := hI.hub h' e.fiber
    exact ⟨hok'.spawned, fun _ _ => trivial, fun hf => (hok'.pc hf).mono rfl fun hy => by cases hy⟩
  · have := (hI.hub h' e.fiber).near hb' hb.2
    rw [hent, hloc] at this
    exact this

/-! ## The hub that runs the fiber -/

omit [DecidableEq F] in
theorem empty_of_fiber (hf : pc.fiber = some f) : pc.chain = [] ∧ pc.entry = [] := by
  cases pc with
  | idle => exact ⟨rfl, rfl⟩
  | route c | popped e => cases hf
  | claimed g q | running g q | resumed g q sq | released g sq | oom g q | skip g q => exact ⟨rfl, rfl⟩

section

variable (hI : Inv s loc)
include hI

theorem Inv.own (hb : Busy (s.hub h) f (s.fiber f).done)
    (hnew : ∀ g, pc.fiber = some g → g = f) (href : pc.ref = (s.hub h).ref) (hc : pc.chain = [])
    (he : pc.entry = []) (hrc : x.refcount = (s.fiber f).refcount)
    (hfree : x.free = (s.fiber f).free) (hinc : x.inc = (s.fiber f).inc)
    (hs : x.spawnRef = (s.fiber f).spawnRef) (hq : x.inSubQueue = (s.fiber f).inSubQueue)
    (hy : x.yielded = (s.fiber f).yielded) (hd : (s.fiber f).done = true → x.done = true)
    (hyd : x.yielded = true → x.done = false) (hpc : PcOk pc x) :
    Inv ((s.setFiber f x).setHub h pc) loc := by
  have hok := hI.fiber f
  have hfiber := fiber_of_busy hb
  have hempty := empty_of_fiber hfiber
  have hother : ∀ h', h' ≠ h → ¬Busy (s.hub h') f (s.fiber f).done :=
    fun h' hh hb' => hh (hI.unique h' h f hb' hb)
  have hd' : x.done = false → (s.fiber f).done = false := by
    intro hx
    cases hf : (s.fiber f).done with
    | false => rfl
    | true =>
      rw [hd hf] at hx
      cases hx
  refine hI.atHub rfl rfl rfl ?_ hnew hinc ?_ ⟨?_, ?_, ?_⟩ ?_ (fun _ _ => rfl) (fun p hp => ?_)
    ⟨fun _ => ?_, fun _ hx => (hI.hub h f).near hb (hd' hx), fun _ => hpc⟩ (fun h' hh => ?_) hd
    (fun _ => hother)
  · exact eq_of_fiber hfiber
  · rw [hrc]
    exact (hI.refs f).congr (holds_setHub_of_ref href hs hq)
  · rw [hfree, hrc]
    exact hok.free
  · rw [hfree, hs]
    exact fun hf hsp => hd (hok.ended hf hsp)
  · intro hyx
    rw [hs, hq]
    exact ⟨(hok.yielded (hy ▸ hyx)).1, (hok.yielded (hy ▸ hyx)).2.1, hyd hyx⟩
  · rw [entries_setHub_of_eq, entries_setFiber]
    · exact hI.placed
    · exact hc.trans hempty.1.symm
    · exact he.trans hempty.2.symm
  · rw [hq, hy]
    exact (hI.queued _ p hp).2
  · rw [hs]
    exact (hI.hub h f).spawned hb
  · have hnb := hother h' hh
    exact ⟨fun hb' => absurd (hb'.mono hd) hnb, fun hb' => absurd (hb'.mono hd) hnb,
      fun hf => ((hI.hub h' f).pc hf).of_not_busy hf hnb hd⟩

theorem Inv.leave (hfiber : (s.hub h).fiber = some f)
    (hnew : ∀ g, pc.fiber = some g → g = f) (href : pc.ref = (s.hub h).ref) (hc : pc.chain = [])
    (he : pc.entry = []) (hnb : ¬Busy pc f (s.fiber f).done) (hpc : PcOk pc (s.fiber f)) :
    Inv (s.setHub h pc) loc := by
  have hempty := empty_of_fiber hfiber
  refine hI.atHub (x := s.fiber f) (update_eq_self ..).symm rfl rfl ?_ hnew rfl ?_ (hI.fiber f) ?_
    (fun _ _ => rfl) (fun p hp => (hI.queued _ p hp).2)
    ⟨fun hb => absurd hb hnb, fun hb => absurd hb hnb, fun _ => hpc⟩ (fun h' _ => hI.hub h' f) id
    (fun hb => absurd hb hnb)
  · exact eq_of_fiber hfiber
  · exact (hI.refs f).congr (holds_setHub_of_ref href rfl rfl)
  · rw [entries_setHub_of_eq]
    · exact hI.placed
    · exact hc.trans hempty.1.symm
    · exact he.trans hempty.2.symm

theorem Inv.dropQueue (href : (s.hub h).ref = some f)
    (hnew : ∀ g, pc.fiber = some g → g = f) (hnone : pc.ref = none) (hc : pc.chain = [])
    (he : pc.entry = []) (hbusy : Busy pc f (s.fiber f).done → Busy (s.hub h) f (s.fiber f).done)
    (hpc : pc.fiber = some f → PcOk (s.hub h) (s.fiber f).decref → PcOk pc (s.fiber f).decref) :
    Inv ((s.setFiber f (s.fiber f).decref).setHub h pc) loc := by
  obtain ⟨hr, hinc, hs, hd, hy, hq, -⟩ := decref_fields (s.fiber f)
  have hfiber := fiber_of_ref href
  have hempty := empty_of_fiber hfiber
  have hmine : Holds (s.fiber f) s.hub s.waker f (.hub h) := href
  have hok : HubOk h (s.hub h) f (s.fiber f).decref (loc (s.entry f)) := (hI.hub h f).congr hs hd hy
  refine hI.atHub rfl rfl rfl ?_ hnew hinc ?_ ((hI.fiber f).decref ((hI.refs f).pos hmine)) ?_
    (fun _ _ => rfl) (fun p hp => ?_)
    ⟨fun hb => ?_, fun hb => ?_, fun hf => hpc hf (hok.pc hfiber)⟩
    (fun h' _ => (hI.hub h' f).congr hs hd hy) (fun hdone => hd.trans hdone) (fun hb h' hh hb' => ?_)
  · exact eq_of_fiber hfiber
  · rw [hr]
    refine (hI.refs f).lose hmine fun y => ?_
    rw [holds_setHub]
    cases y with
    | queue => simp [Holds, hq]
    | spawn => simp [Holds, hs]
    | waker w => simp [Holds]
    | hub h' =>
      by_cases hh : h' = h
      · subst hh
        simp [hnone]
      · simp [Holds, hh]
  · rw [entries_setHub_of_eq, entries_setFiber]
    · exact hI.placed
    · exact hc.trans hempty.1.symm
    · exact he.trans hempty.2.symm
  · rw [hq, hy]
    exact (hI.queued _ p hp).2
  · rw [hd] at hb
    exact hs.trans ((hI.hub h f).spawned (hbusy hb))
  · rw [hd] at hb ⊢
    exact (hI.hub h f).near (hbusy hb)
  · rw [hd] at hb
    exact hh (hI.unique h' h f hb' (hbusy hb))

theorem Inv.dropSpawn (hb : Busy (s.hub h) f (s.fiber f).done)
    (hdone : (s.fiber f).done = true) (hnew : ∀ g, pc.fiber = some g → g = f)
    (href : pc.ref = (s.hub h).ref) (hc : pc.chain = []) (he : pc.entry = [])
    (hnb : ¬Busy pc f true) (hpc : ∀ x, PcOk pc x) :
    Inv ((s.setFiber f { (s.fiber f).decref with spawnRef := false }).setHub h pc) loc := by
  obtain ⟨hr, hinc, hs, hd, hy, hq, -⟩ := decref_fields (s.fiber f)
  have hfiber := fiber_of_busy hb
  have hempty := empty_of_fiber hfiber
  have hmine : Holds (s.fiber f) s.hub s.waker f .spawn := (hI.hub h f).spawned hb
  have hok := (hI.fiber f).decref ((hI.refs f).pos hmine)
  have hdone' : (s.fiber f).decref.done = true := hd.trans hdone
  have hother : ∀ h', h' ≠ h → ¬Busy (s.hub h') f (s.fiber f).done :=
    fun h' hh hb' => hh (hI.unique h' h f hb' hb)
  have hnb' : ¬Busy pc f (s.fiber f).decref.done := by
    rw [hdone']
    exact hnb
  refine hI.atHub rfl rfl rfl ?_ hnew hinc ?_ ⟨hok.free, fun _ _ => hdone', fun hyl => ?_⟩ ?_
    (fun _ _ => rfl) (fun p hp => ?_)
    ⟨fun hb' => absurd hb' hnb', fun hb' => absurd hb' hnb', fun _ => hpc _⟩ (fun h' hh => ?_)
    (fun _ => hdone') (fun hb' => absurd hb' hnb')
  · exact eq_of_fiber hfiber
  · show Counted _ (s.fiber f).decref.refcount
    rw [hr]
    refine (hI.refs f).lose hmine fun y => ?_
    rw [holds_setHub]
    cases y with
    | queue => simp [Holds, hq]
    | spawn | waker w => simp [Holds]
    | hub h' =>
      by_cases hh : h' = h
      · subst hh
        simp [Holds, href]
      · simp [Holds, hh]
  · have := (hok.yielded hyl).2.2
    rw [hdone'] at this
    cases this
  · rw [entries_setHub_of_eq, entries_setFiber]
    · exact hI.placed
    · exact hc.trans hempty.1.symm
    · exact he.trans hempty.2.symm
  · have := (hI.queued _ p hp).2
    show (s.fiber f).decref.inSubQueue = true ∨ (s.fiber f).decref.yielded = true
    rw [hq, hy]
    exact this
  · have hnb'' : ¬Busy (s.hub h') f (s.fiber f).decref.done := by
      rw [hd]
      exact hother h' hh
    exact ⟨fun hb' => absurd hb' hnb'', fun hb' => absurd hb' hnb'',
      fun hf => ((hI.hub h' f).pc hf).of_not_busy hf (hother h' hh) fun _ => hdone'⟩

theorem Inv.selfPush {u : State F H W} {snap : Bool}
    (hb : Busy (s.hub h) f (s.fiber f).done) (hd : (s.fiber f).done = false)
    (hq : (s.fiber f).inSubQueue = false) (hy : (s.fiber f).yielded = false)
    (hfib : u.fiber = update s.fiber f { s.fiber f with snapValid := snap, yielded := true })
    (hhub : u.hub = s.hub) (hwak : u.waker = s.waker)
    (hent : u.entries = update s.entries (.ready h) (s.ready h ++ [s.entry f]))
    (hnew : ∀ g, pc.fiber = some g → g = f) (href : pc.ref = (s.hub h).ref) (hc : pc.chain = [])
    (he : pc.entry = []) (hpc : ∀ x, PcOk pc x) :
    Inv (u.setHub h pc) (update loc (s.entry f) (some (.ready h))) := by
  have hok := hI.fiber f
  have hfiber := fiber_of_busy hb
  have hempty := empty_of_fiber hfiber
  have hnone := hI.loc_none hq hy
  have hspawn := (hI.hub h f).spawned hb
  have hother : ∀ h', h' ≠ h → ¬Busy (s.hub h') f (s.fiber f).done :=
    fun h' hh hb' => hh (hI.unique h' h f hb' hb)
  refine hI.atHub hfib (by rw [State.setHub, hhub]) hwak ?_ hnew rfl ?_
    ⟨hok.free, hok.ended, fun _ => ⟨hspawn, hq, hd⟩⟩ ?_ (fun e he => update_of_ne he ..)
    (fun _ _ => .inr rfl) ⟨fun _ => hspawn, fun _ _ => ?_, fun _ => hpc _⟩ (fun h' hh => ?_) id
    (fun _ => hother)
  · exact eq_of_fiber hfiber
  · exact (hI.refs f).congr (holds_setHub_of_ref href rfl rfl)
  · rw [entries_setHub_of_eq, hent]
    · exact hI.placed.add hnone (List.perm_append_singleton ..)
    · rw [hhub]
      exact hc.trans hempty.1.symm
    · rw [hhub]
      exact he.trans hempty.2.symm
  · rw [update_self]
    exact rfl
  · have hnb := hother h' hh
    exact ⟨fun hb' => absurd hb' hnb, fun hb' => absurd hb' hnb,
      fun hf => ((hI.hub h' f).pc hf).of_not_busy hf hnb id⟩

end

/-! ## Spawn -/

theorem Inv.of_free (hI : Inv s loc) (hfree : (s.fiber f).free = true) :
    (∀ y, ¬Holds (s.fiber f) s.hub s.waker f y) ∧ (∀ e p, loc e = some p → e.fiber ≠ f) ∧
      ∀ h, ∀ done, ¬Busy (s.hub h) f done := by
  have hzero := (hI.fiber f).free.mp hfree
  have hnone := (hI.refs f).none (le_of_eq hzero)
  refine ⟨hnone, fun e p he => ?_, fun h done hb => ?_⟩
  · rintro rfl
    have := hI.pos_of_loc he
    omega
  · have hfiber := fiber_of_busy hb
    cases hpc : s.hub h with
    | claimed g q =>
      rw [hpc] at hfiber
      cases hfiber
      -- The hub has the queue reference, or the fiber has not ended and the spawn holds it.
      cases q with
      | true =>
        apply hnone (.hub h)
        show (s.hub h).ref = some f
        rw [hpc]
        rfl
      | false =>
        have hok := hI.hub h f
        rw [hpc] at hok
        have hd := (hok.pc rfl).1 rfl
        exact hnone .spawn (hok.spawned ⟨rfl, hd⟩)
    | running g q | resumed g q sq | released g sq | oom g q =>
      rw [hpc] at hfiber
      cases hfiber
      exact hnone .spawn ((hI.hub h f).spawned (by rw [hpc]; rfl))
    | idle | route c | popped e =>
      rw [hpc] at hfiber
      cases hfiber
    | skip g q =>
      rw [hpc] at hb
      exact hb

theorem Inv.spawned (hI : Inv s loc) (hfree : (s.fiber f).free = true) (eager : Bool) :
    Inv (s.setFiber f ((s.fiber f).spawned eager)) loc := by
  obtain ⟨hnone, hloc, hidle⟩ := hI.of_free hfree
  have hself : (s.setFiber f ((s.fiber f).spawned eager)).fiber f = (s.fiber f).spawned eager :=
    update_self ..
  have hne : ∀ g, g ≠ f → (s.setFiber f ((s.fiber f).spawned eager)).fiber g = s.fiber g :=
    fun g hg => update_of_ne hg ..
  refine ⟨fun g => ?_, fun g => ?_, ?_, fun e p he => ?_, fun h g => ?_, fun h h' g hb hb' => ?_⟩
  · by_cases hg : g = f
    · subst hg
      rw [hself]
      refine (counted_zero hnone).gain (x := .spawn) (hnone .spawn) fun y => ?_
      have hy := hnone y
      cases y with
      | spawn => simp [Holds, Fiber.spawned]
      | queue => simpa [Holds, Fiber.spawned] using hy
      | hub h | waker w => simp [Holds, State.setFiber]
    · rw [hne g hg]
      exact hI.refs g
  · by_cases hg : g = f
    · subst hg
      rw [hself]
      exact ⟨by simp [Fiber.spawned], (fun _ hs => by cases hs), fun hy => by cases hy⟩
    · rw [hne g hg]
      exact hI.fiber g
  · rw [entries_setFiber]
    exact hI.placed
  · rw [hne _ (hloc e p he)]
    exact hI.queued e p he
  · by_cases hg : g = f
    · subst hg
      refine ⟨fun hb => absurd hb (hidle h _), fun hb => absurd hb (hidle h _), fun hf => ?_⟩
      have hnb : ¬Busy (s.hub h) g false := hidle h false
      have hf : (s.hub h).fiber = some g := hf
      show PcOk (s.hub h) _
      cases hpc : s.hub h with
      | skip k q => trivial
      | _ =>
        rw [hpc] at hf hnb
        first
        | trivial
        | exact absurd (Option.some.inj hf) hnb
        | exact absurd ⟨Option.some.inj hf, rfl⟩ hnb
    · have hent : (s.setFiber f ((s.fiber f).spawned eager)).entry g = s.entry g := by
        simp only [State.entry, hne g hg]
      rw [hne g hg, hent]
      exact hI.hub h g
  · by_cases hg : g = f
    · subst hg
      exact absurd hb (hidle h _)
    · rw [hne g hg] at hb hb'
      exact hI.unique h h' g hb hb'

end Runloom.HubQueue
