import Runloom.SleepSignal.Invariant

/-!
# Every step keeps the invariant

One lemma for each step, by what it makes of the look of the fiber it is about.
-/

namespace Runloom.SleepSignal

open Transition List
open WakeState (Ws)
open State (look setPc setSeat readyPush)

variable {F H E : Type*} [DecidableEq F] [DecidableEq H] [DecidableEq E]
  {s : State F H E} {holder : H → Option F} {migrate : Bool} {g g' : F} {h k : H} {io : Bool}

section

omit [DecidableEq H] [DecidableEq E]

theorem look_seat_loop (hs : s.seat h = .loop) : (s.look g).seat h = .elsewhere := by
  simp [look, hs]

theorem look_seat_running (hs : s.seat h = .running g) : (s.look g).seat h = .running := by
  simp [look, hs]

end

namespace Inv

/-! ### Outside of a sleep -/

section

variable (hv : Inv migrate s holder)
include hv

theorem tick (n : ℕ) : Inv migrate { s with now := s.now + n } holder :=
  hv.frame hv.fiber (hv.delivery.stay rfl rfl rfl rfl rfl rfl) rfl rfl rfl rfl

theorem take (hs : s.seat h = .loop) (hpc : s.pc g = .off) :
    Inv migrate (({ s with ws := update s.ws g .running }.setPc g .on).setSeat h (.running g)) holder := by
  refine hv.frame (hv.fibers (g := g) (fun g' hne => ?_) ?_) ?_ rfl rfl rfl rfl
  · simp [look, setPc, setSeat, sight_update, hs, hne, hne.symm]
  · have hok := (hv.fiber g).take (h := h) hpc
    simpa [look, setPc, setSeat, sight_update] using hok
  · exact hv.delivery.move rfl (by rw [hpc]; rfl) nofun rfl rfl rfl rfl rfl

theorem leave (hs : s.seat h = .running g) (hpc : s.pc g = .on) :
    Inv migrate ((s.setPc g .off).setSeat h .loop) holder := by
  refine hv.frame (hv.fibers (g := g) (fun g' hne => ?_) ?_) ?_ rfl rfl rfl rfl
  · simp [look, setPc, setSeat, sight_update, hs, hne, hne.symm]
  · have hok := (hv.fiber g).leave hpc (look_seat_running hs)
    simpa [look, setPc, setSeat, sight_update] using hok
  · exact hv.delivery.move rfl (by rw [hpc]; rfl) nofun rfl rfl rfl rfl rfl

theorem sleep (hs : s.seat h = .running g) (hpc : s.pc g = .on) (w : ℕ) (io : Bool) : Inv migrate ({ s with
      wakeAt := update s.wakeAt g w
      enqueued := update s.enqueued g 0 }.setPc g (.reset h io)) holder := by
  refine hv.frame (hv.fibers (g := g) (fun g' hne => ?_) ?_) ?_ rfl rfl rfl rfl
  · simp [look, setPc, hne]
  · have hok := (hv.fiber g).sleep hpc (look_seat_running hs) io
    simpa [look, setPc] using hok
  · exact hv.delivery.move rfl (by rw [hpc]; rfl) nofun rfl rfl rfl rfl rfl

/-! ### The fiber -/

theorem reset (hpc : s.pc g = .reset k io) :
    Inv migrate ({ s with claimed := update s.claimed g false }.setPc g (.push k io)) holder := by
  refine hv.frame (hv.fibers (g := g) (fun g' hne => ?_) ?_) ?_ rfl rfl rfl rfl
  · simp [look, setPc, hne]
  · have hok := (hv.fiber g).reset hpc
    simpa [look, setPc] using hok
  · exact hv.delivery.move rfl (by rw [hpc]; rfl) nofun rfl rfl rfl rfl rfl

theorem push_failed (hpc : s.pc g = .push k io) : Inv migrate (s.setPc g .on) holder := by
  refine hv.frame (hv.fibers (g := g) (fun g' hne => ?_) ?_) ?_ rfl rfl rfl rfl
  · simp [look, setPc, hne]
  · have hok := (hv.fiber g).push_failed hpc
    simpa [look, setPc] using hok
  · exact hv.delivery.move rfl (by rw [hpc]; rfl) nofun rfl rfl rfl rfl rfl

theorem push (hpc : s.pc g = .push k io) : Inv migrate ({ s with heap := update s.heap k (g :: s.heap k) }.setPc g
      (if io then .link k else .yield k false)) holder := by
  refine hv.frame (hv.fibers (g := g) (fun g' hne => ?_) ?_) ?_ rfl rfl rfl rfl
  · simp [look, setPc, count_update, hne, count_cons_of_ne hne.symm]
  · have hok := (hv.fiber g).push hpc
    simpa [look, setPc, count_update] using hok
  · refine hv.delivery.move rfl ?_ ?_ rfl rfl rfl rfl rfl
    · rw [hpc]
      cases io <;> rfl
    · cases io <;> exact nofun

theorem yield (hs : s.seat h = .running g) (hpc : s.pc g = .yield k io) :
    Inv migrate (((s.release migrate g).setPc g (.parked k io)).setSeat h .loop) holder := by
  -- The fiber runs on the hub on which it went to sleep.
  have hrun : (s.look g).RunsOn k := by
    have hp := (hv.fiber g).place
    rw [show (s.look g).pc = .yield k io from hpc] at hp
    exact hp.2.2
  have hh : (s.look g).seat h = .running := look_seat_running hs
  have hk : h = k := by
    rw [hrun] at hh
    by_contra hne
    rw [if_neg hne] at hh
    cases hh
  subst hk
  have hmove : ∀ t : State F H E, t.pc = update s.pc g (.parked h io) → t.exc = s.exc →
      t.signaled = s.signaled → t.main = s.main → t.raised = s.raised → t.returned = s.returned →
      Delivery t holder :=
    fun t ht => hv.delivery.move ht (by rw [hpc]; rfl) nofun
  unfold State.release
  split
  next hm =>
    subst hm
    split
    next hw =>
      refine hv.frame (hv.fibers (g := g) (fun g' hne => ?_) ?_) (hmove _ rfl rfl rfl rfl rfl rfl) rfl rfl rfl rfl
      · simp [look, setPc, setSeat, sight_update, hs, hne, hne.symm]
      · have hok := (hv.fiber g).yield (w := .parked) hpc (fun _ => hw) rfl
        simpa [look, setPc, setSeat, sight_update] using hok
    next hw =>
      refine hv.frame (hv.fibers (g := g) (fun g' hne => ?_) ?_) (hmove _ rfl rfl rfl rfl rfl rfl) rfl rfl rfl rfl
      · simp [look, setPc, setSeat, State.runqPush, State.count, sight_update, hs, hne, hne.symm]
      · have hok := (hv.fiber g).yield_woken hpc hw
        simpa [look, setPc, setSeat, State.runqPush, State.count, sight_update] using hok
  next hm =>
    rw [Bool.not_eq_true] at hm
    subst hm
    refine hv.frame (hv.fibers (g := g) (fun g' hne => ?_) ?_) (hmove _ rfl rfl rfl rfl rfl rfl) rfl rfl rfl rfl
    · simp [look, setPc, setSeat, sight_update, hs, hne, hne.symm]
    · have hok := (hv.fiber g).yield (w := s.ws g) hpc nofun rfl
      simpa [look, setPc, setSeat, sight_update] using hok

theorem resumed_plain (hpc : s.pc g = .resumed k false) : Inv migrate (s.setPc g .on) holder := by
  refine hv.frame (hv.fibers (g := g) (fun g' hne => ?_) ?_) ?_ rfl rfl rfl rfl
  · simp [look, setPc, hne]
  · have hok := (hv.fiber g).resumed_plain hpc
    simpa [look, setPc] using hok
  · exact hv.delivery.move rfl (by rw [hpc]; rfl) nofun rfl rfl rfl rfl rfl

theorem test_signaled (hpc : s.pc g = .test k) (hs : s.signaled g = true) :
    Inv migrate (s.setPc g (.remove k)) holder := by
  refine hv.frame (hv.fibers (g := g) (fun g' hne => ?_) ?_) ?_ rfl rfl rfl rfl
  · simp [look, setPc, hne]
  · have hok := (hv.fiber g).test_signaled hpc hs
    simpa [look, setPc] using hok
  · exact hv.delivery.move rfl (by rw [hpc]; rfl) nofun rfl rfl rfl rfl rfl

theorem remove (hpc : s.pc g = .remove k) :
    Inv migrate ({ s with heap := update s.heap k ((s.heap k).erase g) }.setPc g (.load k)) holder := by
  refine hv.frame (hv.fibers (g := g) (fun g' hne => ?_) ?_) ?_ rfl rfl rfl rfl
  · simp [look, setPc, count_update, hne, count_erase_of_ne]
  · have hok := (hv.fiber g).remove hpc
    simpa [look, setPc, count_update] using hok
  · exact hv.delivery.move rfl (by rw [hpc]; rfl) nofun rfl rfl rfl rfl rfl

theorem load (hpc : s.pc g = .load k) : Inv migrate (s.setPc g (.store k (s.exc k))) holder := by
  refine hv.frame (hv.fibers (g := g) (fun g' hne => ?_) ?_) ?_ rfl rfl rfl rfl
  · simp [look, setPc, hne]
  · have hok := (hv.fiber g).load hpc (s.exc k)
    simpa [look, setPc] using hok
  · refine hv.delivery.move rfl (by rw [hpc]; rfl) ?_ rfl rfl rfl rfl rfl
    rintro k' x ⟨⟩
    rfl

theorem link (hl : s.main.locked = false) (hpc : s.pc g = .link k) : Inv migrate ({ s with
      node := update s.node g (some k)
      signaled := update s.signaled g false
      waiters := g :: s.waiters }.setPc g (.yield k true)) holder := by
  have hd := hv.delivery
  have hown : ∀ h', holder h' ≠ some g := by
    intro h' hh
    have ho := (hd.held hh).1
    rw [hpc] at ho
    cases ho
  refine .of_unlocked (hv.fibers (g := g) (fun g' hne => ?_) ?_) ?_ hl
  · simp [look, setPc, hne, count_cons_of_ne hne.symm]
  · have hok := (hv.fiber g).link hpc
    simpa [look, setPc] using hok
  · refine ⟨hd.slot, fun {h' g'} hh => ?_, fun {h' g'} ho hs => ?_, hd.named, hd.given, hd.free, hd.once,
      fun {g' h' x} hp => ?_, fun hm => ?_, hd.busy⟩
    · have hne : g' ≠ g := fun e => hown h' (e ▸ hh)
      simp only [setPc, update_of_ne hne]
      exact hd.held hh
    · by_cases hne : g' = g
      · -- A new node is not marked.
        simp [setPc, hne] at hs
      · simp only [setPc, update_of_ne hne] at ho hs
        exact hd.owed ho hs
    · by_cases hne : g' = g
      · simp [setPc, hne] at hp
      · simp only [setPc, update_of_ne hne] at hp
        exact hd.stored hp
    · rw [show s.main = _ from hm] at hl
      cases hl

theorem resumed (hl : s.main.locked = false) (hpc : s.pc g = .resumed k true) :
    Inv migrate ({ s with waiters := s.waiters.erase g }.setPc g (.test k)) holder := by
  refine .of_unlocked (hv.fibers (g := g) (fun g' hne => ?_) ?_) ?_ hl
  · simp [look, setPc, hne, count_erase_of_ne]
  · have hok := (hv.fiber g).resumed hpc
    simpa [look, setPc] using hok
  · exact hv.delivery.move rfl (by rw [hpc]; rfl) nofun rfl rfl rfl rfl rfl

theorem holder_ne_of_unmarked (hw : (s.pc g).waits = none) (hs : s.signaled g = false)
    (h : H) : holder h ≠ some g := by
  intro hh
  rcases (hv.delivery.held hh).2 with hs' | ⟨e, hm⟩
  · exact absurd (hs.symm.trans hs') nofun
  · obtain ⟨hmem, hn⟩ := hv.chosen (.inl hm)
    exact absurd (hw.symm.trans (hv.waits hmem hn)) nofun

theorem test_unmarked (hpc : s.pc g = .test k) (hs : s.signaled g = false) :
    Inv migrate (s.setPc g .on) holder := by
  have hd := hv.delivery
  have hown := hv.holder_ne_of_unmarked (by rw [hpc]; rfl) hs
  refine hv.frame (hv.fibers (g := g) (fun g' hne => ?_) ?_) ?_ rfl rfl rfl rfl
  · simp [look, setPc, hne]
  · have hok := (hv.fiber g).test_unmarked hpc hs
    simpa [look, setPc] using hok
  · refine ⟨hd.slot, fun {h' g'} hh => ?_, fun {h' g'} ho hs => ?_, hd.named, hd.given, hd.free, hd.once,
      fun {g' h' x} hp => ?_, hd.marking, hd.busy⟩
    · have hne : g' ≠ g := fun e => hown h' (e ▸ hh)
      simp only [setPc, update_of_ne hne]
      exact hd.held hh
    · by_cases hne : g' = g
      · simp [setPc, hne, Pc.owes] at ho
      · simp only [setPc, update_of_ne hne] at ho
        exact hd.owed ho hs
    · by_cases hne : g' = g
      · simp [setPc, hne] at hp
      · simp only [setPc, update_of_ne hne] at hp
        exact hd.stored hp

theorem store_holder {x : Option E} (hpc : s.pc g = .store k x) :
    holder k = some g ∧ ∃ e, s.exc k = some e ∧ x = some e := by
  have hp := (hv.fiber g).place
  rw [show (s.look g).pc = .store k x from hpc] at hp
  have hholder : holder k = some g := hv.delivery.owed (by rw [hpc]; rfl) hp.2.1
  have hx := hv.delivery.stored hpc
  refine ⟨hholder, ?_⟩
  cases he : s.exc k with
  | none => exact absurd (((hv.delivery.slot k).mp he).symm.trans hholder) nofun
  | some e => exact ⟨e, rfl, hx.trans he⟩

theorem store {x : Option E} (hpc : s.pc g = .store k x) : ∃ holder', Inv migrate ({ s with
      exc := update s.exc k none
      raised := match x with
        | some e => update s.raised e (s.raised e ++ [g])
        | none => s.raised }.setPc g .on) holder' := by
  obtain ⟨hholder, e, hexc, rfl⟩ := hv.store_holder hpc
  have hd := hv.delivery
  have hraised : s.raised e = [] := by
    rcases hd.given (hd.named hexc hholder) with ⟨hr, -⟩ | ⟨-, hn⟩
    · exact hr
    · exact absurd hexc (hn k)
  -- The slot of a hub is held for one fiber only, and a fiber holds one slot.
  have hgone : ∀ h', h' ≠ k → holder h' ≠ some g := by
    intro h' hne hh
    have ho := (hd.held hh).1
    rw [hpc] at ho
    exact hne (Option.some.inj ho).symm
  have hmine : ∀ g', g' ≠ g → holder k ≠ some g' := fun g' hne hh => hne (Option.some.inj (hh.symm.trans hholder))
  refine ⟨update holder k none, hv.frame (hv.fibers (g := g) (fun g' hne => ?_) ?_) ?_ rfl rfl rfl rfl⟩
  · simp [look, setPc, hne]
  · have hok := (hv.fiber g).store hpc
    simpa [look, setPc] using hok
  · refine ⟨fun h' => ?_, fun {h' g'} hh => ?_, fun {h' g'} ho hs => ?_, fun {h' e' g'} he hh => ?_,
      fun {e' g'} hg => ?_, fun {e'} hg => ?_, fun {h' h'' e'} he he' => ?_, fun {g' h' x} hp => ?_,
      fun {e' g' h'} hm => ?_, hd.busy⟩
    · simp only [setPc, update_apply]
      split
      · simp
      · exact hd.slot h'
    · have hne : h' ≠ k := by
        rintro rfl
        rw [update_self] at hh
        cases hh
      rw [update_of_ne hne] at hh
      have hg' : g' ≠ g := fun e => hgone h' hne (e ▸ hh)
      simp only [setPc, update_of_ne hg']
      exact hd.held hh
    · have hg' : g' ≠ g := by
        rintro rfl
        simp [setPc, Pc.owes] at ho
      simp only [setPc, update_of_ne hg'] at ho
      have hh := hd.owed ho hs
      have hne : h' ≠ k := fun e => hmine g' hg' (e ▸ hh)
      rw [update_of_ne hne]
      exact hh
    · have hne : h' ≠ k := by
        rintro rfl
        rw [update_self] at hh
        cases hh
      simp only [setPc, update_of_ne hne] at he
      rw [update_of_ne hne] at hh
      exact hd.named he hh
    · simp only [setPc, update_apply]
      by_cases he : e' = e
      · -- The exception that was just raised.
        subst he
        right
        have hgg : g' = g := by
          rcases hd.given hg with ⟨-, h', he', hh'⟩ | ⟨-, hn⟩
          · rw [hd.once he' hexc, hholder] at hh'
            exact (Option.some.inj hh').symm
          · exact absurd hexc (hn k)
        refine ⟨by rw [if_pos rfl, hraised, hgg]; rfl, fun h' => ?_⟩
        split
        next => exact nofun
        next hne => exact fun he' => hne (hd.once he' hexc)
      · rw [if_neg he]
        rcases hd.given hg with ⟨hr, h', he', hh'⟩ | ⟨hr, hn⟩
        · left
          have hne : h' ≠ k := fun e₁ => he (Option.some.inj ((e₁ ▸ he').symm.trans hexc))
          exact ⟨hr, h', by rw [if_neg hne]; exact he', by rw [if_neg hne]; exact hh'⟩
        · right
          refine ⟨hr, fun h' => ?_⟩
          split
          · exact nofun
          · exact hn h'
    · have he : e' ≠ e := by
        rintro rfl
        exact hg g (hd.named hexc hholder)
      obtain ⟨hr, hn⟩ := hd.free hg
      simp only [setPc, update_of_ne he]
      refine ⟨hr, fun h' => ?_⟩
      rw [update_apply]
      split
      · exact nofun
      · exact hn h'
    · simp only [setPc, update_apply] at he he'
      split at he
      · cases he
      · split at he'
        · cases he'
        · exact hd.once he he'
    · have hg' : g' ≠ g := by
        rintro rfl
        simp [setPc] at hp
      simp only [setPc, update_of_ne hg'] at hp ⊢
      have hne : h' ≠ k := by
        rintro rfl
        exact hmine g' hg' (hv.store_holder hp).1
      rw [update_of_ne hne]
      exact hd.stored hp
    · obtain ⟨he, hh, hs⟩ := hd.marking hm
      have hne : h' ≠ k := by
        rintro rfl
        obtain rfl := Option.some.inj (hh.symm.trans hholder)
        have hp := (hv.fiber g').place
        rw [show (s.look g').pc = _ from hpc] at hp
        exact absurd (hs.symm.trans hp.2.1) nofun
      simp only [setPc, update_of_ne hne]
      exact ⟨he, hh, hs⟩

/-! ### The hub -/

theorem pop (hs : s.seat h = .loop) (hg : g ∈ s.heap h) :
    Inv migrate ({ s with heap := update s.heap h ((s.heap h).erase g) }.setSeat h (.popped g)) holder := by
  have hseat : (s.look g).seat h = .elsewhere := look_seat_loop hs
  have hheap : 0 < (s.look g).heap h := count_pos_iff.mpr hg
  obtain ⟨io, hpc⟩ := (hv.fiber g).parked_of_trace (by simp [hseat]) (.inl hheap)
  refine hv.frame (hv.fibers (g := g) (fun g' hne => ?_) ?_) (hv.delivery.stay rfl rfl rfl rfl rfl rfl) rfl rfl rfl rfl
  · simp [look, setSeat, count_update, sight_update, hs, hne, hne.symm, count_erase_of_ne]
  · have hok := (hv.fiber g).pop hpc hseat hheap
    simpa [look, setSeat, count_update, sight_update] using hok

theorem claim_lost (hs : s.seat h = .popped g) (hc : s.claimed g = true) :
    Inv migrate (s.setSeat h .loop) holder := by
  have hseat : (s.look g).seat h = .popped := by simp [look, hs]
  obtain ⟨io, hpc⟩ := (hv.fiber g).parked_of_seat hseat nofun nofun
  refine hv.frame (hv.fibers (g := g) (fun g' hne => ?_) ?_) (hv.delivery.stay rfl rfl rfl rfl rfl rfl) rfl rfl rfl rfl
  · simp [look, setSeat, sight_update, hs, hne.symm]
  · have hok := (hv.fiber g).claim_lost hpc hseat hc
    simpa [look, setSeat, sight_update] using hok

theorem claim_won (hs : s.seat h = .popped g) (hc : s.claimed g = false) :
    Inv migrate ({ s with claimed := update s.claimed g true }.setSeat h (.won g)) holder := by
  have hseat : (s.look g).seat h = .popped := by simp [look, hs]
  obtain ⟨io, hpc⟩ := (hv.fiber g).parked_of_seat hseat nofun nofun
  refine hv.frame (hv.fibers (g := g) (fun g' hne => ?_) ?_) (hv.delivery.stay rfl rfl rfl rfl rfl rfl) rfl rfl rfl rfl
  · simp [look, setSeat, sight_update, hs, hne, hne.symm]
  · have hok := (hv.fiber g).claim_won hpc hseat hc
    simpa [look, setSeat, sight_update] using hok

theorem timerPush (hs : s.seat h = .won g) : Inv migrate (s.timerPush migrate h g) holder := by
  have hseat : (s.look g).seat h = .won := by simp [look, hs]
  obtain ⟨io, hpc⟩ := (hv.fiber g).parked_of_seat hseat nofun nofun
  unfold State.timerPush
  dsimp only
  split
  next hm =>
    subst hm
    rw [if_pos (show (s.setSeat h .loop).ws g = .parked from (hv.fiber g).ws_of_won hpc hseat)]
    refine hv.frame (hv.fibers (g := g) (fun g' hne => ?_) ?_) (hv.delivery.stay rfl rfl rfl rfl rfl rfl) rfl rfl rfl rfl
    · simp [look, setSeat, readyPush, State.count, count_update, sight_update, hs, hne, hne.symm]
    · have hok := (hv.fiber g).timerPush (w := .running) hpc hseat rfl
      simpa [look, setSeat, readyPush, State.count, count_update, sight_update] using hok
  next hm =>
    rw [Bool.not_eq_true] at hm
    subst hm
    refine hv.frame (hv.fibers (g := g) (fun g' hne => ?_) ?_) (hv.delivery.stay rfl rfl rfl rfl rfl rfl) rfl rfl rfl rfl
    · simp [look, setSeat, readyPush, State.count, count_update, sight_update, hs, hne, hne.symm]
    · have hok := (hv.fiber g).timerPush (w := s.ws g) hpc hseat rfl
      simpa [look, setSeat, readyPush, State.count, count_update, sight_update] using hok

end

variable {rest : List F}

theorem resume (hv : Inv migrate s holder) (hs : s.seat h = .loop) (hr : s.ready h = g :: rest)
    {t : State F H E} (ht : { s with ready := update s.ready h rest }.resumeOn h g = some t) :
    Inv migrate t holder := by
  have hseat : (s.look g).seat h = .elsewhere := look_seat_loop hs
  have hready : 0 < (s.look g).ready h := by simp [look, hr]
  obtain ⟨io, hpc⟩ := (hv.fiber g).parked_of_trace (by simp [hseat]) (.inr (.inl hready))
  have hpc' : s.pc g = .parked h io := hpc
  simp only [State.resumeOn, hpc', Option.some.injEq] at ht
  subst ht
  refine hv.frame (hv.fibers (g := g) (fun g' hne => ?_) ?_) ?_ rfl rfl rfl rfl
  · simp [look, setPc, setSeat, count_update, sight_update, hs, hr, hne, hne.symm]
  · have hok := (hv.fiber g).resume hpc hseat hready
    simpa [look, setPc, setSeat, count_update, sight_update, hr] using hok
  · exact hv.delivery.move rfl (by rw [hpc']; rfl) nofun rfl rfl rfl rfl rfl

theorem pull (hv : Inv migrate s holder) (hs : s.seat h = .loop) (hr : s.runq = g :: rest)
    (hhome : ∀ k io, s.pc g = .parked k io → k = h) {t : State F H E}
    (ht : (if s.ws g = .queued then
      { s with ws := update s.ws g .running, runq := rest }.resumeOn h g
      else some { s with runq := rest }) = some t) : Inv migrate t holder := by
  have hseat : (s.look g).seat h = .elsewhere := look_seat_loop hs
  have hrunq : 0 < (s.look g).runq := by simp [look, hr]
  obtain ⟨k, io, hpc⟩ := (hv.fiber g).parked_of_runq hrunq
  obtain rfl := hhome k io hpc
  have hpc' : s.pc g = .parked k io := hpc
  rw [if_pos (show s.ws g = .queued from (hv.fiber g).queued_of_runq hpc hrunq)] at ht
  simp only [State.resumeOn, hpc', Option.some.injEq] at ht
  subst ht
  refine hv.frame (hv.fibers (g := g) (fun g' hne => ?_) ?_) ?_ rfl rfl rfl rfl
  · simp [look, setPc, setSeat, sight_update, hs, hr, hne, hne.symm]
  · have hok := (hv.fiber g).pull hpc hseat hrunq
    simpa [look, setPc, setSeat, sight_update, hr] using hok
  · exact hv.delivery.move rfl (by rw [hpc']; rfl) nofun rfl rfl rfl rfl rfl

/-! ### The main thread -/

variable {e : E}

section

variable (hv : Inv migrate s holder)
include hv

theorem signal (hm : s.main = .idle) (he : s.returned e = none) :
    Inv migrate { s with main := .walk e s.waiters } holder := by
  refine ⟨fun g => ?_, fun hw => ?_, by simp, by simp, ?_⟩
  · have hlook : look { s with main := .walk e s.waiters } g = s.look g := by
      simp [look, hm, Main.waking]
    rw [hlook]
    exact hv.fiber g
  · cases hw
    exact fun g hg => hg
  · refine hv.delivery.quiet ?_ (by simp [hm]) (by simp) ?_ rfl rfl rfl rfl
    · simp [State.Gives, hm, Main.gives]
    · simp [Main.busy, he]

theorem walk_done (hm : s.main = .walk e []) :
    Inv migrate { s with main := .idle, returned := update s.returned e (some none) } holder := by
  have he : s.returned e = none := hv.delivery.busy (by rw [hm]; rfl)
  refine .of_unlocked (fun g => ?_) ?_ rfl
  · have hlook : look { s with main := .idle, returned := update s.returned e (some none) } g = s.look g := by
      simp [look, hm, Main.waking]
    rw [hlook]
    exact hv.fiber g
  · refine hv.delivery.quiet (fun e' g => ?_) (by simp [hm]) (by simp) (by simp [Main.busy]) rfl rfl rfl rfl
    by_cases hne : e' = e
    · simp [State.Gives, hm, Main.gives, hne, he]
    · simp [State.Gives, hm, Main.gives, hne]

theorem walk_skip (hm : s.main = .walk e (g :: rest)) : Inv migrate { s with main := .walk e rest } holder := by
  have he : s.returned e = none := hv.delivery.busy (by rw [hm]; rfl)
  refine ⟨fun g' => ?_, fun hw => ?_, by simp, by simp, ?_⟩
  · have hlook : look { s with main := .walk e rest } g' = s.look g' := by
      simp [look, hm, Main.waking]
    rw [hlook]
    exact hv.fiber g'
  · cases hw
    exact fun g' hg => hv.walk hm g' (mem_cons_of_mem g hg)
  · refine hv.delivery.quiet ?_ (by simp [hm]) (by simp) ?_ rfl rfl rfl rfl
    · simp [State.Gives, hm, Main.gives]
    · simp [Main.busy, he]

theorem walk_reserve (hm : s.main = .walk e (g :: rest))
    (hn : s.node g = some k) (hs : s.signaled g = false) (hx : s.exc k = none) :
    ∃ holder', Inv migrate { s with main := .mark e g k, exc := update s.exc k (some e) } holder' := by
  have hd := hv.delivery
  have hmem : g ∈ s.waiters := hv.walk hm g mem_cons_self
  have hw := hv.waits hmem hn
  have ho : (s.pc g).owes = some k := by
    cases hpc : s.pc g <;> rw [hpc] at hw <;> first | exact hw | cases hw
  have hk : holder k = none := (hd.slot k).mp hx
  have he : s.returned e = none := hd.busy (by rw [hm]; rfl)
  -- Nobody was given the exception yet, so that it is in no slot.
  have hnew : ∀ g', ¬s.Gives e g' := by
    intro g'
    simp [State.Gives, he, hm, Main.gives]
  obtain ⟨hraised, hslots⟩ := hd.free hnew
  have hgives : ∀ e' g', State.Gives { s with main := .mark e g k, exc := update s.exc k (some e) } e' g' ↔
      s.Gives e' g' ∨ e' = e ∧ g' = g := by
    intro e' g'
    simp only [State.Gives, hm, Main.gives, reduceCtorEq, or_false, Option.ite_none_right_eq_some, Option.some.injEq]
    rw [eq_comm (a := e), eq_comm (a := g)]
  refine ⟨update holder k (some g), fun g' => ?_, by simp, fun hc => ?_, by simp, ?_⟩
  · have hlook : look { s with main := .mark e g k, exc := update s.exc k (some e) } g' = s.look g' := by
      simp [look, hm, Main.waking]
    rw [hlook]
    exact hv.fiber g'
  · rcases hc with hc | hc <;> cases hc
    exact ⟨hmem, hn⟩
  · refine ⟨fun h' => ?_, fun {h' g'} hh => ?_, fun {h' g'} ho' hs' => ?_, fun {h' e' g'} he' hh => ?_,
      fun {e' g'} hg => ?_, fun {e'} hg => ?_, fun {h' h'' e'} h₁ h₂ => ?_, fun {g' h' x} hp => ?_,
      fun {e' g' h'} hm' => ?_, fun {e'} hb => ?_⟩
    · simp only [update_apply]
      split
      · simp
      · exact hd.slot h'
    · by_cases hne : h' = k
      · subst hne
        rw [update_self] at hh
        cases hh
        exact ⟨ho, .inr ⟨e, rfl⟩⟩
      · rw [update_of_ne hne] at hh
        obtain ⟨ho', hs'⟩ := hd.held hh
        exact ⟨ho', .inl (hs'.resolve_right (by simp [hm]))⟩
    · have hh := hd.owed ho' hs'
      have hne : h' ≠ k := by
        rintro rfl
        exact absurd (hk.symm.trans hh) nofun
      rw [update_of_ne hne]
      exact hh
    · rw [hgives]
      by_cases hne : h' = k
      · subst hne
        simp only [update_self, Option.some.injEq] at he' hh
        exact .inr ⟨he'.symm, hh.symm⟩
      · simp only [update_of_ne hne] at he' hh
        exact .inl (hd.named he' hh)
    · rcases (hgives e' g').mp hg with hg' | ⟨rfl, rfl⟩
      · have hne : e' ≠ e := by
          rintro rfl
          exact hnew g' hg'
        rcases hd.given hg' with ⟨hr, h', he', hh⟩ | ⟨hr, hn'⟩
        · have hk' : h' ≠ k := by
            rintro rfl
            exact absurd (hx.symm.trans he') nofun
          left
          refine ⟨hr, h', ?_, ?_⟩
          · dsimp only
            rw [update_of_ne hk']
            exact he'
          · rw [update_of_ne hk']
            exact hh
        · right
          refine ⟨hr, fun h' => ?_⟩
          dsimp only
          rw [update_apply]
          split
          · exact fun h => hne (Option.some.inj h).symm
          · exact hn' h'
      · exact .inl ⟨hraised, k, update_self .., update_self ..⟩
    · have hne : e' ≠ e := by
        rintro rfl
        exact hg g ((hgives e' g).mpr (.inr ⟨rfl, rfl⟩))
      obtain ⟨hr, hn'⟩ := hd.free fun g' h => hg g' ((hgives e' g').mpr (.inl h))
      refine ⟨hr, fun h' => ?_⟩
      dsimp only
      rw [update_apply]
      split
      · exact fun h => hne (Option.some.inj h).symm
      · exact hn' h'
    · simp only [update_apply] at h₁ h₂
      split at h₁ <;> split at h₂
      next h₃ h₄ => rw [h₃, h₄]
      next =>
        cases h₁
        exact absurd h₂ (hslots h'')
      next =>
        cases h₂
        exact absurd h₁ (hslots h')
      next => exact hd.once h₁ h₂
    · have hne : h' ≠ k := by
        rintro rfl
        exact absurd (hk.symm.trans (hv.store_holder hp).1) nofun
      dsimp only
      rw [update_of_ne hne]
      exact hd.stored hp
    · cases hm'
      exact ⟨update_self .., update_self .., hs⟩
    · cases hb
      exact he

theorem mark (hm : s.main = .mark e g k) :
    Inv migrate { s with main := .claim e g k, signaled := update s.signaled g true } holder := by
  have hd := hv.delivery
  obtain ⟨hmem, hn⟩ := hv.chosen (.inl hm)
  obtain ⟨hx, hh, hs⟩ := hd.marking hm
  have ho := (hd.held hh).1
  have he : s.returned e = none := hd.busy (by rw [hm]; rfl)
  have hgives : ∀ e' g', State.Gives { s with
      main := .claim e g k, signaled := update s.signaled g true } e' g' ↔ s.Gives e' g' := by
    intro e' g'
    simp [State.Gives, hm, Main.gives]
  refine ⟨hv.fibers (g := g) (fun g' hne => ?_) ?_, by simp, fun hc => ?_, fun hc => ?_, ?_⟩
  · simp [look, hm, Main.waking, hne]
  · have hok := (hv.fiber g).mark (hv.waits hmem hn)
    simpa [look, hm, Main.waking] using hok
  · rcases hc with hc | hc <;> cases hc
    exact ⟨hmem, hn⟩
  · cases hc
    exact update_self ..
  · refine ⟨hd.slot, fun {h' g'} hh' => ?_, fun {h' g'} ho' hs' => ?_, fun he' hh' => ?_, fun {e' g'} hg => ?_,
      fun {e'} hg => hd.free fun g' h => hg g' ((hgives e' g').mpr h), hd.once, hd.stored, by simp, fun hb => ?_⟩
    · obtain ⟨ho', hs'⟩ := hd.held hh'
      refine ⟨ho', .inl ?_⟩
      by_cases hne : g' = g
      · rw [hne]
        exact update_self ..
      · dsimp only
        rw [update_of_ne hne]
        exact hs'.resolve_right fun ⟨e', h⟩ => hne (by rw [hm] at h; cases h; rfl)
    · by_cases hne : g' = g
      · -- The chosen fiber has one slot to look in.
        subst hne
        cases ho.symm.trans ho'
        exact hh
      · dsimp only at hs'
        rw [update_of_ne hne] at hs'
        exact hd.owed ho' hs'
    · exact (hgives _ _).mpr (hd.named he' hh')
    · exact hd.given ((hgives e' g').mp hg)
    · cases hb
      exact he

theorem mainClaim (hm : s.main = .claim e g k) : Inv migrate { s with
      main := .wake e g k (!s.claimed g), claimed := update s.claimed g true } holder := by
  obtain ⟨hmem, hn⟩ := hv.chosen (.inr hm)
  have hs := hv.marked hm
  have he : s.returned e = none := hv.delivery.busy (by rw [hm]; rfl)
  refine .of_unlocked (hv.fibers (g := g) (fun g' hne => ?_) ?_) ?_ rfl
  · cases hc : s.claimed g <;> simp [look, hm, Main.waking, hne, hne.symm]
  · cases hc : s.claimed g with
    | false =>
      have hok := (hv.fiber g).claim (hv.waits hmem hn) hc hs
      simpa [look, hm, Main.waking] using hok
    | true =>
      -- The timer was first: nothing changes for the fiber.
      have hlook : look { s with
          main := .wake e g k (!true), claimed := update s.claimed g true } g = s.look g := by
        simp [look, hm, Main.waking, hc]
      rw [hlook]
      exact hv.fiber g
  · refine hv.delivery.quiet ?_ (by simp [hm]) (by simp) ?_ rfl rfl rfl rfl
    · simp [State.Gives, hm, Main.gives]
    · simp [Main.busy, he]

end

end Inv

omit [DecidableEq F] [DecidableEq H] in
theorem gives_returned {e : E} {c : Bool} (hm : s.main = .wake e g k c) (he : s.returned e = none)
    {t : State F H E} (htm : t.main = .idle) (htr : t.returned = update s.returned e (some (some g)))
    (e' : E) (g' : F) : t.Gives e' g' ↔ s.Gives e' g' := by
  unfold State.Gives
  rw [htm, htr, hm]
  by_cases hne : e' = e
  · subst hne
    simp [Main.gives, he]
  · simp [Main.gives, hne, Ne.symm hne]

namespace Inv

theorem wake_lost (hv : Inv migrate s holder) {e : E} (hm : s.main = .wake e g k false) :
    Inv migrate { s with main := .idle, returned := update s.returned e (some (some g)) } holder := by
  have he : s.returned e = none := hv.delivery.busy (by rw [hm]; rfl)
  refine .of_unlocked (fun g' => ?_) ?_ rfl
  · have hlook : look { s with main := .idle, returned := update s.returned e (some (some g)) } g' =
        s.look g' := by
      simp [look, hm, Main.waking]
    rw [hlook]
    exact hv.fiber g'
  · exact hv.delivery.quiet (gives_returned hm he rfl rfl) (by simp [hm]) (by simp) (by simp [Main.busy]) rfl rfl rfl rfl

theorem wake_won (hv : Inv migrate s holder) {e : E} (hm : s.main = .wake e g k true) :
    Inv migrate { s.wakeG migrate k g with
      main := .idle, returned := update s.returned e (some (some g)) } holder := by
  have he : s.returned e = none := hv.delivery.busy (by rw [hm]; rfl)
  have hwaking : (s.look g).waking = some k := by simp [look, hm, Main.waking]
  have hquiet : ∀ t : State F H E, t.main = .idle → t.returned = update s.returned e (some (some g)) →
      t.pc = s.pc → t.exc = s.exc → t.signaled = s.signaled → t.raised = s.raised → Delivery t holder :=
    fun t htm htr => hv.delivery.quiet (gives_returned hm he htm htr) (by simp [hm]) (by simp [htm])
      (by simp [htm, Main.busy])
  unfold State.wakeG
  cases migrate with
  | false =>
    refine .of_unlocked (hv.fibers (g := g) (fun g' hne => ?_) ?_) (hquiet _ rfl rfl rfl rfl rfl rfl) rfl
    · simp [look, readyPush, State.count, count_update, hm, Main.waking, hne, hne.symm]
    · have hok := (hv.fiber g).wake_hub hwaking
      simpa [look, readyPush, State.count, count_update, hm, Main.waking] using hok
  | true =>
    rcases (hv.fiber g).ws_of_waking hwaking with hw | hw
    · have hw' : s.ws g = .parked := hw
      rw [if_pos rfl, hw']
      refine .of_unlocked (hv.fibers (g := g) (fun g' hne => ?_) ?_) (hquiet _ rfl rfl rfl rfl rfl rfl) rfl
      · simp [look, State.runqPush, State.count, hm, Main.waking, hne, hne.symm]
      · have hok := (hv.fiber g).wake_parked hwaking hw
        simpa [look, State.runqPush, State.count, hm, Main.waking] using hok
    · have hw' : s.ws g = .running := hw
      rw [if_pos rfl, hw']
      refine .of_unlocked (hv.fibers (g := g) (fun g' hne => ?_) ?_) (hquiet _ rfl rfl rfl rfl rfl rfl) rfl
      · simp [look, hm, Main.waking, hne, hne.symm]
      · have hok := (hv.fiber g).wake_running hwaking hw
        simpa [look, hm, Main.waking] using hok

end Inv

end Runloom.SleepSignal
