import Runloom.CoEvent.Model

/-!
# The cooperative event: whom `set` reaches

A `wait` that goes to its park from a section that left its parker in `_waiters` is always reached: the parker stays
in the list until a `set` takes it out, and that `set` then owes it a wake.

A `wait` whose last look found the flag set does not register again.  When a `clear` comes between the look and the
test, the test lets the call park although its parker is in no list, and no later `set` finds it.
-/

namespace Runloom.CoEvent

open Transition Handoff List

variable {C : Type*} [DecidableEq C] {s t : State C} {a : Action C} {c d : C} {p : Pc C}

namespace Pc

def ended : Pc C → Bool
  | .reading | .returned _ => true
  | _ => false

omit [DecidableEq C] in
theorem not_committed_of_ended {p : Pc C} (h : p.ended = true) : p.committed = false := by
  cases p <;> first | rfl | cases h

/-- The call is before the test of its loop, after a look that found the flag set. -/
def retests : Pc C → Bool
  | .retest _ => true
  | _ => false

end Pc

structure Inv (s : State C) : Prop where
  empty : s.flag = true → s.waiters = []
  released : ∀ c, s.released c = true → (s.pc c).ended = true
  reached : ∀ c, (s.pc c).committed = true → Reached Pc.toWake s.waiters s.credit s.pc c

omit [DecidableEq C] in
theorem Inv.init (h : Init s) : Inv s where
  empty _ := h.waiters
  released c hc := by
    rw [h.released] at hc
    cases hc
  reached c hc := by
    rw [h.pc] at hc
    cases hc

section

variable (hI : Inv s)
include hI

theorem Inv.goto {flag : Bool} {waiters : List C} {released : C → Bool} (hempty : flag = true → waiters = [])
    (hreleased : ∀ d, released d = true → s.released d = true ∨ d = c ∧ p.ended = true)
    (hended : (s.pc c).ended = true → p.ended = true)
    (hl : ∀ d, (s.pc d).committed = true → d ∈ s.waiters → d ∈ waiters ∨ d ∈ p.toWake)
    (hw : ∀ d, (s.pc d).committed = true → d ∈ (s.pc c).toWake → d ∈ p.toWake)
    (hself : p.committed = true → c ∈ waiters ∨ (s.pc c).committed = true) :
    Inv ({ s with flag := flag, waiters := waiters, released := released }.goto c p) where
  empty := hempty
  released d hd := by
    by_cases hdc : d = c
    · subst hdc
      show (update s.pc d p d).ended = true
      rw [update_self]
      rcases hreleased d hd with h | ⟨-, h⟩
      · exact hended (hI.released d h)
      · exact h
    · show (update s.pc c p d).ended = true
      rw [update_of_ne hdc]
      rcases hreleased d hd with h | ⟨h, -⟩
      · exact hI.released d h
      · exact absurd h hdc
  reached d hd := by
    have hkeep : (s.pc d).committed = true → Reached Pc.toWake waiters s.credit (update s.pc c p) d :=
      fun h => (hI.reached d h).move (hl d h) (hw d h)
    by_cases hdc : d = c
    · subst hdc
      rw [State.goto_self] at hd
      exact (hself hd).elim .inl hkeep
    · rw [State.goto_of_ne _ _ hdc] at hd
      exact hkeep hd

theorem Inv.move (hended : (s.pc c).ended = false) (hwake : (s.pc c).toWake = [])
    (hself : p.committed = true → c ∈ s.waiters ∨ (s.pc c).committed = true) : Inv (s.goto c p) := by
  refine hI.goto hI.empty (fun d hd => .inl hd) (fun h => ?_) (fun d _ => Or.inl) (fun d _ hd => ?_) hself
  · rw [hended] at h
    cases h
  · rw [hwake] at hd
    cases hd

theorem Inv.wake : Inv (s.wake c) :=
  ⟨hI.empty, hI.released, fun d hd => (hI.reached d hd).poke⟩

theorem Inv.eat (hc : (s.pc c).committed = false) : Inv (s.eat c) := by
  refine ⟨hI.empty, hI.released, fun d hd => (hI.reached d hd).eat ?_⟩
  rintro rfl
  rw [show (s.pc d).committed = true from hd] at hc
  cases hc

theorem Inv.call (hpc : s.pc c = .idle) (k : Call) : Inv (s.call c k) := by
  have hended : (s.pc c).ended = false := by
    rw [hpc]
    rfl
  have hwake : (s.pc c).toWake = [] := by
    rw [hpc]
    rfl
  cases k with
  | wait timeout =>
    simp only [State.call]
    split <;> exact hI.move hended hwake nofun
  | set =>
    simp only [State.call]
    split
    · exact hI.move hended hwake nofun
    -- The list passes to the `set` that took it, which owes the wakes now.
    · refine hI.goto (fun _ => rfl) (fun d hd => .inl hd) (fun h => ?_) (fun d _ hd => .inr hd) (fun d _ hd => ?_)
        nofun
      · rw [hended] at h
        cases h
      · rw [hwake] at hd
        cases hd
  | clear =>
    refine hI.goto nofun (fun d hd => .inl hd) (fun h => ?_) (fun d _ => Or.inl) (fun d _ hd => ?_) nofun
    · rw [hended] at h
      cases h
    · rw [hwake] at hd
      cases hd

theorem Inv.register {timeout : Option ℤ} (hpc : s.pc c = .building timeout) : Inv (s.register c timeout) := by
  have hwake : ∀ d, d ∈ (s.pc c).toWake → False := by
    intro d hd
    rw [hpc] at hd
    cases hd
  unfold State.register
  split
  -- The flag was set in between: no parker is left behind.
  next hf =>
    refine hI.goto hI.empty (fun d hd => ?_) (fun _ => rfl) (fun d _ => Or.inl) (fun d _ hd => (hwake d hd).elim) nofun
    by_cases hdc : d = c
    · exact .inr ⟨hdc, rfl⟩
    · rw [update_of_ne hdc] at hd
      exact .inl hd
  next hf =>
    refine hI.goto (fun h => absurd h hf) (fun d hd => .inl hd) (fun h => ?_)
      (fun d _ hd => .inl (mem_append_left _ hd)) (fun d _ hd => (hwake d hd).elim) fun _ => ?_
    · rw [hpc] at h
      cases h
    · exact .inl (mem_append_right _ (mem_singleton_self c))

theorem Inv.test {deadline : Option ℤ} (hended : (s.pc c).ended = false)
    (hwake : (s.pc c).toWake = []) (hc : s.flag = false → (s.pc c).committed = true) :
    Inv (s.test c deadline) := by
  unfold State.test
  split
  next => exact hI.move hended hwake nofun
  next hf =>
    have hself := hc (Bool.eq_false_iff.mpr hf)
    cases deadline with
    | none | some d => exact hI.move hended hwake fun _ => .inr hself

theorem Inv.relist {deadline : Option ℤ} (hpc : s.pc c = .relist deadline) : Inv (s.relist c deadline) := by
  have hended : (s.pc c).ended = false := by
    rw [hpc]
    rfl
  have hwake : (s.pc c).toWake = [] := by
    rw [hpc]
    rfl
  unfold State.relist
  split
  next => exact hI.move hended hwake nofun
  next hf =>
    split
    -- The return was spurious, and the parker never left the list.
    next hmem => exact hI.move hended hwake fun _ => .inl hmem
    next =>
      refine hI.goto (fun h => absurd h hf) (fun d hd => .inl hd) (fun h => ?_)
        (fun d _ hd => .inl (mem_append_left _ hd)) (fun d _ hd => ?_) fun _ => ?_
      · rw [hended] at h
        cases h
      · rw [hwake] at hd
        cases hd
      · exact .inl (mem_append_right _ (mem_singleton_self c))

theorem Inv.collect {q : C} {parkers got : List C} (hpc : s.pc c = .collect (q :: parkers) got) :
    Inv (s.collect c q parkers got) := by
  refine hI.goto hI.empty (fun d hd => .inl hd) (fun h => ?_) (fun d _ => Or.inl) (fun d hd hmem => ?_) nofun
  · rw [hpc] at h
    cases h
  · rw [hpc] at hmem
    have hmem' : d ∈ got ∨ d = q ∨ d ∈ parkers := by
      simpa [Pc.toWake] using hmem
    show d ∈ (if s.released q then got else got ++ [q]) ++ parkers
    rcases hmem' with h | rfl | h
    · split
      · exact mem_append_left _ h
      · exact mem_append_left _ (mem_append_left _ h)
    · -- A parker without a handle belongs to a call that sleeps no more.
      have hheld : s.released d = false := by
        rw [Bool.eq_false_iff]
        intro hr
        rw [Pc.not_committed_of_ended (hI.released d hr)] at hd
        cases hd
      rw [hheld]
      exact mem_append_left _ (mem_append_right _ (mem_singleton_self d))
    · exact mem_append_right _ h

theorem Inv.wakeNext {q : C} {handles : List C} (hpc : s.pc c = .waking (q :: handles)) :
    Inv ((s.wake q).goto c (.waking handles)) where
  empty := hI.empty
  released d hd := by
    by_cases hdc : d = c
    · subst hdc
      have := hI.released d hd
      rw [hpc] at this
      cases this
    · rw [State.goto_of_ne _ _ hdc]
      exact hI.released d hd
  reached d hd := by
    have hdc : d ≠ c := by
      rintro rfl
      rw [State.goto_self] at hd
      cases hd
    rw [State.goto_of_ne _ _ hdc] at hd
    -- The one that is woken has the credit now; the others are still to come.
    apply (hI.reached d hd).wake
    rw [hpc]
    rfl

end

/-! ## The runs in which no flag is cleared under a waiter -/

/-- A call whose last look found the flag set finds it still set at its test. -/
def FlagStays (s : State C) (a : Action C) : Prop :=
  match a with
  | .next c => (s.pc c).retests = true → s.flag = true
  | _ => True

instance (s : State C) : ∀ a : Action C, Decidable (FlagStays s a)
  | .next c => inferInstanceAs (Decidable ((s.pc c).retests = true → s.flag = true))
  | .call .. | .elsewhere _ | .poke _ | .tick _ => .isTrue trivial

theorem Inv.next (hI : Inv s) (hC : FlagStays s (.next c)) (h : s.next c = some t) : Inv t := by
  unfold State.next at h
  split at h
  · cases h
  -- The section that registers the parker.
  next timeout hpc =>
    cases h
    exact hI.register hpc
  next timeout hpc =>
    cases h
    exact hI.move (by rw [hpc]; rfl) (by rw [hpc]; rfl) fun _ => .inr (by rw [hpc]; rfl)
  next deadline hpc =>
    cases h
    exact hI.test (by rw [hpc]; rfl) (by rw [hpc]; rfl) fun _ => by rw [hpc]; rfl
  -- The test after a look that found the flag set: the call is in no list, and the condition lets it leave the loop.
  next deadline hpc =>
    cases h
    refine hI.test (by rw [hpc]; rfl) (by rw [hpc]; rfl) fun hf => ?_
    have := hC (by rw [hpc]; rfl)
    rw [hf] at this
    cases this
  -- The clock, before the park; the call is still in the list or owed a wake.
  next d hpc =>
    cases h
    split
    · exact hI.move (by rw [hpc]; rfl) (by rw [hpc]; rfl) nofun
    · exact hI.move (by rw [hpc]; rfl) (by rw [hpc]; rfl) fun _ => .inr (by rw [hpc]; rfl)
  next deadline hpc =>
    cases h
    split
    · have hmoved : Inv (s.goto c (.woken deadline)) := hI.move (by rw [hpc]; rfl) (by rw [hpc]; rfl) nofun
      exact hmoved.eat (by simp [State.goto, Pc.committed])
    · exact hI.move (by rw [hpc]; rfl) (by rw [hpc]; rfl) fun _ => .inr (by rw [hpc]; rfl)
  next deadline hpc =>
    cases h
    have hmoved : Inv (s.goto c (.woken deadline)) := hI.move (by rw [hpc]; rfl) (by rw [hpc]; rfl) nofun
    exact hmoved.eat (by simp [State.goto, Pc.committed])
  -- The look after the park: nothing is known of the list until the section that registers again.
  next deadline hpc =>
    cases h
    split <;> (exact hI.move (by rw [hpc]; rfl) (by rw [hpc]; rfl) nofun)
  next deadline hpc =>
    cases h
    exact hI.relist hpc
  -- The sections after the loop.
  next hpc =>
    cases h
    refine hI.goto (fun hf => ?_) (fun d hd => .inl hd) (fun h => ?_) (fun d hd hmem => .inl ?_) (fun d _ hd => ?_)
      nofun
    · rw [hI.empty hf]
      rfl
    · rw [hpc] at h
      cases h
    · refine (mem_erase_of_ne ?_).mpr hmem
      rintro rfl
      rw [hpc] at hd
      cases hd
    · rw [hpc] at hd
      cases hd
  next hpc =>
    cases h
    refine hI.goto hI.empty (fun d hd => ?_) (fun _ => rfl) (fun d _ => Or.inl) (fun d _ hd => ?_) nofun
    · by_cases hdc : d = c
      · exact .inr ⟨hdc, rfl⟩
      · rw [update_of_ne hdc] at hd
        exact .inl hd
    · rw [hpc] at hd
      cases hd
  next hpc =>
    cases h
    refine hI.goto hI.empty (fun d hd => .inl hd) (fun _ => rfl) (fun d _ => Or.inl) (fun d _ hd => ?_) nofun
    rw [hpc] at hd
    cases hd
  -- The rest is of `set`: it collects the handles and wakes them.
  next q parkers got hpc =>
    cases h
    exact hI.collect hpc
  next got hpc =>
    cases h
    refine hI.goto hI.empty (fun d hd => .inl hd) (fun h => ?_) (fun d _ => Or.inl) (fun d _ hd => ?_) nofun
    · rw [hpc] at h
      cases h
    · rw [hpc] at hd
      simpa [Pc.toWake] using hd
  next q handles hpc =>
    cases h
    exact hI.wakeNext hpc
  next hpc =>
    cases h
    exact hI.move (by rw [hpc]; rfl) (by rw [hpc]; rfl) nofun
  next => cases h

theorem Inv.step (hI : Inv s) (hC : FlagStays s a) (h : CoEvent.step s a = some t) : Inv t := by
  cases a with
  | call c k =>
    simp only [CoEvent.step] at h
    split at h <;> cases h
    next hpc => exact hI.call hpc k
  | next c => exact hI.next hC h
  | elsewhere c =>
    simp only [CoEvent.step] at h
    split at h <;> cases h
    next hc => exact hI.eat (Bool.eq_false_iff.mpr hc)
  | poke c =>
    cases h
    exact hI.wake
  | tick d =>
    cases h
    exact ⟨hI.empty, hI.released, hI.reached⟩

theorem inv_of_reachableWith (h : (event C).ReachableWith FlagStays s) : Inv s :=
  h.invariant (fun _ hs => Inv.init hs) fun _ _ _ hI hC hs => hI.step hC hs

/-- If no waiter finds the flag cleared between its look and its test, whoever parks is in `_waiters` or has a wake.
-/
theorem waiters_reached (h : (event C).ReachableWith FlagStays s) :
    (s.flag = true → (∀ d, (s.pc d).toWake = []) → ∀ c deadline, s.pc c = .parked deadline → 0 < s.credit c) ∧
    (∀ c deadline, s.pc c = .parked deadline → c ∈ s.waiters ∨ 0 < s.credit c ∨ ∃ d, c ∈ (s.pc d).toWake) := by
  have hI := inv_of_reachableWith h
  have hreached : ∀ c deadline, s.pc c = .parked deadline → Reached Pc.toWake s.waiters s.credit s.pc c := by
    intro c deadline hc
    apply hI.reached
    rw [hc]
    rfl
  refine ⟨fun hf hw c deadline hc => ?_, hreached⟩
  refine (hreached c deadline hc).credit_pos ?_ hw
  rw [hI.empty hf]
  exact not_mem_nil

def clear : State (Fin 4) := ⟨false, [], fun _ => false, fun _ => 0, fun _ => .idle, 0⟩

/-- Call 0 waits, call 1 sets the event: call 0 is at its park with the wake pending. -/
theorem waiters_reached_oneSet :
    ∃ s, (event (Fin 4)).ReachableWith FlagStays s ∧ s.flag = true ∧ s.pc 0 = .parked none ∧ 0 < s.credit 0 := by
  obtain ⟨s, hr, hf, hpc, hw⟩ := (event (Fin 4)).reachesWith FlagStays
    (fun s => s.flag = true ∧ s.pc 0 = .parked none ∧ ∀ d, (s.pc d).toWake = [])
    [.call 0 (.wait none), .next 0, .next 0, .next 0, .next 0, .call 1 .set, .next 1, .next 1, .next 1]
    (s := clear) ⟨rfl, rfl, fun _ => rfl, fun _ => rfl⟩ (by decide +kernel)
  exact ⟨s, hr, hf, hpc, (waiters_reached hr).1 hf hw 0 none hpc⟩

/-- Call 0 reads the flag set; after a `clear` it parks again, in no list, and the next `set` does not reach it. -/
theorem set_misses_cleared_waiter :
    (∃ s, (event (Fin 4)).Reachable s ∧ s.flag = false ∧ s.pc 0 = .parked none ∧ 0 ∉ s.waiters ∧
      s.credit 0 = 0 ∧ ∀ d, (s.pc d).toWake = []) ∧
    ∃ s, (event (Fin 4)).Reachable s ∧ s.flag = true ∧ s.pc 0 = .parked none ∧ s.credit 0 = 0 ∧
      s.pc 3 = .returned .none ∧ ∀ d, (s.pc d).toWake = [] := by
  refine ⟨?_, ?_⟩
  · exact (event (Fin 4)).reaches (fun s => s.flag = false ∧ s.pc 0 = .parked none ∧ 0 ∉ s.waiters ∧ s.credit 0 = 0 ∧
        ∀ d, (s.pc d).toWake = [])
      [.call 0 (.wait none), .next 0, .next 0, .next 0, .next 0, .call 1 .set, .next 1, .next 1, .next 1, .next 1,
        .next 0, .next 0, .call 2 .clear, .next 0, .next 0]
      (s := clear) ⟨rfl, rfl, fun _ => rfl, fun _ => rfl⟩ (by decide +kernel)
  · exact (event (Fin 4)).reaches (fun s => s.flag = true ∧ s.pc 0 = .parked none ∧ s.credit 0 = 0 ∧
        s.pc 3 = .returned .none ∧ ∀ d, (s.pc d).toWake = [])
      [.call 0 (.wait none), .next 0, .next 0, .next 0, .next 0, .call 1 .set, .next 1, .next 1, .next 1, .next 1,
        .next 0, .next 0, .call 2 .clear, .next 0, .next 0, .call 3 .set, .next 3, .next 3]
      (s := clear) ⟨rfl, rfl, fun _ => rfl, fun _ => rfl⟩ (by decide +kernel)

end Runloom.CoEvent
