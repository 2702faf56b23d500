import Mathlib.Data.Fintype.Basic
import Runloom.IoUring.Steps

/-!
# Records and the functions that own them

A drainer stores `op->result` before it is done with the record, and the submitter's loop looks at nothing else. A
stray wake or a signal between the two lets the submitter return while the drainer still has the record in hand.
-/

namespace Runloom.IoUring

open Transition Linked List

variable {C D K H G M : Type*} [DecidableEq C] [DecidableEq D] [DecidableEq K] [DecidableEq H]
  [DecidableEq G] [DecidableEq M] {calls : C → Call H G M} {loopArmed : H → Bool}
  {s t : State C D K H G M} {c : C}

/-! ## Accesses -/

section

omit [DecidableEq C] [DecidableEq D] [DecidableEq K] [DecidableEq H] [DecidableEq G] [DecidableEq M]

theorem Inv.phase_of_returned (hI : Inv calls s) {out : Outcome} (h : s.call c = .returned out) :
    s.phase c = .unsubmitted ∨ ∃ v, s.phase c = .finished v := by
  have hown := (hI.own c).1
  rw [h] at hown
  rcases hown with h | ⟨v, hv, -⟩
  · exact .inl h.1
  · exact .inr ⟨v, hv⟩

theorem Inv.ne_returned_of_op (hI : Inv calls s) {d : D} (h : (s.drainer d).op = some c)
    (out : Outcome) : s.call c ≠ .returned out := by
  intro hpc
  have hd := (hI.queue.drains d).drainer_phase h
  rcases hI.phase_of_returned hpc with hph | ⟨v, hph⟩ <;> rw [hph] at hd <;> cases hd

theorem Inv.touched (hI : Inv calls s) {a : Action C D K H G M} (hc : c ∈ IoUring.touched s a)
    (out : Outcome) : s.call c ≠ .returned out := by
  cases a with
  | drain d =>
    simp only [IoUring.touched] at hc
    cases hpc : s.drainer d with
    | idle =>
      rw [hpc] at hc
      cases hc
    | walk r =>
      rw [hpc] at hc
      dsimp only at hc
      split at hc
      next x v rest hcq =>
        cases mem_singleton.mp hc
        intro hret
        have hq := (hI.queue.queued r c v (hcq ▸ mem_cons_self)).1
        rcases hI.phase_of_returned hret with hph | ⟨v, hph⟩ <;> rw [hph] at hq <;> cases hq
      next => cases hc
    | taken r x v | stored r x | waking r x =>
      rw [hpc] at hc
      cases mem_singleton.mp hc
      exact hI.ne_returned_of_op (by rw [hpc]; rfl) out
    | msTaken r m v b o =>
      rw [hpc] at hc
      exact CallPc.ne_returned_of_inMs (CallPc.inMs_of_onWaiters (hI.ms.waiting m c hc).2.2) out
    | msWalk r p =>
      rw [hpc] at hc
      cases p with
      | none => cases hc
      | some x =>
        cases mem_singleton.mp hc
        exact CallPc.ne_returned_of_inMs (hI.ms.walking d r _ c hpc .here) out
  | cancel k =>
    have hk : (s.canceller k).op = some c := Option.mem_toList.mp hc
    exact CallPc.ne_returned_of_inPark (hI.refs.held c (.inl ⟨k, hk⟩)) out
  | mail b =>
    have hb : (s.hub b).op = some c := Option.mem_toList.mp hc
    exact CallPc.ne_returned_of_inPark (hI.refs.held c (.inr (.inr ⟨b, hb⟩))) out
  | _ => cases hc

end

/-! ## Results -/

omit [DecidableEq C] [DecidableEq D] [DecidableEq K] [DecidableEq H] [DecidableEq G] [DecidableEq M] in
theorem Inv.outcome (hI : Inv calls s) {out : Outcome} (hms : (calls c).isMsRecv = false)
    (h : s.call c = .returned out) :
    out = .failed ∧ s.posted c = none ∨ ∃ v, s.posted c = some v ∧ OutcomeOf v (s.signaled c) out := by
  obtain ⟨hown, hres⟩ := hI.own c
  rw [h] at hown
  rcases hown with ⟨hph, hout⟩ | ⟨v, hph, hout⟩
  · rw [hph] at hres
    rcases hout with hout | hms'
    · exact .inl ⟨hout, hres⟩
    · rw [hms] at hms'
      cases hms'
  · rw [hph] at hres
    exact .inr ⟨v, hres.1, hout⟩

def Own (c : C) (a : Action C D K H G M) : Prop :=
  a = .call c true ∨ a = .resume c

/-- The call can return what the completion `v` gives, by steps of its own. -/
def CanReturn (calls : C → Call H G M) (loopArmed : H → Bool) (s : State C D K H G M) (c : C) (v : ℤ) : Prop :=
  ∃ as t out, (∀ a ∈ as, Own c a) ∧ (ioUring calls loopArmed).run s as = some t ∧
    t.call c = .returned out ∧ OutcomeOf v (t.signaled c) out

theorem CanReturn.cons {a : Action C D K H G M} {v : ℤ} (ha : Own c a)
    (hstep : step calls loopArmed s a = some t) (h : CanReturn calls loopArmed t c v) :
    CanReturn calls loopArmed s c v := by
  obtain ⟨as, u, out, has, hrun, hu⟩ := h
  refine ⟨a :: as, u, out, ?_, ?_, hu⟩
  · intro b hb
    rcases mem_cons.mp hb with rfl | hb
    · exact ha
    · exact has b hb
  · exact (System.run_cons hstep).trans hrun

theorem Inv.canReturn_of_step {v : ℤ} (hI : Inv calls s) (hC : ClearAt calls s c true (s.call c))
    (hstep : s.callStep (calls c) c true = some t)
    (h : Inv calls t → CanReturn calls loopArmed t c v) : CanReturn calls loopArmed s c v :=
  .cons (.inl rfl) hstep (h (hI.callStep hC hstep))

section Progress

variable {v : ℤ} (hI : Inv calls s) (hph : s.phase c = .finished v)

include hI hph

omit [DecidableEq C] [DecidableEq D] [DecidableEq K] [DecidableEq H] [DecidableEq G] [DecidableEq M] in
theorem Inv.result_of_finished : s.result c = v ∧ v ≠ int32Min := by
  have hres := (hI.own c).2
  rw [hph] at hres
  exact ⟨hres.2.1, ne_of_gt hres.2.2⟩

theorem canReturn_finish {waited : Bool} (hpc : s.call c = .finish waited) :
    CanReturn calls loopArmed s c v := by
  have hstep : step calls loopArmed s (.call c true) =
      some (s.goto c (.returned (.ofResult (s.result c)))) := by
    simp only [step, State.callStep, hpc]
  refine ⟨[.call c true], _, _, ?_, System.run_cons hstep, update_self .., ?_⟩
  · intro a ha
    exact .inl (mem_singleton.mp ha)
  · rw [(hI.result_of_finished hph).1]
    exact .inl rfl

theorem canReturn_interrupt (hpc : s.call c = .interrupt) : CanReturn calls loopArmed s c v := by
  have hown := (hI.own c).1
  rw [hpc] at hown
  obtain ⟨-, -, hneg, hsig⟩ := hown
  rw [(hI.result_of_finished hph).1] at hneg
  have hstep : step calls loopArmed s (.call c true) = some (s.goto c (.returned .interrupted)) := by
    simp only [step, State.callStep, hpc]
  refine ⟨[.call c true], _, _, ?_, System.run_cons hstep, update_self .., ?_⟩
  · intro a ha
    exact .inl (mem_singleton.mp ha)
  · exact .inr ⟨hsig, hneg, rfl⟩

theorem canReturn_signal (hpc : s.call c = .signal) : CanReturn calls loopArmed s c v := by
  have hC : ClearAt calls s c true (s.call c) := by
    rw [hpc]
    trivial
  by_cases hsig : s.signaled c = true ∧ s.result c < 0
  · refine hI.canReturn_of_step hC (t := s.goto c .interrupt) ?_ fun hI' =>
      canReturn_interrupt hI' hph (update_self ..)
    rw [State.callStep, hpc]
    simp only [if_pos hsig]
  · refine hI.canReturn_of_step hC (t := s.goto c (.finish true)) ?_ fun hI' =>
      canReturn_finish hI' hph (update_self ..)
    rw [State.callStep, hpc]
    simp only [if_neg hsig]

theorem canReturn_clear (hpc : s.call c = .clear) : CanReturn calls loopArmed s c v := by
  have hC : ClearAt calls s c true (s.call c) := by
    rw [hpc]
    trivial
  refine hI.canReturn_of_step hC (t := (s.setIouringOp (calls c) none).goto c .signal) ?_
    fun hI' => canReturn_signal hI' ?_ (update_self ..)
  · rw [State.callStep, hpc]
  · unfold State.setIouringOp
    split <;> exact hph

theorem canReturn_unlink (hpc : s.call c = .unlink) : CanReturn calls loopArmed s c v := by
  have hC : ClearAt calls s c true (s.call c) := by
    rw [hpc]
    trivial
  cases hhub : (calls c).hub.isSome with
  | true =>
    refine hI.canReturn_of_step hC (t := s.goto c .clear) ?_ fun hI' =>
      canReturn_clear hI' hph (update_self ..)
    rw [State.callStep, hpc]
    simp only [hhub, if_true]
  | false =>
    refine hI.canReturn_of_step hC (t := s.goto c .signal) ?_ fun hI' =>
      canReturn_signal hI' hph (update_self ..)
    rw [State.callStep, hpc]
    simp only [hhub, Bool.false_eq_true, if_false]

theorem canReturn_test (hpc : s.call c = .test) : CanReturn calls loopArmed s c v := by
  have hC : ClearAt calls s c true (s.call c) := by
    rw [hpc]
    trivial
  have hr : s.result c ≠ int32Min := by
    rw [(hI.result_of_finished hph).1]
    exact (hI.result_of_finished hph).2
  refine hI.canReturn_of_step hC (t := s.goto c .unlink) ?_ fun hI' =>
    canReturn_unlink hI' hph (update_self ..)
  rw [State.callStep, hpc]
  simp only [if_neg hr]

theorem canReturn_parked (hpc : s.call c = .parked) : CanReturn calls loopArmed s c v := by
  cases hloop : (calls c).isLoopIo with
  | true =>
    have hstep : s.resume (calls c) c = some (s.goto c (.finish true)) := by
      simp only [State.resume, hpc, hloop, if_true]
    exact .cons (.inr rfl) hstep (canReturn_finish (hI.resume hstep) hph (update_self ..))
  | false =>
    have hstep : s.resume (calls c) c = some (s.goto c .test) := by
      simp only [State.resume, hpc, hloop, Bool.false_eq_true, if_false]
    exact .cons (.inr rfl) hstep (canReturn_test (hI.resume hstep) hph (update_self ..))

theorem canReturn_link (hpc : s.call c = .link) : CanReturn calls loopArmed s c v := by
  have hC : ClearAt calls s c true (s.call c) := by
    rw [hpc]
    trivial
  refine hI.canReturn_of_step hC
    (t := { s with signaled := Function.update s.signaled c false }.goto c .parked) ?_
    fun hI' => canReturn_parked hI' hph (update_self ..)
  rw [State.callStep, hpc]

theorem canReturn_publish (hpc : s.call c = .publish) : CanReturn calls loopArmed s c v := by
  have hC : ClearAt calls s c true (s.call c) := by
    rw [hpc]
    trivial
  refine hI.canReturn_of_step hC (t := (s.setIouringOp (calls c) (some c)).goto c .link) ?_
    fun hI' => canReturn_link hI' ?_ (update_self ..)
  · rw [State.callStep, hpc]
  · unfold State.setIouringOp
    split <;> exact hph

theorem canReturn_cas (hpc : s.call c = .cas) : CanReturn calls loopArmed s c v := by
  have hown := (hI.own c).1
  rw [hpc, hph] at hown
  have hw : s.wait c = .done := hown.2
  have hC : ClearAt calls s c true (s.call c) := by
    rw [hpc]
    trivial
  refine hI.canReturn_of_step hC (t := s.goto c (.finish false)) ?_ fun hI' =>
    canReturn_finish hI' hph (update_self ..)
  rw [State.callStep, hpc]
  simp only [State.commitPark, hw, reduceCtorEq, if_false]

theorem canReturn_load (hpc : s.call c = .load) : CanReturn calls loopArmed s c v := by
  have hown := (hI.own c).1
  rw [hpc, hph] at hown
  have hw : s.wait c = .done := hown.2.2
  have hC : ClearAt calls s c true (s.call c) := by
    rw [hpc]
    trivial
  refine hI.canReturn_of_step hC (t := s.goto c (.finish false)) ?_ fun hI' =>
    canReturn_finish hI' hph (update_self ..)
  rw [State.callStep, hpc]
  simp only [hw, if_true]

theorem canReturn_threadTest (hpc : s.call c = .threadTest) : CanReturn calls loopArmed s c v := by
  have hC : ClearAt calls s c true (s.call c) := by
    rw [hpc]
    trivial
  have hr : s.result c ≠ int32Min := by
    rw [(hI.result_of_finished hph).1]
    exact (hI.result_of_finished hph).2
  refine hI.canReturn_of_step hC (t := s.goto c (.finish true)) ?_ fun hI' =>
    canReturn_finish hI' hph (update_self ..)
  rw [State.callStep, hpc]
  simp only [if_neg hr]

theorem canReturn_enter (hpc : s.call c = .enter) : CanReturn calls loopArmed s c v := by
  have hC : ClearAt calls s c true (s.call c) := by
    rw [hpc]
    exact rfl
  refine hI.canReturn_of_step hC (t := s.goto c .threadTest) ?_ fun hI' =>
    canReturn_threadTest hI' hph (update_self ..)
  rw [State.callStep, hpc]
  simp only [if_true]

theorem Inv.canReturn (hout : ∀ out, s.call c ≠ .returned out) :
    ((calls c).g.isSome = true → s.call c = .parked → s.woken c = true) ∧
      CanReturn calls loopArmed s c v := by
  have hown := (hI.own c).1
  constructor
  · intro hg hpc
    rw [hpc, hph] at hown
    exact hown.2 hg
  have hnot : s.phase c ≠ .unsubmitted := by
    rw [hph]
    exact nofun
  cases hpc : s.call c with
  | idle => exact absurd (hpc ▸ hown :) hnot
  | submit =>
    rw [hpc] at hown
    exact absurd hown.2.1 hnot
  | load => exact canReturn_load hI hph hpc
  | cas => exact canReturn_cas hI hph hpc
  | publish => exact canReturn_publish hI hph hpc
  | link => exact canReturn_link hI hph hpc
  | parked => exact canReturn_parked hI hph hpc
  | test => exact canReturn_test hI hph hpc
  | unlink => exact canReturn_unlink hI hph hpc
  | clear => exact canReturn_clear hI hph hpc
  | signal => exact canReturn_signal hI hph hpc
  | interrupt => exact canReturn_interrupt hI hph hpc
  | threadTest => exact canReturn_threadTest hI hph hpc
  | enter => exact canReturn_enter hI hph hpc
  | finish waited => exact canReturn_finish hI hph hpc
  | returned out => exact absurd hpc (hout out)
  | _ =>
    rw [hpc] at hown
    exact absurd hown.1 hnot

end Progress

/-! ## Lifetimes -/

/-- In every run of clear steps no record is touched after its function has returned, and each function returns its
own result. -/
theorem records_outlive_accesses (h : (ioUring calls loopArmed).ReachableWith (Clear calls) s) :
    (∀ a t, step calls loopArmed s a = some t → ∀ c ∈ touched s a, ∀ out, s.call c ≠ .returned out) ∧
    (∀ c out, (calls c).isMsRecv = false → s.call c = .returned out → out = .failed ∧ s.posted c = none ∨
        ∃ v, s.posted c = some v ∧ OutcomeOf v (s.signaled c) out) ∧
    ∀ c v, s.phase c = .finished v → (∀ out, s.call c ≠ .returned out) →
      ((calls c).g.isSome = true → s.call c = .parked → s.woken c = true) ∧
        CanReturn calls loopArmed s c v := by
  have hI := Inv.of_reachable h
  refine ⟨?_, ?_, ?_⟩
  · intro a t _ c hc out
    exact hI.touched hc out
  · intro c out hms hc
    exact hI.outcome hms hc
  · intro c v hph hout
    exact hI.canReturn hph hout

instance [Fintype D] [Fintype K] [Fintype H] : Decidable (Unheld s c) :=
  inferInstanceAs (Decidable (_ ∧ ¬((∃ _, _) ∨ (∃ _, _) ∨ ∃ _, _)))

/-- No multishot reader returns in the runs below. -/
noncomputable instance [Fintype D] [Fintype K] [Fintype H] (ok : Bool) :
    (pc : CallPc) → Decidable (ClearAt calls s c ok pc)
  | .submit => inferInstanceAs (Decidable (_ → _))
  | .enter => inferInstanceAs (Decidable (_ = _))
  | .finish true => inferInstanceAs (Decidable (_ ∧ _))
  | .interrupt => inferInstanceAs (Decidable (Unheld s c))
  | .msReturn _ => Classical.propDecidable _
  | .idle | .load | .cas | .publish | .link | .parked | .test | .unlink | .clear | .signal
  | .threadTest | .finish false | .returned _ | .msLock | .msLink | .msParked | .msResumed
  | .msRelock => .isTrue trivial

noncomputable instance [Fintype D] [Fintype K] [Fintype H] (a : Action C D K H G M) :
    Decidable (Clear calls s a) :=
  match a with
  | .call c ok => inferInstanceAs (Decidable (ClearAt calls s c ok (s.call c)))
  | .resume _ | .signal _ | .post _ _ | .msPost _ _ _ _ | .msClose _ | .enterDrain _ _ | .drain _
  | .cancelG _ _ | .cancel _ | .mail _ => .isTrue trivial

/-- One call, one drainer, one hub, one handle with its request in the kernel. -/
def quiet : State Unit Unit Unit Unit Unit Unit where
  phase _ := .unsubmitted
  posted _ := none
  cq _ := []
  walked _ := false
  result _ := 0
  wait _ := .inflight
  iouringOp _ := none
  signaled _ := false
  woken _ := false
  call _ := .idle
  drainer _ := .idle
  canceller _ := .idle
  mailbox _ := none
  hub _ := .idle
  handle _ := { ready := [], inflight := 0, err := 0, eof := false, closing := false, armed := true,
                waiters := [] }
  msLive _ := true
  next _ := none
  onList _ := false

abbrev solo (calls : Unit → Call Unit Unit Unit) (loopArmed : Bool) :
    System (State Unit Unit Unit Unit Unit Unit) (Action Unit Unit Unit Unit Unit Unit) :=
  ioUring calls fun _ => loopArmed

theorem quiet_init : Init quiet :=
  ⟨fun _ => rfl, fun _ => rfl, fun _ => rfl, fun _ => rfl, fun _ => rfl, fun _ => rfl, fun _ => rfl,
    fun _ => rfl, fun _ => rfl, fun _ => rfl, fun _ => rfl⟩

def parkAndPost : List (Action Unit Unit Unit Unit Unit Unit) :=
  [.call () true, .call () true, .call () true, .call () true, .call () true, .call () true, .post () 5]

def fileRead : Unit → Call Unit Unit Unit := fun _ => .iouringDo (.hub () ())

def drainThenReturn : List (Action Unit Unit Unit Unit Unit Unit) :=
  parkAndPost ++ [Action.enterDrain () .global, .drain (), .drain (), .drain (), .drain (), .resume (),
      .call () true, .call () true, .call () true, .call () true, .call () true]

theorem records_outlive_accesses_drainThenReturn : ∃ s, (solo fileRead false).ReachableWith (Clear fileRead) s ∧
      s.call () = .returned (.value 5) ∧
      ∃ v, s.posted () = some v ∧ OutcomeOf v (s.signaled ()) (.value 5) := by
  obtain ⟨s, hs, hp⟩ := (solo fileRead false).reachesWith (Clear fileRead) (fun s => s.call () = .returned (.value 5))
    drainThenReturn quiet_init (by decide +kernel)
  have hret : s.call () = .returned (.value 5) := hp
  refine ⟨s, hs, hret, ?_⟩
  rcases (records_outlive_accesses hs).2.1 () _ rfl hret with ⟨hf, -⟩ | h
  · cases hf
  · exact h

/-- The result is stored and a signal resumes the fiber, which finds it and returns. -/
def signalBeforeExchange : List (Action Unit Unit Unit Unit Unit Unit) :=
  parkAndPost ++ [Action.enterDrain () .global, .drain (), .drain (), .signal (), .resume (),
      .call () true, .call () true, .call () true, .call () true, .call () true]

/-- `runloom_iouring_do` has returned, and the drainer exchanges `op->wait` in the frame it left. -/
theorem drainer_exchanges_after_return : ∃ s t, (solo fileRead false).Reachable s ∧
      (solo fileRead false).step s (.drain ()) = some t ∧ () ∈ touched s (.drain ()) ∧
      s.call () = .returned (.value 5) := by
  obtain ⟨s, hs, hp⟩ := (solo fileRead false).reaches (fun s => ((solo fileRead false).step s (.drain ())).isSome &&
      decide (() ∈ touched s (.drain ()) ∧ s.call () = .returned (.value 5)))
    signalBeforeExchange quiet_init (by decide +kernel)
  obtain ⟨hstep, hp⟩ := Bool.and_eq_true_iff.mp hp
  obtain ⟨t, ht⟩ := Option.isSome_iff_exists.mp hstep
  exact ⟨s, t, hs, ht, of_decide_eq_true hp⟩

/-- The operation completes and returns while its address is in the mailbox. -/
def cancelThenReturn : List (Action Unit Unit Unit Unit Unit Unit) :=
  [.call () true, .call () true, .call () true, .call () true, .call () true, .call () true,
    .cancelG () (), .cancel (), .cancel (), .cancel (), .post () 5, .enterDrain () (.hub ()),
    .drain (), .drain (), .drain (), .drain (), .resume (), .call () true, .call () true,
    .call () true, .call () true, .call () true, .mail ()]

theorem mailbox_read_after_return : ∃ s, (solo (fun _ => .ringDo () ()) false).Reachable s ∧
      () ∈ touched s (.mail ()) ∧ s.call () = .returned (.value 5) := by
  exact (solo (fun _ => .ringDo () ()) false).reaches
    (fun s => () ∈ touched s (.mail ()) ∧ s.call () = .returned (.value 5))
    cancelThenReturn quiet_init (by decide +kernel)

/-- A stray wake ends the park of `loop_io`, and then its operation completes. -/
def strayWakeInLoop : List (Action Unit Unit Unit Unit Unit Unit) :=
  [.call () true, .call () true, .call () true, .resume (), .call () true, .post () 5, .enterDrain () (.hub ())]

theorem loopIo_completes_after_return : ∃ s, (solo (fun _ => .loopIo () ()) true).Reachable s ∧
      () ∈ touched s (.drain ()) ∧ s.call () = .returned (.ofResult int32Min) := by
  exact (solo (fun _ => .loopIo () ()) true).reaches
    (fun s => () ∈ touched s (.drain ()) ∧ s.call () = .returned (.ofResult int32Min))
    strayWakeInLoop quiet_init (by decide +kernel)

/-- A stray wake lets the reader leave before its detached node is read. -/
def readerLeavesChain : List (Action Unit Unit Unit Unit Unit Unit) :=
  [.call () true, .call () true, .call () true, .msPost () 3 true true, .enterDrain () .global,
    .drain (), .drain (), .resume (), .call () true, .call () true, .call () true]

theorem waiter_read_after_return : ∃ s, (solo (fun _ => .msRecv () 1) false).Reachable s ∧
      () ∈ touched s (.drain ()) ∧ s.call () = .returned (.value 1) := by
  exact (solo (fun _ => .msRecv () 1) false).reaches
    (fun s => () ∈ touched s (.drain ()) ∧ s.call () = .returned (.value 1))
    readerLeavesChain quiet_init (by decide +kernel)

end Runloom.IoUring
