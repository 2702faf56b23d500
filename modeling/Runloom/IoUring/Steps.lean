import Runloom.IoUring.Invariant

/-!
# Steps of the io_uring model

`Clear` names the steps by which a function leaves its record behind while someone may still have
its address.  Every other step, and these too where the address is in nobody's hand, keeps the
invariant.
-/

namespace Runloom.IoUring

open Transition Linked List
open State (setPhase drainTo)

variable {C D K H G M : Type*}

def Unheld (s : State C D K H G M) (c : C) : Prop :=
  (∀ d, (s.drainer d).op ≠ some c) ∧ ¬Held s.canceller s.mailbox s.hub c

/-- The steps by which a function leaves its record, with what must be over by then. -/
def ClearAt (calls : C → Call H G M) (s : State C D K H G M) (c : C) (ok : Bool) : CallPc → Prop
  | .submit => (calls c).ring = none → ok = true
  | .enter => ok = true
  | .finish true => Unheld s c ∧ ((calls c).isLoopIo = true → s.result c ≠ int32Min)
  | .interrupt => Unheld s c
  | .msReturn _ => ∀ d r p, s.drainer d = .msWalk r p → ¬Visits s.next p c
  | _ => True

def Clear (calls : C → Call H G M) (s : State C D K H G M) : Action C D K H G M → Prop
  | .call c ok => ClearAt calls s c ok (s.call c)
  | _ => True

variable {calls : C → Call H G M} {s t : State C D K H G M} {c : C}

/-! ## Steps of a call -/

/-- The call goes from `p` to `q` without leaving a stage in which others rely on it. -/
structure Follows (p q : CallPc) : Prop where
  published : p.published = true → q.published = true
  inPark : p.inPark = true → q.inPark = true
  onWaiters : p.onWaiters = true → q.onWaiters = true
  inMs : p.inMs = true → q.inMs = true

theorem own_of_self (hI : Inv calls s) (hc : CallAt calls t c)
    (ho : ∀ x, x ≠ c → CallAt calls s x → CallAt calls t x) (x : C) : CallAt calls t x := by
  by_cases hx : x = c
  · exact hx ▸ hc
  · exact ho x hx (hI.own x)

theorem Inv.not_held (hI : Inv calls s) (hpc : (s.call c).inPark = false) :
    ¬Held s.canceller s.mailbox s.hub c := by
  intro h
  rw [hI.refs.held c h] at hpc
  cases hpc

theorem Inv.finished_of_unheld (hI : Inv calls s) (hph : s.phase c ≠ .unsubmitted)
    (hr : s.result c ≠ int32Min) (hd : ∀ d, (s.drainer d).op ≠ some c) :
    ∃ v, s.phase c = .finished v ∧ s.result c = v := by
  rcases (hI.own c).2.of_ne hr with h | ⟨d, h⟩ | h
  · exact absurd h hph
  · exact absurd (hI.queue.holder c d h) (hd d)
  · exact h

variable {pc : CallPc}

theorem CallOk.completes {call : Call H G M} {ph ph' : Phase D} {w w' : WaitState}
    {r r' : ℤ} {signaled woken woken' : Bool} (h : CallOk call pc ph w r signaled woken)
    (hu : ph ≠ .unsubmitted) (hf : ∀ v, ph ≠ .finished v) (hr : r ≠ int32Min → r' = r)
    (hE : call.hub.isSome → Early ph w → Early ph' w')
    (hL : Late call ph w woken → Late call ph' w' woken') :
    CallOk call pc ph' w' r' signaled woken' := by
  cases pc with
  | idle => exact absurd h hu
  | submit => exact absurd h.2.1 hu
  | load => exact ⟨h.1, h.2.1, hE h.1 h.2.2⟩
  | cas => exact ⟨h.1, hE h.1 h.2⟩
  | publish => exact ⟨h.1, h.2.1, hL h.2.2⟩
  | link | test | threadTest | enter => exact ⟨h.1, hL h.2⟩
  | parked => exact hL h
  | unlink | clear | signal => exact ⟨h.1, hL h.2.1, hr h.2.2 ▸ h.2.2⟩
  | interrupt => exact ⟨hL h.1, hr h.2.1 ▸ h.2⟩
  | finish waited =>
    cases waited with
    | true => exact ⟨hL h.1, fun hl => hr (h.2 hl) ▸ h.2 hl⟩
    | false =>
      obtain ⟨v, hv⟩ := h
      exact absurd hv (hf v)
  | returned out =>
    rcases h with h | ⟨v, hv, -⟩
    · exact absurd h.1 hu
    · exact absurd hv (hf v)
  | msLock | msLink | msParked | msResumed | msRelock | msReturn out => exact absurd h.1 hu

variable [DecidableEq C]

section

variable (hI : Inv calls s)
include hI

theorem Inv.goto {q : CallPc}
    (hok : CallOk (calls c) q (s.phase c) (s.wait c) (s.result c) (s.signaled c) (s.woken c))
    (hf : Follows (s.call c) q) : Inv calls (s.goto c q) where
  own := by
    apply own_of_self hI (c := c)
    · refine ⟨?_, (hI.own c).2⟩
      simp only [State.goto, update_self]
      exact hok
    · intro x hx h
      simpa only [CallAt, State.goto, update_of_ne hx] using h
  queue := hI.queue
  refs := hI.refs.follow hf.published hf.inPark
  ms := hI.ms.follow hf.onWaiters hf.inMs

theorem Inv.leave {out : Outcome}
    (hok : CallOk (calls c) (.returned out) (s.phase c) (s.wait c) (s.result c) (s.signaled c)
      (s.woken c)) (hpub : (s.call c).published = false)
    (hheld : ¬Held s.canceller s.mailbox s.hub c) (hms : (s.call c).inMs = false) :
    Inv calls (s.goto c (.returned out)) where
  own := by
    apply own_of_self hI (c := c)
    · refine ⟨?_, (hI.own c).2⟩
      simp only [State.goto, update_self]
      exact hok
    · intro x hx h
      simpa only [CallAt, State.goto, update_of_ne hx] using h
  queue := hI.queue
  refs := by
    apply hI.refs.move
    · intro g hg
      rw [(hI.refs.published g c hg).2.2] at hpub
      cases hpub
    · exact fun h => absurd h hheld
  ms := by
    apply hI.ms.move
    · intro m hm
      rw [CallPc.inMs_of_onWaiters (hI.ms.waiting m c hm).2.2] at hms
      cases hms
    · intro d r p hd hv
      rw [hI.ms.walking d r p c hd hv] at hms
      cases hms

theorem Inv.start (hpc : s.call c = .idle) : Inv calls (s.start (calls c) c) := by
  have hph : s.phase c = .unsubmitted := by
    have h := (hI.own c).1
    rw [hpc] at h
    exact h
  have hpost : s.posted c = none := by
    have h := (hI.own c).2
    rw [hph] at h
    exact h
  have hfol : ∀ q, Follows (s.call c) q := by
    intro q
    rw [hpc]
    exact ⟨nofun, nofun, nofun, nofun⟩
  have hsingle : (calls c).isMsRecv = false →
      Inv calls ({ s with result := update s.result c int32Min, wait := update s.wait c .inflight }.goto c .submit) := by
    intro hms
    refine ⟨?_, hI.queue, hI.refs.follow (hfol _).published (hfol _).inPark,
      hI.ms.follow (hfol _).onWaiters (hfol _).inMs⟩
    apply own_of_self hI (c := c)
    · simp only [CallAt, State.goto, update_self, hph]
      exact ⟨⟨hms, rfl, rfl, rfl⟩, hpost⟩
    · intro x hx h
      simpa only [CallAt, State.goto, update_of_ne hx] using h
  unfold State.start
  cases hcall : calls c with
  | iouringDo caller | ringDo h g | loopIo h g => exact hsingle (by rw [hcall]; rfl)
  | msRecv m n =>
    have hms : (calls c).isMsRecv = true := by rw [hcall]; rfl
    dsimp only
    split
    · apply hI.goto _ (hfol _)
      exact .inl ⟨hph, .inr hms⟩
    · refine ⟨?_, hI.queue, hI.refs.follow (hfol _).published (hfol _).inPark, ?_⟩
      · apply own_of_self hI (c := c)
        · simp only [CallAt, State.goto, update_self, hph]
          exact ⟨⟨rfl, hms⟩, hpost⟩
        · intro x hx h
          simpa only [CallAt, State.goto, update_of_ne hx] using h
      · have hnot : ∀ m', c ∉ (s.handle m').waiters := by
          intro m' hm
          have h := (hI.ms.waiting m' c hm).2.2
          rw [hpc] at h
          cases h
        have hne : ∀ m' x, x ∈ (s.handle m').waiters → x ≠ c := fun m' x hx e => hnot m' (e ▸ hx)
        exact
          { spells := fun m' => (hI.ms.spells m').update_of_notMem (hnot m')
            nodup := hI.ms.nodup
            waiting := fun m' x hx => by
              have hxc := hne m' x hx
              obtain ⟨hon, hx', hpc'⟩ := hI.ms.waiting m' x hx
              simp only [State.goto, update_of_ne hxc]
              exact ⟨hon, hx', hpc'⟩
            walking := fun d r p x hd hv => by
              by_cases hxc : x = c
              · subst hxc
                simp only [State.goto, update_self]
                rfl
              · simp only [State.goto, update_of_ne hxc]
                rcases hv.of_link with hv | hv | hv
                · exact hI.ms.walking d r p x hd hv
                · exact absurd hv hxc
                · exact absurd hv not_visits_none }

theorem Inv.submitted (hpc : s.call c = .submit)
    (hok : CallOk (calls c) pc (.inflight : Phase D) .inflight int32Min (s.signaled c) (s.woken c)) :
    Inv calls ((s.setPhase c .inflight).goto c pc) := by
  obtain ⟨hown, hres⟩ := hI.own c
  rw [hpc] at hown
  obtain ⟨-, hph, hw, hr⟩ := hown
  rw [hph] at hres
  have hfol : Follows (s.call c) pc := by
    rw [hpc]
    exact ⟨nofun, nofun, nofun, nofun⟩
  refine ⟨?_, ?_, hI.refs.follow hfol.published hfol.inPark, hI.ms.follow hfol.onWaiters hfol.inMs⟩
  · apply own_of_self hI (c := c)
    · simp only [CallAt, State.goto, setPhase, update_self, hw, hr]
      exact ⟨hok, hres, rfl⟩
    · intro x hx h
      simpa only [CallAt, State.goto, setPhase, update_of_ne hx] using h
  · apply hI.queue.setPhase
    · rw [hph]
      exact nofun
    · rw [hph]
      rfl
    · rfl

theorem Inv.submit (hpc : s.call c = .submit) {ok : Bool}
    (hC : (calls c).ring = none → ok = true) (h : s.submit (calls c) c ok = some t) :
    Inv calls t := by
  obtain ⟨hms, hph, -, -⟩ : _ ∧ _ ∧ _ ∧ _ := by
    have h := (hI.own c).1
    rw [hpc] at h
    exact h
  unfold State.submit at h
  cases hcall : calls c with
  | iouringDo caller =>
    rw [hcall] at h hC
    cases hC rfl
    simp only [if_true, Option.some.injEq] at h
    subst h
    apply hI.submitted hpc
    rw [hcall]
    cases caller with
    | hub h g => exact ⟨rfl, rfl, rfl⟩
    | sched g | thread => exact ⟨rfl, nofun⟩
  | ringDo r g =>
    rw [hcall] at h
    cases ok with
    | true =>
      simp only [if_true, Option.some.injEq] at h
      subst h
      apply hI.submitted hpc
      rw [hcall]
      exact ⟨rfl, rfl, rfl⟩
    | false =>
      simp only [Bool.false_eq_true, if_false, Option.some.injEq] at h
      subst h
      apply hI.goto
      · exact .inl ⟨hph, .inl rfl⟩
      · rw [hpc]
        exact ⟨nofun, nofun, nofun, nofun⟩
  | loopIo r g =>
    rw [hcall] at h
    cases ok with
    | true =>
      simp only [if_true, Option.some.injEq] at h
      subst h
      apply hI.submitted hpc
      rw [hcall]
      exact ⟨rfl, rfl⟩
    | false => cases h
  | msRecv m n =>
    rw [hcall] at hms
    cases hms

theorem Inv.commitPark (hpc : s.call c = .cas) : Inv calls (s.commitPark (calls c) c) := by
  obtain ⟨hhub, hearly⟩ : _ ∧ _ := by
    have h := (hI.own c).1
    rw [hpc] at h
    exact h
  have hfol : ∀ q, Follows (s.call c) q := by
    intro q
    rw [hpc]
    exact ⟨nofun, nofun, nofun, nofun⟩
  unfold State.commitPark
  split
  next hw =>
    have hlate : Late (calls c) (s.phase c) .parked (s.woken c) := by
      cases hph : s.phase c with
      | unsubmitted | waking d v =>
        rw [hph] at hearly
        exact hearly.elim
      | finished v =>
        rw [hph, hw] at hearly
        cases hearly
      | _ => exact fun _ => rfl
    refine ⟨?_, hI.queue, hI.refs.follow (hfol _).published (hfol _).inPark,
      hI.ms.follow (hfol _).onWaiters (hfol _).inMs⟩
    apply own_of_self hI (c := c)
    · simp only [CallAt, State.goto, update_self]
      refine ⟨?_, (hI.own c).2⟩
      cases hloop : (calls c).isLoopIo with
      | true => exact hlate
      | false => exact ⟨hhub, hloop, hlate⟩
    · intro x hx h
      simpa only [CallAt, State.goto, update_of_ne hx] using h
  next hw =>
    apply hI.goto _ (hfol _)
    -- The exchange fails only once the drainer has put `DONE` there, its last access.
    cases hph : s.phase c with
    | unsubmitted | waking d v =>
      rw [hph] at hearly
      exact hearly.elim
    | finished v => exact ⟨v, rfl⟩
    | inflight | queued v | taken d v | stored d v =>
      rw [hph] at hearly
      exact absurd hearly hw

theorem Inv.finish (hpc : s.call c = .finish true)
    (hC : Unheld s c ∧ ((calls c).isLoopIo = true → s.result c ≠ int32Min)) :
    Inv calls (s.goto c (.returned (.ofResult (s.result c)))) := by
  obtain ⟨hlate, hr⟩ : _ ∧ _ := by
    have h := (hI.own c).1
    rw [hpc] at h
    exact h
  have hne : s.result c ≠ int32Min := by
    cases hloop : (calls c).isLoopIo with
    | true => exact hC.2 hloop
    | false => exact hr hloop
  obtain ⟨v, hph, hv⟩ := hI.finished_of_unheld hlate.ne_unsubmitted hne hC.1.1
  apply hI.leave _ _ hC.1.2
  · rw [hpc]
    rfl
  · exact .inr ⟨v, hph, .inl (by rw [hv])⟩
  · rw [hpc]
    rfl

theorem Inv.interrupt (hpc : s.call c = .interrupt) (hC : Unheld s c) :
    Inv calls (s.goto c (.returned .interrupted)) := by
  obtain ⟨hlate, hne, hneg, hsig⟩ : _ ∧ _ ∧ _ ∧ _ := by
    have h := (hI.own c).1
    rw [hpc] at h
    exact h
  obtain ⟨v, hph, hv⟩ := hI.finished_of_unheld hlate.ne_unsubmitted hne hC.1
  apply hI.leave _ _ hC.2
  · rw [hpc]
    rfl
  · exact .inr ⟨v, hph, .inr ⟨hsig, hv ▸ hneg, rfl⟩⟩
  · rw [hpc]
    rfl

theorem Inv.finishInline (hpc : s.call c = .finish false) :
    Inv calls (s.goto c (.returned (.ofResult (s.result c)))) := by
  obtain ⟨hown, hres⟩ := hI.own c
  rw [hpc] at hown
  obtain ⟨v, hph⟩ := hown
  rw [hph] at hres
  have hheld : ¬Held s.canceller s.mailbox s.hub c := by
    apply hI.not_held
    rw [hpc]
    rfl
  apply hI.leave _ _ hheld
  · rw [hpc]
    rfl
  · exact .inr ⟨v, hph, .inl (by rw [hres.2.1])⟩
  · rw [hpc]
    rfl

theorem Inv.setSignaled {b : Bool} (hok : CallOk (calls c) pc (s.phase c) (s.wait c) (s.result c) b (s.woken c))
    (hf : Follows (s.call c) pc) :
    Inv calls ({ s with signaled := update s.signaled c b }.goto c pc) where
  own := by
    apply own_of_self hI (c := c)
    · refine ⟨?_, (hI.own c).2⟩
      simp only [State.goto, update_self]
      exact hok
    · intro x hx h
      simpa only [CallAt, State.goto, update_of_ne hx] using h
  queue := hI.queue
  refs := hI.refs.follow hf.published hf.inPark
  ms := hI.ms.follow hf.onWaiters hf.inMs

theorem Inv.publish [DecidableEq G] (hpc : s.call c = .publish) :
    Inv calls ((s.setIouringOp (calls c) (some c)).goto c .link) := by
  obtain ⟨hhub, hloop, hlate⟩ : _ ∧ _ ∧ _ := by
    have h := (hI.own c).1
    rw [hpc] at h
    exact h
  have hfol : Follows (s.call c) .link := by
    rw [hpc]
    exact ⟨nofun, nofun, nofun, nofun⟩
  have hI' := hI.goto (c := c) (q := .link) ⟨hloop, hlate⟩ hfol
  unfold State.setIouringOp
  split
  next g hg =>
    refine ⟨hI'.own, hI'.queue, ⟨?_, hI'.refs.held⟩, hI'.ms⟩
    intro g' x hx
    simp only [State.goto] at hx ⊢
    by_cases hgg : g' = g
    · subst hgg
      rw [update_self] at hx
      cases hx
      rw [update_self]
      exact ⟨hg, by rw [Call.publishes, hhub, hloop]; rfl, rfl⟩
    · rw [update_of_ne hgg] at hx
      exact hI'.refs.published g' x hx
  next => exact hI'

theorem Inv.clear [DecidableEq G] (hpc : s.call c = .clear) :
    Inv calls ((s.setIouringOp (calls c) none).goto c .signal) := by
  have hok : CallOk (calls c) .signal (s.phase c) (s.wait c) (s.result c) (s.signaled c) (s.woken c) := by
    have h := (hI.own c).1
    rw [hpc] at h
    exact h
  have hms : MsOk calls s.next s.onList s.handle (update s.call c .signal) s.drainer := by
    apply hI.ms.follow
    · rw [hpc]
      exact nofun
    · rw [hpc]
      exact nofun
  have hown : ∀ x, CallAt calls (s.goto c .signal) x := by
    apply own_of_self hI (c := c)
    · refine ⟨?_, (hI.own c).2⟩
      simp only [State.goto, update_self]
      exact hok
    · intro x hx h
      simpa only [CallAt, State.goto, update_of_ne hx] using h
  unfold State.setIouringOp
  split
  next g hg =>
    -- The record stands under its own fiber only, so nothing else can publish it.
    have hrefs : RefsOk calls (update s.iouringOp g none) s.call s.canceller s.mailbox s.hub := by
      refine ⟨fun g' x hx => ?_, hI.refs.held⟩
      by_cases hgg : g' = g
      · subst hgg
        rw [update_self] at hx
        cases hx
      · rw [update_of_ne hgg] at hx
        exact hI.refs.published g' x hx
    refine ⟨hown, hI.queue, hrefs.move ?_ fun _ => rfl, hms⟩
    intro g' hg'
    have hgg : g' = g := by
      have h := (hrefs.published g' c hg').1
      rw [hg] at h
      exact (Option.some.inj h).symm
    subst hgg
    rw [update_self] at hg'
    cases hg'
  next hg =>
    refine ⟨hown, hI.queue, hI.refs.move ?_ fun _ => rfl, hms⟩
    intro g' hg'
    have h := (hI.refs.published g' c hg').1
    rw [hg] at h
    cases h

end

/-! ## Steps of a multishot reader -/

theorem CallOk.unsubmitted_of_inMs {call : Call H G M} {ph : Phase D} {w : WaitState}
    {r : ℤ} {signaled woken : Bool} (h : CallOk call pc ph w r signaled woken)
    (hpc : pc.inMs = true) : ph = .unsubmitted ∧ call.isMsRecv = true := by
  cases pc <;> first | exact h | cases hpc

theorem Inv.msOwn (hI : Inv calls s) (hpc : (s.call c).inMs = true) {q : CallPc}
    (hpc' : q.inMs = true) (hcall : t.call = update s.call c q)
    (hphase : t.phase = s.phase) (hpost : t.posted = s.posted) (hwait : t.wait = s.wait)
    (hresult : t.result = s.result) (hsig : t.signaled = s.signaled) (hwoken : t.woken = s.woken)
    (x : C) : CallAt calls t x := by
  unfold CallAt
  rw [hcall, hphase, hpost, hwait, hresult, hsig, hwoken]
  obtain ⟨hown, hres⟩ := hI.own x
  refine ⟨?_, hres⟩
  by_cases hx : x = c
  · subst hx
    rw [update_self]
    have hu := hown.unsubmitted_of_inMs hpc
    cases q <;> first | exact hu | cases hpc'
  · rw [update_of_ne hx]
    exact hown

theorem Inv.msRefs (hI : Inv calls s) (hpc : (s.call c).inMs = true) (pc : CallPc) :
    RefsOk calls s.iouringOp (update s.call c pc) s.canceller s.mailbox s.hub := by
  have hpark := CallPc.inPark_of_inMs hpc
  apply hI.refs.follow
  · intro h
    rw [CallPc.inPark_of_published h] at hpark
    cases hpark
  · intro h
    rw [h] at hpark
    cases hpark

theorem Inv.msReturn (hI : Inv calls s) {out : Outcome} (hpc : s.call c = .msReturn out)
    (hC : ∀ d r p, s.drainer d = .msWalk r p → ¬Visits s.next p c) :
    Inv calls (s.goto c (.returned out)) := by
  have hms : (s.call c).inMs = true := by
    rw [hpc]
    rfl
  have hu := (hI.own c).1.unsubmitted_of_inMs hms
  refine ⟨?_, hI.queue, hI.msRefs hms _, ?_⟩
  · apply own_of_self hI (c := c)
    · refine ⟨?_, (hI.own c).2⟩
      simp only [State.goto, update_self]
      exact .inl ⟨hu.1, .inr hu.2⟩
    · intro x hx h
      simpa only [CallAt, State.goto, update_of_ne hx] using h
  · apply hI.ms.move
    · intro m hm
      have h := (hI.ms.waiting m c hm).2.2
      rw [hpc] at h
      cases h
    · exact fun d r p hd hv => absurd hv (hC d r p hd)

section Multishot

variable [DecidableEq M]

section

variable (hI : Inv calls s)
include hI

theorem Inv.msDone {m : M} {n : ℕ} (hcall : calls c = .msRecv m n)
    (hpc : (s.call c).inMs = true) (out : Outcome) : Inv calls (s.msDone c m out) := by
  unfold State.msDone
  split
  next hon =>
    refine ⟨hI.msOwn hpc (q := .msReturn out) rfl rfl rfl rfl rfl rfl rfl rfl, hI.queue, hI.msRefs hpc _, ?_⟩
    have hspell := hI.ms.spells m
    have hdup := hI.ms.nodup m
    -- `c` is nowhere after the cut, and the lists of the other handles are as before.
    have hold : ∀ m' x, x ∈ (update s.handle m
        { s.handle m with waiters := (s.handle m).waiters.erase c } m').waiters →
        x ∈ (s.handle m').waiters ∧ x ≠ c := by
      intro m' x hx
      by_cases hm : m' = m
      · subst hm
        rw [update_self] at hx
        exact ⟨mem_of_mem_erase hx, (List.Nodup.mem_erase_iff hdup).mp hx |>.1⟩
      · rw [update_of_ne hm] at hx
        refine ⟨hx, ?_⟩
        rintro rfl
        exact hm (hI.ms.eq_of_mem hcall hx)
    refine ⟨?_, ?_, ?_, ?_⟩
    · intro m'
      by_cases hm : m' = m
      · subst hm
        simp only [State.goto, update_self]
        exact hspell.cut hdup
      · simp only [State.goto, update_of_ne hm]
        apply (hI.ms.spells m').congr
        intro z hz
        apply cut_of_notMem
        intro hzm
        obtain ⟨n', hn⟩ := (hI.ms.waiting m' z hz).2.1
        exact hm (hI.ms.eq_of_mem hn hzm).symm
    · intro m'
      by_cases hm : m' = m
      · subst hm
        simp only [State.goto, update_self]
        exact hdup.erase c
      · simp only [State.goto, update_of_ne hm]
        exact hI.ms.nodup m'
    · intro m' x hx
      obtain ⟨hx, hxc⟩ := hold m' x hx
      obtain ⟨hxon, hxcall, hxpc⟩ := hI.ms.waiting m' x hx
      simp only [State.goto, update_of_ne hxc]
      exact ⟨hxon, hxcall, hxpc⟩
    · intro d r p x hd hv
      have hms := hI.ms.walking d r p x hd (hv.of_cut hspell)
      simp only [State.goto]
      by_cases hxc : x = c
      · subst hxc
        rw [update_self]
        rfl
      · rw [update_of_ne hxc]
        exact hms
  next hon =>
    refine ⟨hI.msOwn hpc (q := .msReturn out) rfl rfl rfl rfl rfl rfl rfl rfl, hI.queue, hI.msRefs hpc _, ?_⟩
    apply hI.ms.move
    · intro m' hm
      exact absurd (hI.ms.waiting m' c hm).1 hon
    · exact fun _ _ _ _ _ => rfl

theorem Inv.msWait {m : M} {n : ℕ} (hcall : calls c = .msRecv m n)
    (hpc : (s.call c).inMs = true) : Inv calls (s.msWait c m) := by
  unfold State.msWait
  dsimp only
  split
  next hon =>
    refine ⟨hI.msOwn hpc (q := .msLink) rfl rfl rfl rfl rfl rfl rfl rfl, hI.queue, hI.msRefs hpc _, ?_⟩
    apply MsOk.move
    · exact hI.ms.setHandle rfl
    · exact fun _ _ => rfl
    · exact fun _ _ _ _ _ => rfl
  next hon =>
    refine ⟨hI.msOwn hpc (q := .msLink) rfl rfl rfl rfl rfl rfl rfl rfl, hI.queue, hI.msRefs hpc _, ?_⟩
    have hnot : ∀ m', c ∉ (s.handle m').waiters := fun m' hm => hon (hI.ms.waiting m' c hm).1
    have hspell := hI.ms.spells m
    refine ⟨?_, ?_, ?_, ?_⟩
    · intro m'
      by_cases hm : m' = m
      · subst hm
        simp only [State.goto, update_self]
        exact hspell.push (hnot m')
      · simp only [State.goto, update_of_ne hm]
        exact (hI.ms.spells m').update_of_notMem (hnot m')
    · intro m'
      by_cases hm : m' = m
      · subst hm
        simp only [State.goto, update_self]
        exact nodup_cons.mpr ⟨hnot m', hI.ms.nodup m'⟩
      · simp only [State.goto, update_of_ne hm]
        exact hI.ms.nodup m'
    · intro m' x hx
      by_cases hxc : x = c
      · subst hxc
        have hm : m' = m := by
          by_contra hm
          simp only [State.goto, update_of_ne hm] at hx
          exact hnot m' hx
        subst hm
        simp only [State.goto, update_self, true_and]
        exact ⟨⟨n, hcall⟩, rfl⟩
      · have hold : x ∈ (s.handle m').waiters := by
          by_cases hm : m' = m
          · subst hm
            simp only [State.goto, update_self] at hx
            exact (mem_cons.mp hx).resolve_left hxc
          · simpa only [State.goto, update_of_ne hm] using hx
        simp only [State.goto, update_of_ne hxc]
        exact hI.ms.waiting m' x hold
    · intro d r p x hd hv
      simp only [State.goto]
      by_cases hxc : x = c
      · subst hxc
        rw [update_self]
        rfl
      · rw [update_of_ne hxc]
        -- A walker that holds `c` goes on into the list `c` was pushed on.
        rcases hv.of_link with hv | hv | hv
        · exact hI.ms.walking d r p x hd hv
        · exact absurd hv hxc
        · exact CallPc.inMs_of_onWaiters (hI.ms.waiting m x (hspell.mem_of_visits hv)).2.2

theorem Inv.msBody {m : M} {n : ℕ} (hcall : calls c = .msRecv m n)
    (hpc : (s.call c).inMs = true) (ok : Bool) : Inv calls (s.msBody c m n ok) := by
  unfold State.msBody
  dsimp only
  split
  · refine Inv.msDone ?_ hcall ?_ _
    · exact hI.setHandle rfl
    · exact hpc
  split
  · exact hI.msDone hcall hpc _
  split
  · exact hI.msDone hcall hpc _
  split
  · exact hI.msDone hcall hpc _
  split
  · exact hI.msDone hcall hpc _
  · exact hI.msWait hcall hpc

theorem Inv.msStep (hpc : (s.call c).inMs = true) {relock ok : Bool}
    (h : s.msStep (calls c) c relock ok = some t) : Inv calls t := by
  unfold State.msStep at h
  cases hcall : calls c with
  | msRecv m n =>
    rw [hcall] at h
    dsimp only at h
    split at h <;> cases h
    · exact hI.msDone hcall hpc _
    · exact hI.msBody hcall hpc ok
  | _ =>
    rw [hcall] at h
    cases h

end

end Multishot

theorem Inv.callStep [DecidableEq G] [DecidableEq M] (hI : Inv calls s) {ok : Bool}
    (hC : Clear calls s (.call c ok : Action C D K H G M))
    (h : s.callStep (calls c) c ok = some t) : Inv calls t := by
  have hown := (hI.own c).1
  have hfol : ∀ p q, s.call c = p → Follows p q → Follows (s.call c) q := fun p q e hf => e ▸ hf
  unfold State.callStep at h
  change ClearAt calls s c ok (s.call c) at hC
  cases hpc : s.call c with
  | idle =>
    rw [hpc] at h
    cases h
    exact hI.start hpc
  | submit =>
    rw [hpc] at h hC
    exact hI.submit hpc hC h
  | load =>
    rw [hpc] at h hown
    cases h
    obtain ⟨hhub, hloop, hearly⟩ := hown
    split
    next hw =>
      apply hI.goto _ (hfol _ _ hpc ⟨nofun, nofun, nofun, nofun⟩)
      cases hph : s.phase c with
      | finished v => exact ⟨v, rfl⟩
      | unsubmitted | waking d v => exact (hph ▸ hearly :).elim
      | inflight | queued v | taken d v | stored d v => exact nomatch hw.symm.trans (hph ▸ hearly :)
    next => exact hI.goto ⟨hhub, hearly⟩ (hfol _ _ hpc ⟨nofun, nofun, nofun, nofun⟩)
  | cas =>
    rw [hpc] at h
    cases h
    exact hI.commitPark hpc
  | publish =>
    rw [hpc] at h
    cases h
    exact hI.publish hpc
  | link =>
    rw [hpc] at h hown
    cases h
    apply hI.setSignaled _ (hfol _ _ hpc ⟨fun _ => rfl, fun _ => rfl, nofun, nofun⟩)
    exact hown.2
  | parked | returned out | msParked =>
    rw [hpc] at h
    cases h
  | test =>
    rw [hpc] at h hown
    cases h
    split
    next =>
      exact hI.goto hown.2 (hfol _ _ hpc ⟨fun _ => rfl, fun _ => rfl, nofun, nofun⟩)
    next hr =>
      apply hI.goto _ (hfol _ _ hpc ⟨fun _ => rfl, fun _ => rfl, nofun, nofun⟩)
      exact ⟨hown.1, hown.2, hr⟩
  | unlink =>
    rw [hpc] at h hown
    cases h
    split
    next => exact hI.goto hown (hfol _ _ hpc ⟨fun _ => rfl, fun _ => rfl, nofun, nofun⟩)
    next hhub =>
      -- Without a hub the record was not published.
      refine ⟨?_, hI.queue, ?_, ?_⟩
      · apply own_of_self hI (c := c)
        · refine ⟨?_, (hI.own c).2⟩
          simp only [State.goto, update_self]
          exact hown
        · intro x hx h
          simpa only [CallAt, State.goto, update_of_ne hx] using h
      · refine hI.refs.move (fun g hg => ?_) fun _ => rfl
        have hp := (hI.refs.published g c hg).2.1
        exact absurd (Bool.and_eq_true_iff.mp hp).1 hhub
      · exact hI.ms.follow (by rw [hpc]; exact nofun) (by rw [hpc]; exact nofun)
  | clear =>
    rw [hpc] at h
    cases h
    exact hI.clear hpc
  | signal =>
    rw [hpc] at h hown
    cases h
    obtain ⟨-, hlate, hr⟩ := hown
    split
    next hsig =>
      apply hI.goto _ (hfol _ _ hpc ⟨nofun, fun _ => rfl, nofun, nofun⟩)
      exact ⟨hlate, hr, hsig.2, hsig.1⟩
    next =>
      apply hI.goto _ (hfol _ _ hpc ⟨nofun, fun _ => rfl, nofun, nofun⟩)
      exact ⟨hlate, fun _ => hr⟩
  | interrupt =>
    rw [hpc] at h hC
    cases h
    exact hI.interrupt hpc hC
  | threadTest =>
    rw [hpc] at h hown
    cases h
    split
    next => exact hI.goto hown (hfol _ _ hpc ⟨nofun, nofun, nofun, nofun⟩)
    next hr =>
      apply hI.goto _ (hfol _ _ hpc ⟨nofun, nofun, nofun, nofun⟩)
      exact ⟨hown.2, fun _ => hr⟩
  | enter =>
    rw [hpc] at h hown hC
    cases h
    cases hC
    exact hI.goto hown (hfol _ _ hpc ⟨nofun, nofun, nofun, nofun⟩)
  | finish waited =>
    rw [hpc] at h hC
    cases h
    cases waited with
    | true => exact hI.finish hpc hC
    | false => exact hI.finishInline hpc
  | msLock | msRelock =>
    rw [hpc] at h
    exact hI.msStep (by rw [hpc]; rfl) h
  | msLink =>
    rw [hpc] at h hown
    cases h
    exact hI.setSignaled hown (hfol _ _ hpc ⟨nofun, nofun, fun _ => rfl, fun _ => rfl⟩)
  | msResumed =>
    rw [hpc] at h hown
    cases h
    exact hI.goto hown (hfol _ _ hpc ⟨nofun, nofun, fun _ => rfl, fun _ => rfl⟩)
  | msReturn out =>
    rw [hpc] at h hC
    cases h
    exact hI.msReturn hpc hC

theorem Inv.resume (hI : Inv calls s) (h : s.resume (calls c) c = some t) : Inv calls t := by
  have hown := (hI.own c).1
  unfold State.resume at h
  split at h <;> cases h
  next hpc =>
    rw [hpc] at hown
    cases hloop : (calls c).isLoopIo with
    | true =>
      refine ⟨?_, hI.queue, ?_, ?_⟩
      · apply own_of_self hI (c := c)
        · refine ⟨?_, (hI.own c).2⟩
          simp only [State.goto, update_self]
          exact ⟨hown, fun h => nomatch hloop.symm.trans h⟩
        · intro x hx h
          simpa only [CallAt, State.goto, update_of_ne hx] using h
      · refine hI.refs.move (fun g hg => ?_) fun _ => rfl
        have hp := (hI.refs.published g c hg).2.1
        rw [Call.publishes, hloop, Bool.not_true, Bool.and_false] at hp
        cases hp
      · exact hI.ms.follow (by rw [hpc]; exact nofun) (by rw [hpc]; exact nofun)
    | false =>
      apply hI.goto
      · exact ⟨hloop, hown⟩
      · rw [hpc]
        exact ⟨fun _ => rfl, fun _ => rfl, nofun, nofun⟩
  next hpc =>
    rw [hpc] at hown
    refine hI.goto (q := .msResumed) hown ?_
    rw [hpc]
    exact ⟨nofun, nofun, fun _ => rfl, fun _ => rfl⟩

theorem Inv.signal (hI : Inv calls s) (hpc : (s.call c).sigLinked (calls c) = true) :
    Inv calls { s with signaled := update s.signaled c true } where
  own := by
    apply own_of_self hI (c := c)
    · obtain ⟨hown, hres⟩ := hI.own c
      refine ⟨?_, hres⟩
      simp only [update_self]
      cases hp : s.call c <;> rw [hp] at hown hpc <;> first | exact hown | cases hpc
    · intro x hx h
      simpa only [CallAt, update_of_ne hx] using h
  queue := hI.queue
  refs := hI.refs
  ms := hI.ms

/-! ## Steps of the kernel and of the drainers -/

variable {res : ℤ}

theorem Inv.post [DecidableEq H] (hI : Inv calls s) (hph : s.phase c = .inflight) (hmin : int32Min < res) :
    Inv calls ({ s with cq := update s.cq (calls c).cq (s.cq (calls c).cq ++ [Cqe.single c res]),
                        posted := update s.posted c (some res) }.setPhase c
                  (.queued res)) where
  own := by
    apply own_of_self hI (c := c)
    · obtain ⟨hown, hres⟩ := hI.own c
      rw [hph] at hown hres
      simp only [CallAt, setPhase, update_self]
      exact ⟨hown.completes nofun nofun (fun _ => rfl) (fun _ h => h) fun h => h, rfl, hres.2, hmin⟩
    · intro x hx h
      simpa only [CallAt, setPhase, update_of_ne hx] using h
  queue := hI.queue.post hph
  refs := hI.refs
  ms := hI.ms

variable {r : Ring H} {d : D}

section

variable (hI : Inv calls s)
include hI

theorem Inv.take [DecidableEq D] [DecidableEq H] {rest : List (Cqe C M)}
    (hpc : s.drainer d = .walk r) (hcq : s.cq r = .single c res :: rest) :
    Inv calls (({ s with cq := update s.cq r rest }.setPhase c (.taken d res)).drainTo d (.taken r c res)) where
  own := by
    have hph := (hI.queue.queued r c res (hcq ▸ mem_cons_self)).1
    apply own_of_self hI (c := c)
    · obtain ⟨hown, hres⟩ := hI.own c
      rw [hph] at hown hres
      simp only [CallAt, setPhase, drainTo, update_self]
      exact ⟨hown.completes nofun nofun (fun _ => rfl) (fun _ h => h) fun h => h, hres⟩
    · intro x hx h
      simpa only [CallAt, setPhase, drainTo, update_of_ne hx] using h
  queue := by
    apply hI.queue.take hcq
    rw [hpc]
    rfl
  refs := hI.refs
  ms := hI.ms.drain nofun

theorem Inv.store [DecidableEq D]     (hpc : s.drainer d = .taken r c res) :
    Inv calls (({ s with result := update s.result c res }.setPhase c
      (.stored d res)).drainTo d (.stored r c)) where
  own := by
    have hph : s.phase c = .taken d res := by
      have h := hI.queue.drains d
      rw [hpc] at h
      exact h
    apply own_of_self hI (c := c)
    · obtain ⟨hown, hres⟩ := hI.own c
      rw [hph] at hown hres
      simp only [CallAt, setPhase, drainTo, update_self]
      refine ⟨hown.completes nofun nofun ?_ (fun _ h => h) fun h => h, hres.1, rfl, hres.2.2⟩
      exact fun h => absurd hres.2.1 h
    · intro x hx h
      simpa only [CallAt, setPhase, drainTo, update_of_ne hx] using h
  queue := by
    apply hI.queue.advance
    · rw [hpc]
      rfl
    · exact ⟨res, update_self ..⟩
    · exact .inl ⟨rfl, rfl⟩
  refs := hI.refs
  ms := hI.ms.drain nofun

/-- The drainer's exchange of `op->wait`, or without a hub its look at `op->hub`. -/
theorem Inv.handshake [DecidableEq D] [DecidableEq H] [DecidableEq M]     (hpc : s.drainer d = .stored r c) (h : s.drainStep calls d = some t) : Inv calls t := by
  obtain ⟨v, hph⟩ : ∃ v, s.phase c = .stored d v := by
    have h := hI.queue.drains d
    rw [hpc] at h
    exact h
  obtain ⟨hown, hres⟩ := hI.own c
  rw [hph] at hown hres
  have hop : (s.drainer d).op = some c := by
    rw [hpc]
    rfl
  unfold State.drainStep at h
  rw [hpc] at h
  cases hhub : (calls c).hub with
  | none =>
    simp only [hhub, Option.some.injEq] at h
    subst h
    refine ⟨?_, ?_, hI.refs, hI.ms.drain nofun⟩
    · apply own_of_self hI (c := c)
      · simp only [CallAt, setPhase, drainTo, update_self]
        refine ⟨hown.completes nofun nofun (fun _ => rfl) ?_ ?_, hres.2.1 ▸ hres.1, rfl, hres.2.1 ▸ hres.2.2⟩
        · intro hsome
          rw [hhub] at hsome
          cases hsome
        · intro _ hsome
          rw [hhub] at hsome
          cases hsome
      · intro x hx h
        simpa only [CallAt, setPhase, drainTo, update_of_ne hx] using h
    · exact hI.queue.advance hop ⟨s.result c, update_self ..⟩ (.inl ⟨rfl, rfl⟩)
  | some hb =>
    have hsome : (calls c).hub.isSome = true := by
      rw [hhub]
      rfl
    simp only [hhub] at h
    split at h <;> cases h
    next hw =>
      refine ⟨?_, ?_, hI.refs, hI.ms.drain nofun⟩
      · apply own_of_self hI (c := c)
        · simp only [CallAt, setPhase, drainTo, update_self]
          refine ⟨hown.completes nofun nofun (fun _ => rfl) ?_ fun _ _ => rfl,
            hres.2.1 ▸ hres.1, rfl, hres.2.1 ▸ hres.2.2⟩
          exact fun _ he => nomatch hw.symm.trans he
        · intro x hx h
          simpa only [CallAt, setPhase, drainTo, update_of_ne hx] using h
      · exact hI.queue.advance hop ⟨s.result c, update_self ..⟩ (.inl ⟨rfl, rfl⟩)
    next hw =>
      refine ⟨?_, ?_, hI.refs, hI.ms.drain nofun⟩
      · apply own_of_self hI (c := c)
        · simp only [CallAt, setPhase, drainTo, update_self]
          refine ⟨hown.completes nofun nofun (fun _ => rfl) (fun _ _ => rfl) ?_,
            hres.2.1 ▸ hres.1, rfl, hres.2.1 ▸ hres.2.2⟩
          exact fun hl => absurd (hl hsome) hw
        · intro x hx h
          simpa only [CallAt, setPhase, drainTo, update_of_ne hx] using h
      · exact hI.queue.advance hop trivial (.inr ⟨rfl, rfl⟩)

theorem Inv.wake [DecidableEq D] (hpc : s.drainer d = .waking r c) :
    Inv calls (({ s with woken := update s.woken c (s.woken c || (calls c).g.isSome)
      }.setPhase c (.finished (s.result c))).drainTo d (.walk r)) where
  own := by
    obtain ⟨v, hph⟩ : ∃ v, s.phase c = .waking d v := by
      have h := hI.queue.drains d
      rw [hpc] at h
      exact h
    obtain ⟨hown, hres⟩ := hI.own c
    rw [hph] at hown hres
    apply own_of_self hI (c := c)
    · simp only [CallAt, setPhase, drainTo, update_self]
      refine ⟨hown.completes nofun nofun (fun _ => rfl) (fun _ h => h.elim) ?_,
        hres.2.1 ▸ hres.1, rfl, hres.2.1 ▸ hres.2.2⟩
      intro hl
      refine ⟨hl, fun hg => ?_⟩
      rw [hg, Bool.or_true]
    · intro x hx h
      simpa only [CallAt, setPhase, drainTo, update_of_ne hx] using h
  queue := by
    apply hI.queue.advance
    · rw [hpc]
      rfl
    · trivial
    · exact .inr ⟨rfl, rfl⟩
  refs := hI.refs
  ms := hI.ms.drain nofun

/-- `ms_on_cqe` detaches the waiters; their nodes are now on the drainer's chain. -/
theorem Inv.detach [DecidableEq D] [DecidableEq M] {m : M}
    {buffer more : Bool} (hpc : s.drainer d = .msTaken r m res buffer more) :
    Inv calls (({ s with onList := fun c => s.onList c && !decide (c ∈ (s.handle m).waiters)
      }.setHandle m ((s.handle m).onCqe res buffer more)).drainTo d
      (.msWalk r (s.handle m).waiters.head?)) where
  own := hI.own
  queue := by
    apply hI.queue.drain
    · rw [hpc]
      rfl
    · rfl
  refs := hI.refs
  ms := by
    have hmem : ∀ m' x, x ∈ (update s.handle m
        ((s.handle m).onCqe res buffer more) m').waiters → m' ≠ m ∧ x ∈ (s.handle m').waiters := by
      intro m' x hx
      by_cases hm : m' = m
      · subst hm
        rw [update_self] at hx
        cases hx
      · rw [update_of_ne hm] at hx
        exact ⟨hm, hx⟩
    have hlist : ∀ m', (update s.handle m ((s.handle m).onCqe res buffer more) m').waiters =
        [] ∨ (update s.handle m ((s.handle m).onCqe res buffer more) m').waiters = (s.handle m').waiters := by
      intro m'
      by_cases hm : m' = m
      · subst hm
        rw [update_self]
        exact .inl rfl
      · rw [update_of_ne hm]
        exact .inr rfl
    refine ⟨?_, ?_, ?_, ?_⟩
    · intro m'
      simp only [drainTo, State.setHandle]
      rcases hlist m' with h | h
      · rw [h]
        trivial
      · rw [h]
        exact hI.ms.spells m'
    · intro m'
      simp only [drainTo, State.setHandle]
      rcases hlist m' with h | h
      · rw [h]
        exact nodup_nil
      · rw [h]
        exact hI.ms.nodup m'
    · intro m' x hx
      obtain ⟨hm, hx⟩ := hmem m' x hx
      obtain ⟨hon, ⟨n, hcall⟩, hpc⟩ := hI.ms.waiting m' x hx
      refine ⟨?_, ⟨n, hcall⟩, hpc⟩
      have hnot : x ∉ (s.handle m).waiters := fun h => hm (hI.ms.eq_of_mem hcall h).symm
      simp only [drainTo, State.setHandle, hon, hnot, decide_false, Bool.not_false, Bool.and_true]
    · intro e r' p x he hv
      by_cases hed : e = d
      · subst hed
        simp only [drainTo, update_self, DrainPc.msWalk.injEq] at he
        obtain ⟨-, rfl⟩ := he
        have hx := (hI.ms.spells m).mem_of_visits hv
        exact CallPc.inMs_of_onWaiters (hI.ms.waiting m x hx).2.2
      · simp only [drainTo, update_of_ne hed] at he
        exact hI.ms.walking e r' p x he hv

theorem Inv.msWake [DecidableEq D]     (hpc : s.drainer d = .msWalk r (some c)) :
    Inv calls ({ s with woken := update s.woken c true }.drainTo d (.msWalk r (s.next c))) where
  own := by
    have hu := (hI.own c).1.unsubmitted_of_inMs (hI.ms.walking d r _ c hpc .here)
    apply own_of_self hI (c := c)
    · obtain ⟨hown, hres⟩ := hI.own c
      refine ⟨?_, hres⟩
      simp only [drainTo, update_self]
      have hms := hI.ms.walking d r _ c hpc .here
      cases hp : s.call c <;> rw [hp] at hown hms <;> first | exact hown | cases hms
    · intro x hx h
      simpa only [CallAt, drainTo, update_of_ne hx] using h
  queue := by
    apply hI.queue.drain
    · rw [hpc]
      rfl
    · rfl
  refs := hI.refs
  ms := by
    refine ⟨hI.ms.spells, hI.ms.nodup, hI.ms.waiting, ?_⟩
    intro e r' p x he hv
    by_cases hed : e = d
    · subst hed
      simp only [drainTo, update_self, DrainPc.msWalk.injEq] at he
      obtain ⟨-, rfl⟩ := he
      exact hI.ms.walking e r _ x hpc (.there hv)
    · simp only [drainTo, update_of_ne hed] at he
      exact hI.ms.walking e r' p x he hv

theorem Inv.drainStep [DecidableEq D] [DecidableEq H] [DecidableEq M]
    (h : s.drainStep calls d = some t) : Inv calls t := by
  cases hpc : s.drainer d with
  | idle =>
    rw [State.drainStep, hpc] at h
    cases h
  | walk r =>
    have hop : (s.drainer d).op = none := by
      rw [hpc]
      rfl
    rw [State.drainStep, hpc] at h
    dsimp only at h
    split at h <;> cases h
    next => exact ⟨hI.own, hI.queue.drain hop rfl, hI.refs, hI.ms.drain nofun⟩
    next c res rest hcq => exact hI.take hpc hcq
    next m res buffer more rest hcq =>
      refine ⟨hI.own, QueueOk.drain ?_ hop rfl, hI.refs, hI.ms.drain nofun⟩
      apply hI.queue.setCq
      · intro c v hc
        rw [hcq]
        exact mem_cons_of_mem _ hc
      · rw [hcq]
        rfl
  | taken r c res =>
    rw [State.drainStep, hpc] at h
    cases h
    exact hI.store hpc
  | stored r c => exact hI.handshake hpc h
  | waking r c =>
    rw [State.drainStep, hpc] at h
    cases h
    exact hI.wake hpc
  | msTaken r m res buffer more =>
    rw [State.drainStep, hpc] at h
    cases h
    exact hI.detach hpc
  | msWalk r p =>
    rw [State.drainStep, hpc] at h
    cases p with
    | none =>
      cases h
      refine ⟨hI.own, hI.queue.drain ?_ rfl, hI.refs, hI.ms.drain nofun⟩
      rw [hpc]
      rfl
    | some c =>
      cases h
      exact hI.msWake hpc

end

/-! ## Steps of the cancellers -/

section Cancel

variable [DecidableEq K] [DecidableEq H] [DecidableEq G]

variable {canceller : K → CancelPc C G} {mailbox : H → Option C} {hub : H → MailPc C}

omit [DecidableEq K] [DecidableEq H] [DecidableEq G] [DecidableEq C] in
theorem Inv.hold (hI : Inv calls s)     (hheld : ∀ x, Held canceller mailbox hub x →
      Held s.canceller s.mailbox s.hub x ∨ ∃ g, s.iouringOp g = some x) :
    Inv calls { s with canceller := canceller, mailbox := mailbox, hub := hub } where
  own := hI.own
  queue := hI.queue
  refs := hI.refs.hold hheld
  ms := hI.ms

omit [DecidableEq C] [DecidableEq H] [DecidableEq G] in
theorem held_cancelTo {k : K} {pc : CancelPc C G}     {x : C} (h : Held (update canceller k pc) mailbox hub x) :
    Held canceller mailbox hub x ∨ pc.op = some x := by
  rcases h with ⟨k', hk⟩ | h | h
  · by_cases hkk : k' = k
    · subst hkk
      rw [update_self] at hk
      exact .inr hk
    · rw [update_of_ne hkk] at hk
      exact .inl (.inl ⟨k', hk⟩)
  · exact .inl (.inr (.inl h))
  · exact .inl (.inr (.inr h))

section

omit [DecidableEq C] [DecidableEq K] [DecidableEq G]

theorem held_mailTo {b : H} {pc : MailPc C}     {x : C} (h : Held canceller mailbox (update hub b pc) x) :
    Held canceller mailbox hub x ∨ pc.op = some x := by
  rcases h with h | h | ⟨b', hb⟩
  · exact .inl (.inl h)
  · exact .inl (.inr (.inl h))
  · by_cases hbb : b' = b
    · subst hbb
      rw [update_self] at hb
      exact .inr hb
    · rw [update_of_ne hbb] at hb
      exact .inl (.inr (.inr ⟨b', hb⟩))

theorem held_setMailbox {b : H} {op : Option C}     {x : C} (h : Held canceller (update mailbox b op) hub x) :
    Held canceller mailbox hub x ∨ op = some x := by
  rcases h with h | ⟨b', hb⟩ | h
  · exact .inl (.inl h)
  · by_cases hbb : b' = b
    · subst hbb
      rw [update_self] at hb
      exact .inr hb
    · rw [update_of_ne hbb] at hb
      exact .inl (.inr (.inl ⟨b', hb⟩))
  · exact .inl (.inr (.inr h))

end

omit [DecidableEq C] in
theorem Inv.cancelStep (hI : Inv calls s) {k : K} (h : s.cancelStep calls k = some t) :
    Inv calls t := by
  have hstay : ∀ pc : CancelPc C G, (∀ x, pc.op = some x → (s.canceller k).op = some x) →
      Inv calls (s.cancelTo k pc) := by
    intro pc hpc
    refine hI.hold fun x hx => .inl ?_
    rcases held_cancelTo hx with hx | hx
    · exact hx
    · exact .inl ⟨k, hpc x hx⟩
  unfold State.cancelStep at h
  split at h
  next => cases h
  next g c hk =>
    cases h
    apply hstay
    intro x hx
    rw [hk]
    split at hx
    · exact hx
    · cases hx
  next c hk =>
    cases h
    apply hstay
    intro x hx
    rw [hk]
    split at hx
    · exact hx
    · cases hx
  next c hk =>
    split at h <;> cases h
    next => exact hstay .idle nofun
    next b _ =>
      refine hI.hold fun x hx => .inl ?_
      rcases held_cancelTo hx with hx | hx
      · rcases held_setMailbox hx with hx | hx
        · exact hx
        · -- What the mailbox holds now it held before, or it is the canceller's.
          split at hx
          · exact .inl ⟨k, by rw [hk]; exact hx⟩
          · exact .inr (.inl ⟨b, hx⟩)
      · cases hx

omit [DecidableEq C] [DecidableEq K] [DecidableEq G] in
theorem Inv.mailStep (hI : Inv calls s) {b : H} (h : s.mailStep calls b = some t) :
    Inv calls t := by
  have hstay : ∀ pc : MailPc C, (∀ x, pc.op = some x → (s.hub b).op = some x) → Inv calls (s.mailTo b pc) := by
    intro pc hpc
    refine hI.hold fun x hx => .inl ?_
    rcases held_mailTo hx with hx | hx
    · exact hx
    · exact .inr (.inr ⟨b, hpc x hx⟩)
  unfold State.mailStep at h
  split at h
  next hb =>
    split at h <;> cases h
    next c hc =>
      refine hI.hold fun x hx => .inl ?_
      rcases held_mailTo hx with hx | hx
      · rcases held_setMailbox hx with hx | hx
        · exact hx
        · cases hx
      · exact .inr (.inl ⟨b, hc.trans hx⟩)
  next c hb =>
    cases h
    apply hstay
    intro x hx
    rw [hb]
    split at hx
    · exact hx
    · cases hx
  next c hb =>
    cases h
    apply hstay
    intro x hx
    rw [hb]
    split at hx
    · exact hx
    · cases hx
  next =>
    cases h
    exact hstay .idle nofun

end Cancel

/-! ## Runs -/

variable [DecidableEq D] [DecidableEq K] [DecidableEq H] [DecidableEq G] [DecidableEq M] {loopArmed : H → Bool}

theorem Inv.step (hI : Inv calls s) {a : Action C D K H G M} (hC : Clear calls s a)
    (h : IoUring.step calls loopArmed s a = some t) : Inv calls t := by
  cases a with
  | call c ok => exact hI.callStep hC h
  | resume c => exact hI.resume h
  | signal c =>
    simp only [IoUring.step] at h
    split at h <;> cases h
    next hs => exact hI.signal hs.1
  | post c res =>
    simp only [IoUring.step] at h
    split at h <;> cases h
    next hp => exact hI.post hp.1 hp.2
  | msPost m res buffer more =>
    simp only [IoUring.step] at h
    split at h <;> cases h
    refine ⟨hI.own, hI.queue.setCq ?_ ?_, hI.refs, hI.ms⟩
    · intro c v hc
      rcases mem_append.mp hc with hc | hc
      · exact hc
      · cases mem_singleton.mp hc
    · rw [filterMap_append]
      exact append_nil _
  | msClose m =>
    cases h
    exact hI.setHandle rfl
  | enterDrain d r =>
    simp only [IoUring.step] at h
    split at h <;> cases h
    next hd =>
      refine ⟨hI.own, hI.queue.drain ?_ rfl, hI.refs, hI.ms.drain nofun⟩
      rw [hd.1]
      rfl
  | drain d => exact hI.drainStep h
  | cancelG k g =>
    simp only [IoUring.step] at h
    split at h <;> cases h
    next c hk hg =>
      refine hI.hold fun x hx => ?_
      rcases held_cancelTo hx with hx | hx
      · exact .inl hx
      · exact .inr ⟨g, hg.trans hx⟩
  | cancel k => exact hI.cancelStep h
  | mail b => exact hI.mailStep h

theorem Inv.of_reachable (h : (ioUring calls loopArmed).ReachableWith (Clear calls) s) :
    Inv calls s :=
  h.invariant (fun _ hs => Inv.init hs) fun _ _ _ hI hC hs => hI.step hC hs

end Runloom.IoUring
