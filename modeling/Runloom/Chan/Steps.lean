import Runloom.Chan.Sections

/-!
# Steps of the calls

Every step keeps the invariant, and leaves a park that has fired as it is; only the call itself,
when it sets up its next park, starts again from an unfired one.
-/

namespace Runloom.Chan

open Transition List
open Function (update update_self update_of_ne update_eq_self update_idem)

variable {H C V : Type*} [DecidableEq H] [DecidableEq C] {calls : C → Call H V} {cap : H → ℕ}
  {s t : State H C V} {ch : H} {r : Side} {c : C} {pc : CallPc C V}

structure Next (calls : C → Call H V) (cap : H → ℕ) (s t : State H C V) : Prop where
  inv : Inv calls cap t
  kept : ∀ d k, s.fired d = some k →
    t.fired d = some k ∨ s.call d = .scan [] ∧ t.call d = .install 0 ∧ t.fired d = none

/-! ## A call moves on -/

theorem Tried.goto (h : Tried calls cap s t c)
    (hlink : ∀ ch side w, w ∈ (t.chan ch).waiters side → w.call = c → LinkedAt pc w)
    (hown : Own calls t.chan t.fired t.slot (update t.call c pc) t.log c) :
    Next calls cap s (t.goto c pc) where
  inv :=
    { queue := h.queue.move hlink
      flow := h.flow
      fifo := h.fifo
      events := h.events
      own := by
        intro d
        by_cases hd : d = c
        · subst hd
          exact hown
        · apply (h.own d hd).congr
          · exact update_of_ne hd _ _
          · rfl
          · exact fun _ _ => rfl
          · rfl
          · exact fun _ hh => hh }
  kept d k hd := .inl (h.kept d k hd)

theorem Inv.goto (hI : Inv calls cap s)
    (hlink : ∀ ch side w, w ∈ (s.chan ch).waiters side → w.call = c → LinkedAt pc w)
    (hown : Own calls s.chan s.fired s.slot (update s.call c pc) s.log c) :
    Next calls cap s (s.goto c pc) :=
  (Tried.refl hI c).goto hlink hown

theorem Tried.goto_unlinked (h : Tried calls cap s t c) (hpc : ∀ w, ¬LinkedAt (s.call c) w)
    (hown : Own calls t.chan t.fired t.slot (update t.call c pc) t.log c) :
    Next calls cap s (t.goto c pc) := by
  apply h.goto _ hown
  intro ch side w hw hwc
  have hq := h.queue
  rw [h.call] at hq
  exact absurd hwc (hq.call_ne hpc hw)

theorem Inv.goto_unlinked (hI : Inv calls cap s) (hpc : ∀ w, ¬LinkedAt (s.call c) w)
    (hown : Own calls s.chan s.fired s.slot (update s.call c pc) s.log c) :
    Next calls cap s (s.goto c pc) :=
  (Tried.refl hI c).goto_unlinked hpc hown

omit [DecidableEq H] [DecidableEq C] in
theorem not_linkedAt_idle (w : Waiter C) : ¬LinkedAt (V := V) .idle w := by
  cases w <;> nofun

/-! ## Plain calls -/

section Plain

variable {b : Case H V}

theorem Tried.park (h : Tried calls cap s t c) (hpc : s.call c = .idle)
    (hop : opOf calls (.plain c) = some b) (hm : moved t.log c = [])
    (hopen : (t.chan b.ch).closed = false)
    (hfull : b.op.side = .send → (t.chan b.ch).waiters .recv = [] ∧ (t.chan b.ch).len = cap b.ch)
    (hempty : b.op.side = .recv → (t.chan b.ch).waiters .send = [] ∧ (t.chan b.ch).len = 0) :
    Next calls cap s ((((t.setSlot (.plain c) (State.freshSlot (.plain c) b.op)).setQueue b.ch
      b.op.side ((t.chan b.ch).waiters b.op.side ++ [Waiter.plain c])).record
        (if b.op.side = .send then [.parks b.ch c] else [])).goto c .parked) := by
  have hcall : t.call c = .idle := by rw [h.call, hpc]
  have hnot : ∀ ch side w, w ∈ (t.chan ch).waiters side → w.call ≠ c := by
    intro ch side w hw
    apply h.queue.call_ne _ hw
    rw [hcall]
    exact not_linkedAt_idle
  have hon : ∀ e ∈ (if b.op.side = .send then [.parks b.ch c] else [] : List (Event H C V)),
      e.on = b.ch ∧ EventOk calls e ∧ ∀ d, Event.movedBy d e = none := by
    intro e he
    split at he
    · rw [mem_singleton.mp he]
      exact ⟨rfl, trivial, fun _ => rfl⟩
    · cases he
  have hmoved : ∀ d, moved (if b.op.side = .send then [.parks b.ch c] else [] : List (Event H C V)) d = [] :=
    fun d => filterMap_eq_nil_iff.mpr fun e he => (hon e he).2.2 d
  refine ⟨⟨?_, ?_, ?_, ?_, ?_⟩, ?_⟩
  · -- The waiter is new: no queue holds one of this call, so its slot is free to be set.
    have hmove : QueueOk calls cap t.chan t.fired t.slot (update t.call c .parked) :=
      h.queue.move fun ch side w hw hwc => absurd hwc (hnot ch side w hw)
    have hslot : QueueOk calls cap t.chan t.fired (update t.slot (.plain c) (State.freshSlot (.plain c) b.op))
        (update t.call c .parked) := by
      apply hmove.shrink (fun _ _ => List.Sublist.refl _) (fun _ _ _ _ hx => hx) _
        (fun _ _ _ _ hx => .inl hx) hmove.full hmove.empty hmove.closed
      intro ch side w hw _
      apply update_of_ne
      rintro rfl
      exact hnot ch side _ hw rfl
    apply hslot.push (k := { t.chan b.ch with
      waiters := update (t.chan b.ch).waiters b.op.side
        ((t.chan b.ch).waiters b.op.side ++ [Waiter.plain c]) }) hop rfl rfl rfl hopen rfl
    · exact update_self ..
    · exact fun hw => hnot _ _ _ hw rfl
    · exact fun _ => update_self ..
    · exact nofun
    · exact fun hs => (hfull hs).2
    · exact fun hs => (hempty hs).2
    · intro x hx _
      split at hx
      next hs =>
        rw [(hfull hs).1] at hx
        cases hx
      next hs =>
        have hs' : b.op.side = .recv := by
          cases hb : b.op.side with
          | send => exact absurd hb hs
          | recv => rfl
        rw [(hempty hs').1] at hx
        cases hx
  · refine forall_channel (P := Flow cap) h.flow ?_ (fun _ he hf => hf.of_other he) fun e he => (hon e he).1
    have hflow := h.flow b.ch
    refine ⟨hflow.len, hflow.head, hflow.tail, ?_⟩
    have hlists : accepted (if b.op.side = .send then [.parks b.ch c] else []
        : List (Event H C V)) b.ch = [] ∧ handed (if b.op.side = .send then [.parks b.ch c] else []
        : List (Event H C V)) b.ch = [] := by
      split <;> exact ⟨rfl, rfl⟩
    rw [accepted_append, handed_append, hlists.1, hlists.2, append_nil, append_nil]
    exact hflow.conserve
  · refine forall_channel (P := Fifo) h.fifo ?_ (fun _ he hf => hf.of_other he) fun e he => (hon e he).1
    split
    next hs => exact (h.fifo b.ch).park hopen (by rw [hs]; simp [update_self])
    next hs =>
      refine (h.fifo b.ch).frame rfl rfl (fun hc => hc) fun _ => ?_
      have hne : Side.send ≠ b.op.side := Ne.symm hs
      simp only [State.setSlot, update_of_ne hne]
  · intro e he
    rcases mem_append.mp he with he | he
    · exact h.events e he
    · exact (hon e he).2.1
  · intro d
    by_cases hd : d = c
    · subst hd
      refine (Own.of_plain hop).mpr ?_
      simp only [State.goto, State.record, State.setQueue, State.setChan, State.setSlot,
        update_self, moved_append, hm, hmoved, append_nil]
      left
      cases b.op <;> exact ⟨rfl, rfl⟩
    · apply (h.own d hd).congr
      · exact update_of_ne hd _ _
      · rfl
      · intro w hw
        apply update_of_ne
        rintro rfl
        exact hd hw.symm
      · simp only [State.goto, State.record, State.setQueue, State.setChan, State.setSlot,
          moved_append, hmoved, append_nil]
      · intro ch' hcl
        show (update t.chan b.ch _ ch').closed = true
        exact Eq.trans (closed_update (by rfl) ch') hcl
  · exact fun d k hd => .inl (h.kept d k hd)

theorem Inv.plainOp (hI : Inv calls cap s) (inFiber blocking : Bool) {op : Op V}
    (hpc : s.call c = .idle) (hop : opOf calls (.plain c) = some ⟨ch, op⟩)
    (hm : moved s.log c = []) :
    Next calls cap s (s.plainOp cap inFiber c ch op blocking) := by
  have hunl : ∀ w, ¬LinkedAt (s.call c) w := by
    rw [hpc]
    exact not_linkedAt_idle
  obtain ⟨htried, hok⟩ := hI.opReady hop hunl hm
  unfold State.plainOp
  split
  next got t heq =>
    rw [heq] at htried hok
    replace htried : Tried calls cap s t c := htried
    apply htried.goto_unlinked hunl
    refine (Own.of_plain hop).mpr ?_
    rw [update_self]
    exact hok
  next t heq =>
    rw [heq] at htried hok
    replace htried : Tried calls cap s t c := htried
    apply htried.goto_unlinked hunl
    refine (Own.of_plain hop).mpr ?_
    rw [update_self]
    exact ⟨hok.1, hok.2.2⟩
  next t heq =>
    rw [heq] at htried hok
    replace htried : Tried calls cap s t c := htried
    have hmt : moved t.log c = [] := hok.1
    have hquiet : ∀ out : Outcome C V, PlainOk ⟨ch, op⟩ (.returned out) (t.slot (.plain c)) []
        (fun h => (t.chan h).closed) →
        Next calls cap s (t.goto c (.returned out)) := by
      intro out hout
      apply htried.goto_unlinked hunl
      refine (Own.of_plain hop).mpr ?_
      rw [update_self, hmt]
      exact hout
    split
    · exact hquiet .wouldBlock rfl
    · split
      · exact hquiet .noGoroutine rfl
      · refine htried.park (b := ⟨ch, op⟩) hpc hop hmt hok.2.1 ?_ ?_
        · intro hs
          have hrest := hok.2.2
          simp only at hs
          rw [hs] at hrest
          exact hrest
        · intro hs
          have hrest := hok.2.2
          simp only at hs
          rw [hs] at hrest
          exact hrest

theorem Inv.resumePlain (hI : Inv calls cap s) (hpc : s.call c = .parked)
    (hop : opOf calls (.plain c) = some b) : Next calls cap s (s.resumePlain c b.op.side) := by
  have hown := (Own.of_plain hop).mp (hI.own c)
  rw [hpc] at hown
  by_cases hq : (s.slot (.plain c)).queued = true
  · simp only [State.resumePlain, if_pos hq]
    exact ⟨hI, fun _ _ h => .inl h⟩
  simp only [State.resumePlain, if_neg hq]
  rcases hown with ⟨hq', -⟩ | ⟨-, hfill⟩
  · exact absurd hq' hq
  have hleave : ∀ out : Outcome C V, PlainOk b (.returned out) (s.slot (.plain c)) (moved s.log c)
      (fun h => (s.chan h).closed) → (∀ ch side, Waiter.plain c ∉ (s.chan ch).waiters side) →
      Next calls cap s (s.goto c (.returned out)) := by
    intro out hout hnot
    apply hI.goto
    · intro ch side w hw hwc
      cases w with
      | plain d =>
        have hd : d = c := hwc
        exact absurd (hd ▸ hw) (hnot ch side)
      | case d i =>
        have hd : d = c := hwc
        have hl : LinkedAt (s.call d) (.case d i) := hI.queue.linked ch side _ hw
        rw [hd, hpc] at hl
        exact hl.elim
    · refine (Own.of_plain hop).mpr ?_
      rw [update_self]
      exact hout
  -- A waiter that is in a queue is fresh, and a fresh one is marked as queued.
  have hnot : ∀ ch side, Waiter.plain c ∉ (s.chan ch).waiters side := by
    intro ch side hw
    apply hq
    rw [hI.queue.fresh ch side _ b hw rfl hop]
    cases b.op <;> rfl
  cases hb : b.op with
  | send v =>
    rw [hb] at hfill
    apply hleave _ _ hnot
    rcases hfill with ⟨hr, hm⟩ | ⟨hr, hm, hcl⟩
    · rw [if_pos hr]
      simp only [PlainOk, GotOk, hb]
      exact ⟨trivial, hm⟩
    · rw [if_neg (by rw [hr]; decide)]
      exact ⟨hm, hcl⟩
  | recv =>
    rw [hb] at hfill
    apply hleave _ _ hnot
    rcases hfill with ⟨⟨x, hx⟩, hok, hm⟩ | ⟨hv, hok, hm, hcl⟩
    · rw [if_pos hok]
      simp only [PlainOk, GotOk, hb]
      exact .inl ⟨⟨x, by rw [hx]⟩, hm⟩
    · rw [if_neg (by rw [hok]; decide)]
      simp only [PlainOk, GotOk, hb]
      exact .inr ⟨trivial, hm, hcl⟩

end Plain

/-! ## Close -/

section Close

variable {chan chan' : H → Channel C V} {k : Channel C V}

/-- The queues while `close` works through those of one side. -/
def withQueue (chan : H → Channel C V) (ch : H) (k : Channel C V) (r : Side)
    (ws : List (Waiter C)) : H → Channel C V :=
  update chan ch { k with waiters := update k.waiters r ws }

omit [DecidableEq C] in
theorem withQueue_self (ws : List (Waiter C)) : (withQueue chan ch k r ws ch).waiters r = ws := by
  simp only [withQueue, update_self]

omit [DecidableEq H] in
theorem closeWaiters_fields (r : Side) (ws : List (Waiter C)) (s : State H C V) :
    (State.closeWaiters r ws s).chan = s.chan ∧ (State.closeWaiters r ws s).call = s.call ∧
      (State.closeWaiters r ws s).log = s.log ∧
      ∀ d j, s.fired d = some j → (State.closeWaiters r ws s).fired d = some j := by
  induction ws generalizing s with
  | nil => exact ⟨rfl, rfl, rfl, fun _ _ h => h⟩
  | cons w ws ih =>
    unfold State.closeWaiters
    split
    next hw =>
      obtain ⟨hchan, hcall, hlog, hfired⟩ :=
        ih ({ s with fired := claim s.fired w }.setSlot w (State.closeSlot (s.slot w) r))
      exact ⟨hchan, hcall, hlog, fun d j hd => hfired d j (claim_of_fired hw hd)⟩
    next => exact ih s

omit [DecidableEq C] in
theorem filled_closeSlot {op : Op V} {x : Slot C V} {i : ℕ} :
    Filled op (State.closeSlot x op.side) [] i true := by
  cases op with
  | send v => exact .inr ⟨rfl, rfl, rfl⟩
  | recv => exact .inr ⟨rfl, rfl, rfl, rfl⟩

theorem closeWaiters_ok (chan : H → Channel C V) (hcl : (chan' ch).closed = true) (ws : List (Waiter C))
    (hq : QueueOk calls cap (withQueue chan ch k r ws) s.fired s.slot s.call)
    (hopen : k.closed = false)
    (hown : ∀ d, Own calls chan' s.fired s.slot s.call s.log d) :
    QueueOk calls cap (withQueue chan ch k r []) (State.closeWaiters r ws s).fired
        (State.closeWaiters r ws s).slot s.call ∧
      ∀ d, Own calls chan' (State.closeWaiters r ws s).fired (State.closeWaiters r ws s).slot s.call s.log d := by
  induction ws generalizing s with
  | nil => exact ⟨hq, hown⟩
  | cons w ws ih =>
    have hmem : w ∈ (withQueue chan ch k r (w :: ws) ch).waiters r := by
      rw [withQueue_self]
      exact mem_cons_self
    have hnext : update (withQueue chan ch k r (w :: ws)) ch
        { k with waiters := update k.waiters r ws } = withQueue chan ch k r ws := by
      simp only [withQueue, update_idem]
    have hkw : (withQueue chan ch k r (w :: ws) ch).waiters = update k.waiters r (w :: ws) := by
      simp only [withQueue, update_self]
    unfold State.closeWaiters
    split
    next hw =>
      obtain ⟨b, hop, hbch, hside⟩ := hq.op ch r w hmem
      have hfresh := hq.fresh ch r w b hmem hw hop
      have hlink := hq.linked ch r w hmem
      have hm := (hown w.call).moved_nil hop hlink hw hfresh
      have hslot : ∀ x, x ≠ w → update s.slot w (State.closeSlot (s.slot w) r) x = s.slot x :=
        fun x hx => update_of_ne hx _ _
      have hfirst : (withQueue chan ch k r (w :: ws) ch).waiters r = [] ++ w :: ws :=
        withQueue_self _
      have hpop := hq.pop_some (k := { k with waiters := update k.waiters r ws }) hfirst
        (by rw [hkw, update_idem]) (by simp only [withQueue, update_self])
        (by simp only [withQueue, update_self]) hslot
      rw [hnext] at hpop
      refine ih (s := { s with fired := claim s.fired w }.setSlot w (State.closeSlot (s.slot w) r)) hpop ?_
      intro d
      by_cases hd : d = w.call
      · subst hd
        apply (hown w.call).fill hop hlink hw hslot
        · simp only [update_self]
          cases r <;> rfl
        · simp only [update_self, State.setSlot]
          rw [hm, hbch, hcl, ← hside]
          exact filled_closeSlot
      · apply (hown d).congr rfl
        · exact claim_of_ne (Ne.symm hd)
        · intro x hx
          apply hslot
          rintro rfl
          exact hd hx.symm
        · rfl
        · exact fun _ hh => hh
    next hw =>
      -- A tombstone is passed over; its select has fired elsewhere.
      refine ih ?_ hown
      rw [← hnext]
      have htail : ws.Sublist ((withQueue chan ch k r (w :: ws) ch).waiters r) := by
        rw [withQueue_self]
        exact sublist_cons_self w ws
      have hsub := sublist_of_update (k := { k with waiters := update k.waiters r ws })
        (by rw [hkw, update_idem]) htail
      have hlen : ∀ ch', (update (withQueue chan ch k r (w :: ws)) ch
          { k with waiters := update k.waiters r ws } ch').len = (withQueue chan ch k r (w :: ws) ch').len := by
        intro ch'
        by_cases hch : ch' = ch
        · subst hch
          simp only [withQueue, update_self]
        · rw [update_of_ne hch]
      apply hq.shrink hsub (fun _ _ _ _ hx => hx) (fun _ _ _ _ _ => rfl) (fun _ _ _ _ hx => .inl hx)
      · intro ch' x hx hc
        rw [hlen]
        exact hq.full ch' x ((hsub ch' .send).subset hx) hc
      · intro ch' x hx hc
        rw [hlen]
        exact hq.empty ch' x ((hsub ch' .recv).subset hx) hc
      · intro ch' side hc
        have hch : ch' ≠ ch := by
          rintro rfl
          rw [update_self, hopen] at hc
          cases hc
        rw [update_of_ne hch] at hc ⊢
        exact hq.closed ch' side hc

omit [DecidableEq C] in
theorem withQueue_waiters (chan : H → Channel C V) (ch : H) (r : Side) :
    withQueue chan ch (chan ch) r ((chan ch).waiters r) = chan := by
  rw [withQueue, update_eq_self, update_eq_self]

/-- The channel after `close`. -/
def closedChannel (k : Channel C V) : Channel C V :=
  { k with closed := true, waiters := fun _ => [] }

theorem closeSides_fields (s : State H C V) (ch : H) :
    let t := ((s.setChan ch { s.chan ch with closed := true }).closeSide ch .send).closeSide ch .recv
    t.chan = update s.chan ch (closedChannel (s.chan ch)) ∧ t.call = s.call ∧
      t.log = s.log ∧ ∀ d j, s.fired d = some j → t.fired d = some j := by
  intro t
  let s₁ := s.setChan ch { s.chan ch with closed := true }
  obtain ⟨hchan₂, hcall₂, hlog₂, hkept₂⟩ :=
    closeWaiters_fields .send ((s₁.chan ch).waiters .send) (s₁.setQueue ch .send [])
  let s₂ := s₁.closeSide ch .send
  obtain ⟨hchan₃, hcall₃, hlog₃, hkept₃⟩ :=
    closeWaiters_fields .recv ((s₂.chan ch).waiters .recv) (s₂.setQueue ch .recv [])
  refine ⟨?_, hcall₃.trans hcall₂, hlog₃.trans hlog₂, ?_⟩
  · have hs₂ : s₂.chan = (s₁.setQueue ch .send []).chan := hchan₂
    have ht : t.chan = (s₂.setQueue ch .recv []).chan := hchan₃
    have hnil : update (update (s.chan ch).waiters .send []) .recv [] = fun _ => [] := by
      funext side
      cases side <;> rfl
    rw [ht]
    simp only [State.setQueue, State.setChan, hs₂, s₁, update_self, update_idem, closedChannel, hnil]
  · exact fun d j hd => hkept₃ d j (hkept₂ d j hd)

theorem Inv.closeSides (hI : Inv calls cap s) (hopen : (s.chan ch).closed = false) :
    let t := ((s.setChan ch { s.chan ch with closed := true }).closeSide ch .send).closeSide ch .recv
    QueueOk calls cap t.chan t.fired t.slot s.call ∧ ∀ d, Own calls t.chan t.fired t.slot s.call s.log d := by
  intro t
  obtain ⟨hchan, -, -, -⟩ := closeSides_fields s ch
  have hcl : (t.chan ch).closed = true := by
    rw [hchan, update_self]
    rfl
  have hmono : ∀ h, (s.chan h).closed = true → (t.chan h).closed = true := by
    intro h hh
    by_cases hch : h = ch
    · rw [hch]
      exact hcl
    · rw [hchan, update_of_ne hch]
      exact hh
  let s₁ := s.setChan ch { s.chan ch with closed := true }
  have hw₁ : (s₁.chan ch).waiters .send = (s.chan ch).waiters .send := by
    simp only [s₁, State.setChan, update_self]
  -- The senders, then the receivers, over the queues as they were.
  obtain ⟨hq₂, hown₂⟩ := closeWaiters_ok (s := s₁.setQueue ch .send []) (r := .send) s.chan hcl
    ((s₁.chan ch).waiters .send) (by rw [hw₁, withQueue_waiters]; exact hI.queue) hopen
    fun d => (hI.own d).congr rfl rfl (fun _ _ => rfl) rfl hmono
  let s₂ := s₁.closeSide ch .send
  obtain ⟨hchan₂, hcall₂, hlog₂, -⟩ :=
    closeWaiters_fields .send ((s₁.chan ch).waiters .send) (s₁.setQueue ch .send [])
  let k₂ : Channel C V :=
    { s.chan ch with waiters := update (s.chan ch).waiters .send [] }
  have hw₂ : (s₂.chan ch).waiters .recv = k₂.waiters .recv := by
    rw [show s₂.chan = (s₁.setQueue ch .send []).chan from hchan₂]
    simp only [State.setQueue, State.setChan, s₁, k₂, update_self]
  have hstart : withQueue s.chan ch k₂ .recv ((s₂.chan ch).waiters .recv) =
      withQueue s.chan ch (s.chan ch) .send [] := by
    rw [hw₂, withQueue, withQueue, update_eq_self]
  obtain ⟨hq₃, hown₃⟩ := closeWaiters_ok (s := s₂.setQueue ch .recv []) (r := .recv) s.chan hcl
    ((s₂.chan ch).waiters .recv) (k := k₂)
    (by rw [hstart, show (s₂.setQueue ch .recv []).call = s.call from hcall₂]; exact hq₂) hopen
    (by
      rw [show (s₂.setQueue ch .recv []).call = s.call from hcall₂,
        show (s₂.setQueue ch .recv []).log = s.log from hlog₂]
      exact hown₂)
  rw [show (s₂.setQueue ch .recv []).call = s.call from hcall₂] at hq₃ hown₃
  rw [show (s₂.setQueue ch .recv []).log = s.log from hlog₂] at hown₃
  refine ⟨?_, hown₃⟩
  have hwaiters : ∀ ch' side, (t.chan ch').waiters side = (withQueue s.chan ch k₂ .recv [] ch').waiters side := by
    intro ch' side
    rw [hchan]
    by_cases hch : ch' = ch
    · rw [hch, withQueue, update_self, update_self]
      cases side <;> rfl
    · rw [withQueue, update_of_ne hch, update_of_ne hch]
  have hnil : ∀ side, (t.chan ch).waiters side = [] := by
    intro side
    rw [hchan, update_self]
    rfl
  have hother : ∀ ch', ch' ≠ ch → t.chan ch' = withQueue s.chan ch k₂ .recv [] ch' := by
    intro ch' hch
    rw [hchan, withQueue, update_of_ne hch, update_of_ne hch]
  have hne : ∀ {ch' side w}, w ∈ (t.chan ch').waiters side → ch' ≠ ch := by
    rintro ch' side w hw rfl
    rw [hnil] at hw
    cases hw
  apply hq₃.shrink (fun ch' side => by rw [hwaiters]) (fun _ _ _ _ hx => hx)
    (fun _ _ _ _ _ => rfl) (fun _ _ _ _ hx => .inl hx)
  · intro ch' w hw hc
    have hch := hne hw
    rw [hother ch' hch] at hw ⊢
    exact hq₃.full ch' w hw hc
  · intro ch' w hw hc
    have hch := hne hw
    rw [hother ch' hch] at hw ⊢
    exact hq₃.empty ch' w hw hc
  · intro ch' side hc
    by_cases hch : ch' = ch
    · rw [hch]
      exact hnil side
    · rw [hother ch' hch] at hc ⊢
      exact hq₃.closed ch' side hc

theorem Inv.closeOp (hI : Inv calls cap s) (hpc : s.call c = .idle) (hc : calls c = .close ch) :
    Next calls cap s (s.closeOp c ch) := by
  have hunl : ∀ w, ¬LinkedAt (s.call c) w := by
    rw [hpc]
    exact not_linkedAt_idle
  have hown : ∀ d, Own calls s.chan s.fired s.slot s.call s.log d := hI.own
  have hm : moved s.log c = [] := by
    have h := hown c
    unfold Own at h
    rw [hc] at h
    exact h.1
  have hout : ∀ {chan fired slot call} {out : Outcome C V}, (out = .closeDone ∨ out = .closeClosed) →
      Own calls chan fired slot (update call c (.returned out)) s.log c := by
    intro chan fired slot call out hout
    unfold Own
    rw [hc]
    simp only [update_self]
    refine ⟨hm, fun got k => ?_⟩
    rcases hout with rfl | rfl <;> exact ⟨nofun, nofun⟩
  unfold State.closeOp
  split
  next => exact hI.goto_unlinked hunl (hout (.inr rfl))
  next hcl =>
  have hopen : (s.chan ch).closed = false := Bool.eq_false_iff.mpr hcl
  have hfields := closeSides_fields s ch
  obtain ⟨hq, hown'⟩ := hI.closeSides hopen
  generalize ((s.setChan ch { s.chan ch with closed := true }).closeSide ch .send).closeSide ch .recv
    = t at hfields hq hown'
  obtain ⟨hchan, hcall, hlog, hkept⟩ := hfields
  have htried : Tried calls cap s t c := by
    refine ⟨?_, ?_, ?_, ?_, fun d _ => ?_, hcall, hkept⟩
    · rw [hcall]
      exact hq
    · intro ch'
      rw [hchan, hlog, ← append_nil s.log]
      have hflow := hI.flow ch
      refine forall_channel (P := Flow cap) hI.flow ?_ (fun _ he h => h.of_other he)
        (fun e he => absurd he not_mem_nil) ch'
      rw [append_nil]
      exact ⟨hflow.len, hflow.head, hflow.tail, hflow.conserve⟩
    · intro ch'
      rw [hchan, hlog, ← append_nil s.log]
      refine forall_channel (P := Fifo) hI.fifo ?_ (fun _ he h => h.of_other he)
        (fun e he => absurd he not_mem_nil) ch'
      exact (hI.fifo ch).frame rfl rfl nofun nofun
    · rw [hlog]
      exact hI.events
    · rw [hcall, hlog]
      exact hown' d
  apply htried.goto_unlinked hunl
  rw [hlog]
  exact hout (.inl rfl)

end Close

end Runloom.Chan
