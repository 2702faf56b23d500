import Runloom.Select.Invariant

/-!
# Sections in two halves

What the two halves of a section do to the fields that the invariant reads, and from it how the steps of
plain calls and of `close` keep the invariant.
-/

namespace Runloom.Select

open Transition Chan List

variable {H C V : Type*} [DecidableEq H] [DecidableEq C]
  {calls : C → Call H V} {cap : H → ℕ} {s t : State H C V} {b b' : Chan.State H C V} {c : C} {ch : H}

def queues (b : Chan.State H C V) (ch : H) (side : Side) : List (Waiter C) :=
  (b.chan ch).waiters side

def Inv (calls : C → Call H V) (s : State H C V) : Prop :=
  Core calls (queues s.base) s.base.fired s.base.call s.base.slot (moved s.base.log) s.hold

/-! ## Queues of a channel -/

section

omit [DecidableEq C]

theorem queues_setQueue (side : Side) (ws : List (Waiter C)) :
    queues (b.setQueue ch side ws) = setAt (queues b) ch side ws := by
  funext ch' side'
  simp only [queues, State.setQueue, State.setChan, setAt]
  by_cases hch : ch' = ch
  · subst hch
    rw [update_self]
    by_cases hs : side' = side
    · subst hs
      rw [if_pos ⟨rfl, rfl⟩]
      exact update_self ..
    · rw [if_neg (fun he => hs he.2)]
      exact update_of_ne hs ..
  · rw [if_neg (fun he => hch he.1), update_of_ne hch]

theorem queues_setChan {k : Channel C V} (hk : k.waiters = (b.chan ch).waiters) :
    queues (b.setChan ch k) = queues b := by
  funext ch' side
  simp only [queues, State.setChan]
  by_cases hch : ch' = ch
  · subst hch
    rw [update_self, hk]
  · rw [update_of_ne hch]

end

/-- What the pop of a claimable waiter does. -/
structure Claims (b b' : Chan.State H C V) (ch : H) (side : Side) (w : Waiter C) : Prop where
  mem : w ∈ queues b ch side
  claimable : claimable b.fired w = true
  queue : ∀ ch' side', (queues b' ch' side').Sublist (queues b ch' side')
  gone : (queues b ch side).count w ≤ 1 → w ∉ queues b' ch side
  fired : b'.fired = Chan.claim b.fired w
  slot : ∃ σ, b'.slot = update b.slot w σ
  call : b'.call = b.call
  log : b'.log = b.log

variable {side : Side} {w : Waiter C}

theorem claims_of_pop     (h : b.waiterPopClaimable ch side = (some w, b')) : Claims b b' ch side w := by
  unfold State.waiterPopClaimable at h
  split at h
  next => cases h
  next rest hp =>
    obtain ⟨hcl, pre, hq, -⟩ := popQueue_some hp
    cases h
    have hqueue : queues b ch side = pre ++ w :: rest := hq
    have hsub : rest.Sublist (queues b ch side) := by
      rw [hqueue]
      exact (sublist_cons_self w rest).trans (sublist_append_right pre (w :: rest))
    refine ⟨?_, hcl, ?_, ?_, rfl, ⟨_, rfl⟩, rfl, rfl⟩
    · rw [hqueue]
      exact mem_append_right pre mem_cons_self
    · intro ch' side'
      show (queues (b.setQueue ch side rest) ch' side').Sublist _
      rw [queues_setQueue]
      exact sublist_setAt hsub ch' side'
    · intro hone hmem
      have hmem : w ∈ queues (b.setQueue ch side rest) ch side := hmem
      rw [queues_setQueue, setAt_self] at hmem
      have := count_pos_iff.mpr hmem
      rw [hqueue, count_append, count_cons_self] at hone
      omega

/-- A section that claims nobody: waiters that cannot be claimed may leave. -/
structure Passes (b b' : Chan.State H C V) : Prop where
  queue : ∀ ch' side', (queues b' ch' side').Sublist (queues b ch' side')
  fired : b'.fired = b.fired
  slot : b'.slot = b.slot
  call : b'.call = b.call

theorem passes_of_pop (h : b.waiterPopClaimable ch side = (none, b')) : Passes b b' ∧ b'.log = b.log := by
  unfold State.waiterPopClaimable at h
  split at h
  next rest hp =>
    obtain ⟨rfl, -⟩ := popQueue_none hp
    cases h
    refine ⟨⟨fun ch' side' => ?_, rfl, rfl, rfl⟩, rfl⟩
    rw [queues_setQueue]
    exact sublist_setAt (nil_sublist _) ch' side'
  next => cases h

/-! ## Sections -/

omit [DecidableEq H] in
theorem Claims.of_pass {a : Chan.State H C V} (h : Claims a b' ch side w)
    (hq : queues a = queues b) (hf : a.fired = b.fired) (hs : a.slot = b.slot) (hc : a.call = b.call)
    (hl : a.log = b.log) : Claims b b' ch side w where
  mem := hq ▸ h.mem
  claimable := hf ▸ h.claimable
  queue := hq ▸ h.queue
  gone := hq ▸ h.gone
  fired := hf ▸ h.fired
  slot := hs ▸ h.slot
  call := h.call.trans hc
  log := h.log.trans hl

omit [DecidableEq C] in
theorem queues_bufPop : queues (b.bufPop cap ch).2 = queues b :=
  queues_setChan rfl

variable {me : Waiter C} {op : Op V} {y : Hold C V}

theorem claims_of_begin     (h : opBegin cap b ch me op = (.claimed y, b')) :
    ∃ w, y.claimed = some w ∧ Claims b b' ch y.side w := by
  cases op with
  | send v =>
    simp only [opBegin, sendBegin] at h
    split at h
    · cases h
    · split at h
      next rx _ hp =>
        cases h
        exact ⟨rx, rfl, claims_of_pop hp⟩
      next => split at h <;> cases h
  | recv =>
    simp only [opBegin, recvBegin] at h
    split at h
    · split at h
      next tx _ hp =>
        cases h
        exact ⟨tx, rfl, (claims_of_pop hp).of_pass queues_bufPop rfl rfl rfl rfl⟩
      next => cases h
    · split at h
      next tx _ hp =>
        cases h
        exact ⟨tx, rfl, claims_of_pop hp⟩
      next => cases h

def Try.moves (i : ℕ) : Try C V → List (ℕ × Got C V)
  | .got .closed => []
  | .got got => [(i, got)]
  | _ => []

section

omit [DecidableEq H]

theorem moved_accepted (log : List (Event H C V)) (ch : H) (tx : Waiter C) (x : Option (Item C V))
    (p : Bool) (c : C) : moved (log ++ [Event.accepted ch tx x p]) c =
      moved log c ++ if tx.call = c then [(tx.index, .sent)] else [] := by
  rw [moved_append]
  by_cases hc : tx.call = c <;> simp [moved, Event.movedBy, hc]

theorem moved_handed (log : List (Event H C V)) (ch : H) (rx : Waiter C) (x : Option (Item C V))
    (c : C) : moved (log ++ [Event.handed ch rx x]) c =
      moved log c ++ if rx.call = c then [(rx.index, .value x)] else [] := by
  rw [moved_append]
  by_cases hc : rx.call = c <;> simp [moved, Event.movedBy, hc]

end

theorem passes_of_begin {r : Try C V} (h : opBegin cap b ch me op = (.ready r, b')) :
    Passes b b' ∧ ∀ c, moved b'.log c = moved b.log c ++ if me.call = c then Try.moves me.index r else [] := by
  have hsame : ∀ c, moved b.log c = moved b.log c ++ if me.call = c then [] else [] := by
    intro c
    rw [ite_self, append_nil]
  cases op with
  | send v =>
    simp only [opBegin, sendBegin] at h
    split at h
    · cases h
      exact ⟨⟨fun _ _ => List.Sublist.refl _, rfl, rfl, rfl⟩, hsame⟩
    · split at h
      next => cases h
      next a hp =>
        obtain ⟨hpass, hlog⟩ := passes_of_pop hp
        split at h <;> cases h
        · refine ⟨⟨?_, hpass.fired, hpass.slot, hpass.call⟩, fun c => ?_⟩
          · intro ch' side'
            show (queues (a.bufPush cap ch _) ch' side').Sublist _
            rw [show queues (a.bufPush cap ch _) = queues a from queues_setChan rfl]
            exact hpass.queue ch' side'
          · show moved (a.log ++ _) c = _
            rw [hlog]
            exact moved_accepted ..
        · refine ⟨hpass, ?_⟩
          rw [hlog]
          exact hsame
  | recv =>
    simp only [opBegin, recvBegin] at h
    split at h
    · split at h
      next => cases h
      next a hp =>
        obtain ⟨hpass, hlog⟩ := passes_of_pop hp
        cases h
        refine ⟨⟨?_, hpass.fired, hpass.slot, hpass.call⟩, fun c => ?_⟩
        · intro ch' side'
          have := hpass.queue ch' side'
          rwa [queues_bufPop] at this
        · show moved (a.log ++ _) c = _
          rw [hlog]
          exact moved_handed ..
    · split at h
      next => cases h
      next a hp =>
        obtain ⟨hpass, hlog⟩ := passes_of_pop hp
        cases h
        refine ⟨hpass, ?_⟩
        rw [hlog]
        cases (b'.chan ch).closed <;> exact hsame

/-- What the second half of a section does. -/
structure Fills (b b' : Chan.State H C V) (me w : Waiter C) (side : Side) (got : Got C V) : Prop where
  queue : queues b' = queues b
  fired : b'.fired = b.fired
  call : b'.call = b.call
  other : ∀ c, c ≠ me.call → c ≠ w.call → moved b'.log c = moved b.log c
  caller : w.call ≠ me.call → moved b'.log me.call = moved b.log me.call ++ [(me.index, got)]
  filled : ∃ σ, b'.slot = update b.slot w σ ∧ (w.call ≠ me.call →
    ∀ op : Op V, op.side = side → moved b.log w.call = [] → Settles op σ (moved b'.log w.call) w.index)

theorem fills_of_opFill {got : Got C V} (h : opFill cap b ch me y = some (got, b')) :
    ∃ w, y.claimed = some w ∧ Fills b b' me w y.side got := by
  cases y with
  | handOff rx x =>
    cases h
    refine ⟨rx, rfl, rfl, rfl, rfl, fun c hme hw => ?_, fun hne => ?_, _, rfl, fun hne op hop hnil => ?_⟩
    · show moved (b.log ++ _) c = _
      rw [moved_append]
      simp [moved, Event.movedBy, Ne.symm hme, Ne.symm hw]
    · show moved (b.log ++ _) me.call = _
      rw [moved_append]
      simp [moved, Event.movedBy, hne]
    · have hmoved : moved (b.log ++ [Event.accepted ch me (some x) false, .handed ch rx (some x)]) rx.call =
          [(rx.index, .value (some x))] := by
        rw [moved_append, hnil]
        simp [moved, Event.movedBy, Ne.symm hne]
      cases op with
      | send v => cases hop
      | recv => exact .inl ⟨x, rfl, hmoved⟩
  | refill tx x =>
    cases h
    refine ⟨tx, rfl, queues_setChan rfl, rfl, rfl, fun c hme hw => ?_, fun hne => ?_, _, rfl,
      fun hne op hop hnil => ?_⟩
    · show moved (b.log ++ _) c = _
      rw [moved_append]
      simp [moved, Event.movedBy, Ne.symm hme, Ne.symm hw]
    · show moved (b.log ++ _) me.call = _
      rw [moved_append]
      simp [moved, Event.movedBy, hne]
    · have hmoved : moved (b.log ++ [Event.handed ch me x, .accepted ch tx (b.slot tx).value true]) tx.call =
          [(tx.index, .sent)] := by
        rw [moved_append, hnil]
        simp [moved, Event.movedBy, Ne.symm hne]
      cases op with
      | send v => exact .inl ⟨rfl, hmoved⟩
      | recv => cases hop
  | take tx =>
    cases h
    refine ⟨tx, rfl, rfl, rfl, rfl, fun c hme hw => ?_, fun hne => ?_, _, rfl, fun hne op hop hnil => ?_⟩
    · show moved (b.log ++ _) c = _
      rw [moved_append]
      simp [moved, Event.movedBy, Ne.symm hme, Ne.symm hw]
    · show moved (b.log ++ _) me.call = _
      rw [moved_append]
      simp [moved, Event.movedBy, hne]
    · have hmoved : moved (b.log ++ [Event.accepted ch tx (b.slot tx).value true,
          .handed ch me (b.slot tx).value]) tx.call = [(tx.index, .sent)] := by
        rw [moved_append, hnil]
        simp [moved, Event.movedBy, Ne.symm hne]
      cases op with
      | send v => exact .inl ⟨rfl, hmoved⟩
      | recv => cases hop
  | closing side w => cases h

/-! ## Halves of a section -/

theorem Inv.claims (hI : Inv calls s)     (hfree : ∀ e z, s.hold ch = some (e, z) → z.claimed = none) (h : Claims s.base b ch y.side w)
    (hy : y.claimed = some w) (e : C) :
    Inv calls ({ s with base := b }.setHold ch (some (e, y))) := by
  obtain ⟨σ, hσ⟩ := h.slot
  show Core calls (queues b) b.fired b.call b.slot (moved b.log) (update s.hold ch (some (e, y)))
  rw [h.fired, h.call, h.log, hσ]
  refine Core.claim hI h.mem h.claimable h.queue ?_ hfree hy rfl σ
  rintro ⟨c, i, rfl⟩
  exact h.gone (Core.once hI ch y.side c i)

omit [DecidableEq H] in
theorem Inv.passes (hI : Inv calls s) (h : Passes s.base b) :
    Core calls (queues b) b.fired b.call b.slot (moved s.base.log) s.hold := by
  rw [h.fired, h.call, h.slot]
  exact Core.shrink hI h.queue

theorem Inv.fills (hI : Inv calls s) {e : C} {got : Got C V}
    (hh : s.hold ch = some (e, y)) (hy : y.claimed = some w) (h : Fills s.base b me w y.side got)
    (hne : ∀ c i k, w = .case c i → opOf calls w = some k → w.call ≠ me.call) :
    Core calls (queues b) b.fired b.call b.slot (update (moved s.base.log) w.call (moved b.log w.call))
      (update s.hold ch none) := by
  obtain ⟨σ, hσ, hsettles⟩ := h.filled
  rw [h.queue, h.fired, h.call, hσ]
  refine Core.fill hI hh hy nofun ?_
  rintro c i k rfl hop hside hnil
  exact hsettles (hne c i k rfl hop) k.op hside hnil

omit [DecidableEq H] in
theorem Fills.moved_other {got : Got C V} (h : Fills b b' me w side got) {e : C} (he : e ≠ me.call) :
    moved b'.log e = update (moved b.log) w.call (moved b'.log w.call) e := by
  by_cases hw : e = w.call
  · rw [hw, update_self]
  · rw [update_of_ne hw]
    exact h.other e he hw

/-! ## Plain calls -/

omit [DecidableEq H] [DecidableEq C] in
theorem not_select_of_opOf {k : Case H V} (hop : opOf calls (.plain c) = some k) (cases : List (Case H V))
    (d : Bool) : calls c ≠ .select cases d := by
  intro hc
  rw [opOf_plain hc] at hop
  cases hop

omit [DecidableEq H] in
theorem Inv.gotoPlain (hI : Inv calls s) (hc : ∀ cases d, calls c ≠ .select cases d) (pc : CallPc C V) :
    Inv calls { s with base := s.base.goto c pc } :=
  Core.plain hI hc fun _ _ _ _ _ => rfl

theorem Inv.plainEnd (hI : Inv calls s) {r : Try C V} (hop : opOf calls (.plain c) = some ⟨ch, op⟩)
    (h : opBegin cap s.base ch (.plain c) op = (.ready r, b)) (inFiber blocking : Bool) :
    Inv calls { s with base := State.plainEnd inFiber b c ch op blocking r } := by
  have hc := not_select_of_opOf hop
  obtain ⟨hpass, hmoved⟩ := passes_of_begin h
  have hcore := hI.passes hpass
  have hm : ∀ e cases d, calls e = .select cases d → e ≠ c → moved b.log e = moved s.base.log e := by
    intro e _ _ _ he
    rw [hmoved e, if_neg (show (Waiter.plain c).call ≠ e from Ne.symm he), append_nil]
  have hgo : ∀ pc, Inv calls { s with base := b.goto c pc } := fun pc => hcore.plain hc hm
  unfold State.plainEnd
  split
  · exact hgo _
  · exact hgo _
  · split
    · exact hgo _
    · split
      next => exact hgo _
      next =>
        -- The call joins the queue and parks.
        have hpush : Core calls _ _ (update b.call c .parked) _ _ _ :=
          (hcore.push hop nofun).plain hc hm
        have hslot : ∀ e i, update b.slot (.plain c) (Chan.State.freshSlot (.plain c) op)
            (.case e i) = b.slot (.case e i) := by
          intro e i
          have hne : Waiter.case e i ≠ .plain c := nofun
          exact update_of_ne hne ..
        have hlog : moved (b.log ++ if op.side = .send then [Event.parks ch c] else []) = moved b.log := by
          funext e
          rw [moved_append]
          split <;> simp [moved, Event.movedBy]
        have := hpush.congr_slot hslot
        rw [← hlog] at this
        show Core calls (queues (Chan.State.setQueue _ ch op.side _)) _ _ _ _ _
        rw [queues_setQueue]
        exact this

theorem Inv.plainStep (hI : Inv calls s) {inFiber blocking : Bool} (hop : opOf calls (.plain c) = some ⟨ch, op⟩)
    (ht : s.plainStep cap inFiber c ch op blocking = some t) : Inv calls t := by
  have hc := not_select_of_opOf hop
  unfold State.plainStep at ht
  split at ht
  next e y hh =>
    split at ht
    · obtain ⟨⟨got, b⟩, hfill, rfl⟩ := Option.map_eq_some_iff.mp ht
      obtain ⟨w, hy, hf⟩ := fills_of_opFill hfill
      refine (hI.fills hh hy hf ?_).plain hc fun e' _ _ _ he => hf.moved_other he
      -- The waiter of a select is not of the caller.
      rintro c' i k rfl hk rfl
      obtain ⟨cases, d, hsel, -⟩ := select_of_opOf hk
      exact hc cases d hsel
    · cases ht
  next hh =>
    split at ht
    · split at ht <;> cases ht
      next y b hb =>
        obtain ⟨w, hy, hcl⟩ := claims_of_begin hb
        exact hI.claims (fun e z he => by rw [hh] at he; cases he) hcl hy c
      next r b hb => exact hI.plainEnd hop hb inFiber blocking
    · cases ht

/-! ## Close -/

omit [DecidableEq C] in
theorem settles_closeSlot (hop : op.side = side) (σ : Slot C V) {m : List (ℕ × Got C V)} (hm : m = []) (i : ℕ) :
    Settles op (Chan.State.closeSlot σ side) m i := by
  subst hop
  cases op with
  | send v => exact .inr ⟨by simp [Chan.State.closeSlot, Op.side], hm⟩
  | recv => exact .inr ⟨rfl, hm⟩

theorem Inv.closeFill (hI : Inv calls s) {e : C}     (hh : s.hold ch = some (e, .closing side (some w))) :
    Inv calls ({ s with
      base := s.base.setSlot w (Chan.State.closeSlot (s.base.slot w) side) }.setHold ch
        (some (e, .closing side none))) := by
  have hx : ∀ (e' : C) (z : Hold C V),
      some (e, Hold.closing side none) = some (e', z) → z.claimed = none := by
    intro e' z hz
    cases hz
    rfl
  have := Core.fill hI (σ := Chan.State.closeSlot (s.base.slot w) side)
    (μ := moved s.base.log w.call) hh rfl hx ?_
  · rw [update_eq_self] at this
    exact this
  · rintro c i k rfl - hside hnil
    exact settles_closeSlot hside _ hnil i

theorem Inv.closeStep (hI : Inv calls s) (hc : calls c = .close ch) (ht : s.closeStep c ch = some t) :
    Inv calls t := by
  have hsel : ∀ cases d, calls c ≠ .select cases d := by
    intro cases d he
    rw [hc] at he
    cases he
  unfold State.closeStep at ht
  split at ht
  next hh =>
    split at ht
    · split at ht <;> cases ht
      · exact hI.gotoPlain hsel _
      · have hfree : ∀ (d : C) (y : Hold C V), s.hold ch = some (d, y) → y.claimed = none := by
          intro d y he
          rw [hh] at he
          cases he
        have hclosing : ∀ (d : C) (y : Hold C V),
            some (c, Hold.closing .send none) = some (d, y) → y.claimed = none := by
          intro d y he
          cases he
          rfl
        have := Core.setHold hI hfree hclosing
        rw [← show queues (s.base.setChan ch { s.base.chan ch with closed := true }) = queues s.base
          from queues_setChan rfl] at this
        exact this
    · cases ht
  next e side w hh =>
    split at ht <;> cases ht
    next he =>
      subst he
      exact hI.closeFill hh
  next e side hh =>
    split at ht
    next he =>
      have hfree : ∀ (d : C) (y : Hold C V), s.hold ch = some (d, y) → y.claimed = none := by
        intro d y he
        rw [hh] at he
        cases he
        rfl
      split at ht
      next w b hp =>
        cases ht
        exact hI.claims (y := .closing side (some w)) hfree (claims_of_pop hp) rfl c
      next b hp =>
        obtain ⟨hpass, hlog⟩ := passes_of_pop hp
        have hcore := hI.passes hpass
        rw [← hlog] at hcore
        split at ht <;> cases ht
        · refine Core.setHold hcore hfree ?_
          intro d y he
          cases he
          rfl
        next => exact (Core.setHold hcore (x := none) hfree nofun).plain hsel fun _ _ _ _ _ => rfl
    next => cases ht
  next => cases ht

end Runloom.Select
