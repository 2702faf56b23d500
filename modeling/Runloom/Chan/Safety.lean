import Runloom.Chan.SelectSteps

/-!
# Channels: conservation, exactly-once selects, rendezvous

What the invariant gives in every reachable state, for any number of channels of any capacity and
any number of calls.
-/

namespace Runloom.Chan

open Transition List

variable {H C V : Type*} [DecidableEq H] [DecidableEq C] {calls : C → Call H V} {cap : H → ℕ}
  {s t : State H C V} {ch : H} {c : C}

def State.new : State H C V where
  chan _ := { closed := false, head := 0, tail := 0, len := 0, buf := fun _ => none,
              waiters := fun _ => [] }
  slot _ := { value := none, ok := 0, sendResult := 0, queued := false }
  fired _ := none
  retries _ := 0
  call _ := .idle
  log := []

omit [DecidableEq H] [DecidableEq C] in
theorem init_new : Init (State.new : State H C V) :=
  ⟨fun _ => rfl, fun _ => rfl, fun _ => rfl, fun _ => rfl, fun _ _ => rfl, fun _ => rfl, fun _ => rfl,
    rfl⟩

/-! ## Nobody waits who could proceed -/

/-- A sender waits only at a full ring, a receiver at an empty one, both only for one select, and nobody on a closed
channel. -/
theorem rendezvous (inFiber : C → Bool) (h : (channels cap inFiber calls).Reachable s) (ch : H) :
    ((s.chan ch).len ≤ cap ch ∧
      (0 < cap ch → (s.chan ch).tail = ((s.chan ch).head + (s.chan ch).len) % cap ch)) ∧
      (∀ w ∈ (s.chan ch).waiters .send, claimable s.fired w = true → (s.chan ch).len = cap ch) ∧
      (∀ w ∈ (s.chan ch).waiters .recv, claimable s.fired w = true → (s.chan ch).len = 0) ∧
      (∀ w ∈ (s.chan ch).waiters .send, ∀ w' ∈ (s.chan ch).waiters .recv,
        claimable s.fired w = true → claimable s.fired w' = true → ∃ c i j, w = .case c i ∧ w' = .case c j) ∧
      ((s.chan ch).closed = true → ∀ side, ∀ w ∈ (s.chan ch).waiters side,
        claimable s.fired w = false) := by
  have hI := Inv.of_reachable h
  refine ⟨⟨(hI.flow ch).len, (hI.flow ch).tail⟩, hI.queue.full ch, hI.queue.empty ch, ?_, ?_⟩
  · exact fun w hw w' hw' => hI.queue.pair ch w w' hw hw'
  · intro hcl side w hw
    rw [hI.queue.closed ch side hcl] at hw
    cases hw

/-- The second of two senders waits at a ring of one place. -/
theorem rendezvous_secondSender : ∃ s : State Unit Bool Unit,
      (channels (fun _ => 1) (fun _ => true) fun _ => .send () () true).Reachable s ∧
        (s.chan ()).waiters .send = [.plain true] ∧ (s.chan ()).len = 1 := by
  obtain ⟨s, hs, hp⟩ := (channels (fun _ : Unit => 1) (fun _ : Bool => true) fun _ => .send () () true).reaches
    (fun s => (s.chan ()).waiters .send = [.plain true])
    [.call false 0 0, .call true 0 0] init_new (by decide +kernel)
  have hw : (s.chan ()).waiters .send = [.plain true] := hp
  refine ⟨s, hs, hw, ?_⟩
  exact (rendezvous (fun _ => true) hs ()).2.1 (.plain true) (by rw [hw]; exact mem_cons_self) rfl

/-! ## The events of a call -/

def eventsOf (log : List (Event H C V)) (c : C) : List (Event H C V) :=
  log.filter fun e => (e.movedBy c).isSome

omit [DecidableEq H] in
theorem map_eventsOf (log : List (Event H C V)) (c : C) :
    (eventsOf log c).map (Event.movedBy c) = (moved log c).map some := by
  induction log with
  | nil => rfl
  | cons e log ih =>
    cases he : e.movedBy c with
    | none =>
      rw [eventsOf, filter_cons_of_neg (by simp [he]), moved, filterMap_cons_none he]
      exact ih
    | some x =>
      rw [eventsOf, filter_cons_of_pos (by simp [he]), moved, filterMap_cons_some he, map_cons, map_cons, he]
      exact congrArg (List.cons (some x)) ih

variable {log : List (Event H C V)}

section

omit [DecidableEq H]

theorem eventsOf_eq_nil (h : moved log c = []) : eventsOf log c = [] := by
  have hmap := map_eventsOf log c
  rw [h] at hmap
  exact map_eq_nil_iff.mp hmap

theorem eventsOf_eq_singleton {x : ℕ × Got C V} (h : moved log c = [x]) :
    ∃ e, eventsOf log c = [e] ∧ e.movedBy c = some x := by
  have hmap := map_eventsOf log c
  rw [h] at hmap
  obtain ⟨e, he, hx⟩ := map_eq_singleton_iff.mp hmap
  exact ⟨e, he, hx⟩

end

variable {w : Waiter C}

omit [DecidableEq H] [DecidableEq C] in
theorem waiter_eq {w' : Waiter C} {b b' : Case H V} (hw : opOf calls w = some b)
    (hw' : opOf calls w' = some b') (hcall : w'.call = w.call) (hindex : w'.index = w.index) :
    w' = w := by
  cases w with
  | plain c =>
    cases w' with
    | plain c' => exact congrArg _ hcall
    | case c' i =>
      obtain ⟨cases, d, hc, -⟩ := select_of_opOf hw'
      have hcc : c' = c := hcall
      rw [← hcc, opOf_plain hc] at hw
      cases hw
  | case c i =>
    cases w' with
    | plain c' =>
      obtain ⟨cases, d, hc, -⟩ := select_of_opOf hw
      have hcc : c' = c := hcall
      rw [hcc, opOf_plain hc] at hw'
      cases hw'
    | case c' j =>
      have hcc : c' = c := hcall
      have hij : j = i := hindex
      rw [hcc, hij]

omit [DecidableEq H] in
theorem eventsOf_sent (hev : ∀ e ∈ log, EventOk calls e)
    {v : V} (hop : opOf calls w = some ⟨ch, .send v⟩) (hm : moved log w.call = [(w.index, .sent)]) :
    ∃ p, eventsOf log w.call = [.accepted ch w (some ⟨w, v⟩) p] := by
  obtain ⟨e, he, hx⟩ := eventsOf_eq_singleton hm
  have hmem : e ∈ log := mem_of_mem_filter (by rw [← eventsOf, he]; exact mem_cons_self)
  have hok := hev e hmem
  cases e with
  | accepted ch' tx x p =>
    obtain ⟨v', rfl, hop'⟩ := hok
    simp only [Event.movedBy] at hx
    split at hx
    next hcall =>
      have hindex : tx.index = w.index := (Prod.mk.inj (Option.some.inj hx)).1
      have htx : tx = w := waiter_eq hop hop' hcall hindex
      subst htx
      rw [hop] at hop'
      cases hop'
      exact ⟨p, he⟩
    next => cases hx
  | handed ch' rx x =>
    simp only [Event.movedBy] at hx
    split at hx
    · cases (Prod.mk.inj (Option.some.inj hx)).2
    · cases hx
  | parks ch' c => cases hx

variable {x : Option (Item C V)}

omit [DecidableEq H] in
theorem eventsOf_received (hev : ∀ e ∈ log, EventOk calls e) (hop : opOf calls w = some ⟨ch, .recv⟩)
    (hm : moved log w.call = [(w.index, .value x)]) : eventsOf log w.call = [.handed ch w x] := by
  obtain ⟨e, he, hx⟩ := eventsOf_eq_singleton hm
  have hmem : e ∈ log := mem_of_mem_filter (by rw [← eventsOf, he]; exact mem_cons_self)
  have hok := hev e hmem
  cases e with
  | accepted ch' tx x' p =>
    simp only [Event.movedBy] at hx
    split at hx
    · cases (Prod.mk.inj (Option.some.inj hx)).2
    · cases hx
  | handed ch' rx x' =>
    have hop' : opOf calls rx = some ⟨ch', .recv⟩ := hok
    simp only [Event.movedBy] at hx
    split at hx
    next hcall =>
      obtain ⟨hindex, hval⟩ := Prod.mk.inj (Option.some.inj hx)
      have hrx : rx = w := waiter_eq hop hop' hcall hindex
      subst hrx
      rw [hop] at hop'
      cases hop'
      cases hval
      exact he
    next => cases hx
  | parks ch' c => cases hx

/-! ## A call moves at most one value -/

section MovedOnce

omit [DecidableEq H] [DecidableEq C]

variable {op : Op V} {got : Got C V} {m : List (ℕ × Got C V)} {i : ℕ} {k : Slot C V} {closed : H → Bool}

theorem length_of_nil (h : m = []) : m.length ≤ 1 := by
  rw [h]
  exact Nat.zero_le 1

theorem Filled.length_le {cl : Bool} (h : Filled op k m i cl) : m.length ≤ 1 := by
  cases op with
  | send v =>
    rcases h with ⟨-, rfl⟩ | ⟨-, hm, -⟩
    · exact Nat.le_refl 1
    · exact length_of_nil hm
  | recv =>
    rcases h with ⟨-, -, rfl⟩ | ⟨-, -, hm, -⟩
    · exact Nat.le_refl 1
    · exact length_of_nil hm

theorem GotOk.length_le {cl : Bool} (h : GotOk op got m i cl) : m.length ≤ 1 := by
  cases op with
  | send v =>
    rw [h.2]
    exact Nat.le_refl 1
  | recv =>
    rcases h with ⟨-, rfl⟩ | ⟨-, hm, -⟩
    · exact Nat.le_refl 1
    · exact length_of_nil hm

theorem PlainOk.length_le {b : Case H V} {pc : CallPc C V} (h : PlainOk b pc k m closed) : m.length ≤ 1 := by
  cases pc with
  | idle => exact length_of_nil h
  | parked =>
    rcases h with ⟨-, hm⟩ | ⟨-, h⟩
    · exact length_of_nil hm
    · exact h.length_le
  | returned out =>
    cases out with
    | plain got => exact GotOk.length_le h
    | selected k got => exact h.elim
    | sendClosed => exact length_of_nil h.1
    | _ => exact length_of_nil h
  | _ => exact h.elim

theorem SelectWait.length_le {cases : List (Case H V)} {f : Option ℕ} {sl : ℕ → Slot C V}
    (h : SelectWait cases f sl m closed) : m.length ≤ 1 := by
  cases f with
  | none => exact length_of_nil h
  | some k =>
    obtain ⟨b, -, h⟩ := h
    exact h.length_le

theorem SelectOk.length_le {cases : List (Case H V)} {pc : CallPc C V} {f : Option ℕ}
    {sl : ℕ → Slot C V} (h : SelectOk c cases pc f sl m closed) : m.length ≤ 1 := by
  cases pc with
  | install i => exact h.1.length_le
  | abort i | yielded | load | reload => exact SelectWait.length_le h
  | evict i why =>
    cases why with
    | restart => exact length_of_nil h.1
    | reload => exact SelectWait.length_le h
    | finish k => exact h.2.length_le
  | finish k => exact h.2.length_le
  | returned out =>
    cases out with
    | selected k got =>
      obtain ⟨b, -, h⟩ := h
      exact h.length_le
    | plain got => exact h.elim
    | sendClosed => exact length_of_nil h.1
    | _ => exact length_of_nil h
  | parked => exact h.elim
  | _ => exact length_of_nil h

end MovedOnce

theorem Inv.moved_length (hI : Inv calls cap s) (c : C) : (moved s.log c).length ≤ 1 := by
  have hown := hI.own c
  unfold Own at hown
  cases hc : calls c with
  | send ch v b | recv ch b | select cases d =>
    rw [hc] at hown
    exact hown.length_le
  | close ch =>
    rw [hc] at hown
    exact length_of_nil hown.1

/-! ## Reports -/

def Waiter.outcome (got : Got C V) : Waiter C → Outcome C V
  | .plain _ => .plain got
  | .case _ k => .selected k got

theorem Inv.report (hI : Inv calls cap s) {got : Got C V} (h : s.call w.call = .returned (w.outcome got)) :
    ∃ b, opOf calls w = some b ∧ GotOk b.op got (moved s.log w.call) w.index (s.chan b.ch).closed := by
  have hown := hI.own w.call
  unfold Own at hown
  rw [h] at hown
  cases w with
  | plain c =>
    have hcall : Waiter.call (.plain c) = c := rfl
    rw [hcall] at hown
    cases hc : calls c with
    | send ch v b =>
      rw [hc] at hown
      exact ⟨⟨ch, .send v⟩, by simp only [opOf, hc], hown⟩
    | recv ch b =>
      rw [hc] at hown
      exact ⟨⟨ch, .recv⟩, by simp only [opOf, hc], hown⟩
    | close ch =>
      rw [hc] at hown
      exact absurd rfl (hown.2 got 0).1
    | select cases d =>
      rw [hc] at hown
      exact hown.elim
  | case c i =>
    have hcall : Waiter.call (.case c i) = c := rfl
    rw [hcall] at hown
    cases hc : calls c with
    | send ch v b | recv ch b =>
      rw [hc] at hown
      exact hown.elim
    | close ch =>
      rw [hc] at hown
      exact absurd rfl (hown.2 got i).2
    | select cases d =>
      rw [hc] at hown
      obtain ⟨b, hb, hgot⟩ := hown
      exact ⟨b, (opOf_case hc).trans hb, hgot⟩

omit [DecidableEq H] [DecidableEq C] in
theorem GotOk.eq_of_moved {op : Op V} {got g : Got C V} {i k : ℕ} {cl : Bool}
    (h : GotOk op g [(i, got)] k cl) : k = i ∧ g = got := by
  cases op with
  | send v =>
    obtain ⟨rfl, hm⟩ := h
    cases hm
    exact ⟨rfl, rfl⟩
  | recv =>
    rcases h with ⟨-, hm⟩ | ⟨-, hm, -⟩
    · cases hm
      exact ⟨rfl, rfl⟩
    · cases hm

theorem Inv.report_of_moved (hI : Inv calls cap s) {b : Case H V} {got : Got C V}
    {out : Outcome C V} (hop : opOf calls w = some b)
    (hm : moved s.log w.call = [(w.index, got)]) (h : s.call w.call = .returned out) :
    out = w.outcome got := by
  cases w with
  | plain c =>
    have hm : moved s.log c = [(0, got)] := hm
    have hown := (Own.of_plain hop).mp (hI.own c)
    rw [show s.call c = .returned out from h, hm] at hown
    cases out with
    | plain g =>
      rw [(GotOk.eq_of_moved hown).2]
      rfl
    | selected k g => exact hown.elim
    | sendClosed => cases hown.1
    | _ => cases hown
  | case c i =>
    have hm : moved s.log c = [(i, got)] := hm
    obtain ⟨cases, d, hc, -⟩ := select_of_opOf hop
    have hown := (Own.of_select hc).mp (hI.own c)
    rw [show s.call c = .returned out from h, hm] at hown
    cases out with
    | selected k g =>
      obtain ⟨b', -, hgot⟩ := hown
      obtain ⟨rfl, rfl⟩ := hgot.eq_of_moved
      rfl
    | plain g => exact hown.elim
    | sendClosed => cases hown.1
    | _ => cases hown

theorem Inv.moved_of_mem (hI : Inv calls cap s) {e : Event H C V} {x : ℕ × Got C V}
    (he : e ∈ s.log) (hx : e.movedBy c = some x) : moved s.log c = [x] := by
  have hmem : x ∈ moved s.log c := mem_filterMap.mpr ⟨e, he, hx⟩
  have hlen := hI.moved_length c
  cases hm : moved s.log c with
  | nil =>
    rw [hm] at hmem
    cases hmem
  | cons y l =>
    rw [hm] at hmem hlen
    cases l with
    | nil => rw [mem_singleton.mp hmem]
    | cons z l =>
      simp only [length_cons] at hlen
      omega

section

omit [DecidableEq H]

theorem movedBy_accepted (ch : H) (tx : Waiter C) (x : Option (Item C V)) (p : Bool) :
    Event.movedBy tx.call (.accepted ch tx x p) = some (tx.index, .sent) := if_pos rfl

theorem movedBy_handed (ch : H) (rx : Waiter C) (x : Option (Item C V)) :
    Event.movedBy rx.call (.handed ch rx x) = some (rx.index, .value x) := if_pos rfl

end

/-! ## Conservation -/

/-- The value comes from the operation `w`. -/
def sentBy (w : Waiter C) (x : Option (Item C V)) : Bool :=
  x.any fun item => decide (item.sender = w)

def ring (cap : H → ℕ) (s : State H C V) (ch : H) : List (Option (Item C V)) :=
  Ring.contents (s.chan ch).buf (cap ch) (s.chan ch).head (s.chan ch).len

theorem Inv.accepted_once (hI : Inv calls cap s) {v : V} (hop : opOf calls w = some ⟨ch, .send v⟩)
    (hm : moved s.log w.call = [(w.index, .sent)]) :
    (accepted s.log ch).filter (sentBy w) = [some ⟨w, v⟩] := by
  obtain ⟨p, hevents⟩ := eventsOf_sent hI.events hop hm
  -- Only the events of this call accept a value of `w`.
  have honly : ∀ e ∈ s.log, (Event.acceptedOn ch e).filter (sentBy w) =
      if (e.movedBy w.call).isSome then (Event.acceptedOn ch e).filter (sentBy w) else none := by
    intro e he
    split
    · rfl
    next hnone =>
      cases e with
      | accepted ch' tx x q =>
        obtain ⟨v', rfl, -⟩ := hI.events _ he
        have htx : tx ≠ w := by
          rintro rfl
          rw [movedBy_accepted] at hnone
          exact hnone rfl
        simp only [Event.acceptedOn]
        split
        · simp only [Option.filter_some, sentBy, Option.any_some, decide_eq_true_eq, if_neg htx]
        · rfl
      | handed ch' rx x | parks ch' c => rfl
  calc (accepted s.log ch).filter (sentBy w)
      = s.log.filterMap fun e => (Event.acceptedOn ch e).filter (sentBy w) :=
        filter_filterMap ..
    _ = s.log.filterMap fun e =>
          if (e.movedBy w.call).isSome then (Event.acceptedOn ch e).filter (sentBy w) else none :=
        filterMap_congr honly
    _ = (eventsOf s.log w.call).filterMap fun e => (Event.acceptedOn ch e).filter (sentBy w) :=
        (filterMap_filter ..).symm
    _ = [some ⟨w, v⟩] := by
        have hself : sentBy w (some (⟨w, v⟩ : Item C V)) = true := by
          simp only [sentBy, Option.any_some, decide_true]
        rw [hevents, filterMap_cons, filterMap_nil, Event.acceptedOn, if_pos rfl,
          Option.filter_some, if_pos hself]

theorem Inv.value_of_accepted (hI : Inv calls cap s) (hx : x ∈ accepted s.log ch) :
    ∃ tx v p, x = some ⟨tx, v⟩ ∧ opOf calls tx = some ⟨ch, .send v⟩ ∧ .accepted ch tx x p ∈ s.log := by
  obtain ⟨e, he, hon⟩ := mem_filterMap.mp hx
  cases e with
  | accepted ch' tx y p =>
    obtain ⟨v, hy, hop⟩ := hI.events _ he
    simp only [Event.acceptedOn] at hon
    split at hon <;> cases hon
    next hch =>
      subst hch
      exact ⟨tx, v, p, hy, hop, he⟩
  | handed ch' rx y | parks ch' c => cases hon

theorem Inv.accepted_of_handed (hI : Inv calls cap s) (hx : x ∈ handed s.log ch) : x ∈ accepted s.log ch := by
  rw [← (hI.flow ch).conserve]
  exact mem_append_left _ hx

omit [DecidableEq C] in
theorem mem_handed {rx : Waiter C}     (h : .handed ch rx x ∈ log) : x ∈ handed log ch :=
  mem_filterMap.mpr ⟨_, h, if_pos rfl⟩

/-- The values handed to receivers, followed by the ring, are those accepted, in order; each call reports what was
handed on for it. -/
theorem values_conserved (inFiber : C → Bool) (h : (channels cap inFiber calls).Reachable s) :
    (∀ ch, handed s.log ch ++ ring cap s ch = accepted s.log ch) ∧
      (∀ ch, takenSenders s.log ch <+: parkedSenders s.log ch) ∧
      (∀ w : Waiter C, s.call w.call = .returned (w.outcome .sent) → ∃ ch v, opOf calls w = some ⟨ch, .send v⟩ ∧
          (handed s.log ch ++ ring cap s ch).filter (sentBy w) = [some ⟨w, v⟩]) ∧
      (∀ ch, ∀ x ∈ handed s.log ch, ∃ tx v, x = some ⟨tx, v⟩ ∧ opOf calls tx = some ⟨ch, .send v⟩) ∧
      (∀ (w : Waiter C) x, s.call w.call = .returned (w.outcome (.value x)) →
        ∃ ch, opOf calls w = some ⟨ch, .recv⟩ ∧ eventsOf s.log w.call = [.handed ch w x]) ∧
      (∀ ch (rx : Waiter C) x out, .handed ch rx x ∈ s.log → s.call rx.call = .returned out →
        out = rx.outcome (.value x)) ∧
      ∀ ch (tx : Waiter C) x p out, .accepted ch tx x p ∈ s.log → s.call tx.call = .returned out →
        out = tx.outcome .sent := by
  have hI := Inv.of_reachable h
  refine ⟨fun ch => (hI.flow ch).conserve, fun ch => (hI.fifo ch).order, ?_, ?_, ?_, ?_, ?_⟩
  · intro w hw
    obtain ⟨⟨ch, op⟩, hop, hgot⟩ := hI.report hw
    cases op with
    | send v =>
      refine ⟨ch, v, hop, ?_⟩
      rw [ring, (hI.flow ch).conserve]
      exact hI.accepted_once hop hgot.2
    | recv =>
      rcases hgot with ⟨⟨x, hx⟩, -⟩ | ⟨hx, -⟩ <;> cases hx
  · intro ch x hx
    obtain ⟨tx, v, -, hxv, hop, -⟩ := hI.value_of_accepted (hI.accepted_of_handed hx)
    exact ⟨tx, v, hxv, hop⟩
  · intro w x hw
    obtain ⟨⟨ch, op⟩, hop, hgot⟩ := hI.report hw
    cases op with
    | send v => cases hgot.1
    | recv =>
      rcases hgot with ⟨-, hm⟩ | ⟨hx, -⟩
      · exact ⟨ch, hop, eventsOf_received hI.events hop hm⟩
      · cases hx
  · intro ch rx x out he hpc
    exact hI.report_of_moved (hI.events _ he) (hI.moved_of_mem he (movedBy_handed ch rx x)) hpc
  · intro ch tx x p out he hpc
    obtain ⟨v, -, hop⟩ := hI.events _ he
    exact hI.report_of_moved hop (hI.moved_of_mem he (movedBy_accepted ch tx x p)) hpc

/-- The receiver has parked, and the send hands it its value. -/
theorem values_conserved_handoff : ∃ s : State Unit Bool Unit, (channels (fun _ => 0) (fun _ => true) fun c =>
        if c then .send () () true else .recv () true).Reachable s ∧
        s.call true = .returned (.plain .sent) ∧
        (handed s.log () ++ ring (fun _ => 0) s ()).filter (sentBy (.plain true)) = [some ⟨.plain true, ()⟩] := by
  obtain ⟨s, hs, hp⟩ := (channels (fun _ : Unit => 0) (fun _ : Bool => true) fun c =>
      if c then .send () () true else .recv () true).reaches (fun s => s.call true = .returned (.plain .sent))
    [.call false 0 0, .call true 0 0] init_new (by decide +kernel)
  have hpc : s.call true = .returned (.plain .sent) := hp
  refine ⟨s, hs, hpc, ?_⟩
  obtain ⟨ch, v, -, hfilter⟩ := (values_conserved (fun _ => true) hs).2.2.1 (.plain true) hpc
  exact hfilter

/-! ## Selects -/

/-- The step sets up a new park of the select `c`. -/
def NewPark (c : C) (s t : State H C V) : Prop :=
  s.call c = .scan [] ∧ t.call c = .install 0 ∧ t.fired c = none

/-- A select that returns `k` has moved what its case `k` moves, once, and leaves no waiter in a queue. -/
theorem select_exactly_once (inFiber : C → Bool) (h : (channels cap inFiber calls).Reachable s)
    {cases : List (Case H V)} {d : Bool} (hc : calls c = .select cases d) :
    (∀ as t k, (channels cap inFiber calls).run s as = some t → (channels cap inFiber calls).Meets
        (fun u a => ∀ v, (channels cap inFiber calls).step u a = some v → ¬NewPark c u v) s as →
      s.fired c = some k → t.fired c = some k) ∧
      (∀ k got, s.call c = .returned (.selected k got) → ∃ b, cases[k]? = some b ∧
        ((∃ v p, b.op = .send v ∧ got = .sent ∧
            eventsOf s.log c = [.accepted b.ch (.case c k) (some ⟨.case c k, v⟩) p]) ∨
          (∃ x, b.op = .recv ∧ got = .value (some x) ∧ eventsOf s.log c = [.handed b.ch (.case c k) (some x)]) ∨
          (b.op = .recv ∧ got = .closed ∧ (s.chan b.ch).closed = true ∧ eventsOf s.log c = []))) ∧
      (∀ out, s.call c = .returned out → (∀ k got, out ≠ .selected k got) → eventsOf s.log c = []) ∧
      (∀ ch rx x, .handed ch rx (some x) ∈ s.log → x.sender.call ≠ rx.call) ∧
      (((∃ out, s.call c = .returned out) ∨ s.call c = .retry ∨ s.call c = .start) →
        ∀ ch side, ∀ w ∈ (s.chan ch).waiters side, w.call ≠ c) := by
  have hI := Inv.of_reachable h
  refine ⟨?_, ?_, ?_, ?_, ?_⟩
  · intro as t k hrun hmeets hk
    have hP : Inv calls cap t ∧ t.fired c = some k := by
      refine System.Meets.invariant (P := fun u => Inv calls cap u ∧ u.fired c = some k) ?_ ⟨hI, hk⟩ hmeets hrun
      intro u a v hu hno hstep
      have hnext := hu.1.step hstep
      refine ⟨hnext.inv, ?_⟩
      rcases hnext.kept c k hu.2 with hv | hnew
      · exact hv
      · exact absurd hnew (hno v hstep)
    exact hP.2
  · intro k got hpc
    obtain ⟨b, hop, hgot⟩ := hI.report (w := .case c k) hpc
    refine ⟨b, (opOf_case hc).symm.trans hop, ?_⟩
    cases hb : b.op with
    | send v =>
      rw [hb] at hgot
      have hop' : opOf calls (.case c k) = some ⟨b.ch, .send v⟩ := by
        rw [hop, ← hb]
      obtain ⟨p, hevents⟩ := eventsOf_sent hI.events hop' hgot.2
      exact .inl ⟨v, p, rfl, hgot.1, hevents⟩
    | recv =>
      rw [hb] at hgot
      have hop' : opOf calls (.case c k) = some ⟨b.ch, .recv⟩ := by
        rw [hop, ← hb]
      rcases hgot with ⟨⟨x, rfl⟩, hm⟩ | ⟨rfl, hm, hcl⟩
      · exact .inr (.inl ⟨x, rfl, rfl, eventsOf_received hI.events hop' hm⟩)
      · exact .inr (.inr ⟨rfl, rfl, hcl, eventsOf_eq_nil hm⟩)
  · intro out hpc hout
    have hown := hI.select hc hpc
    apply eventsOf_eq_nil
    cases out with
    | selected k got => exact absurd rfl (hout k got)
    | plain got => exact hown.elim
    | sendClosed => exact hown.1
    | _ => exact hown
  · intro ch rx x he hself
    -- Otherwise the call would have accepted a value and been handed one.
    obtain ⟨tx, v, p, hx, hop, hacc⟩ :=
      hI.value_of_accepted (hI.accepted_of_handed (mem_handed he))
    cases hx
    have hsent := hI.moved_of_mem hacc (movedBy_accepted ch tx _ p)
    have hgot := hI.moved_of_mem he (movedBy_handed ch rx _)
    rw [show tx.call = rx.call from hself, hgot] at hsent
    cases (Prod.mk.inj (List.cons.inj hsent).1).2
  · intro hpc ch side w hw hwc
    obtain ⟨j, -, rfl, -, -, -, hl⟩ := hI.queue.case_of_mem hc hw hwc
    rcases hpc with ⟨out, hpc⟩ | hpc | hpc <;> rw [hpc] at hl <;> exact hl

/-- A select with both sides of one channel parks, and a sender fires its receive. -/
theorem select_exactly_once_bothSides : ∃ s : State Unit Bool Unit,
      (channels (fun _ => 0) (fun _ => true) fun c =>
        if c then .send () () true else .select [⟨(), .recv⟩, ⟨(), .send ()⟩] false).Reachable s ∧
        s.call false = .returned (.selected 0 (.value (some ⟨.plain true, ()⟩))) ∧
        eventsOf s.log false = [.handed () (.case false 0) (some ⟨.plain true, ()⟩)] ∧
        ∀ side, ∀ w ∈ (s.chan ()).waiters side, w.call ≠ false := by
  obtain ⟨s, hs, hp⟩ := (channels (fun _ : Unit => 0) (fun _ : Bool => true) fun c =>
      if c then .send () () true else .select [⟨(), .recv⟩, ⟨(), .send ()⟩] false).reaches
    (fun s => s.call false = .returned (.selected 0 (.value (some ⟨.plain true, ()⟩))))
    ([.call false 0 0, .call false 0 0, .call false 0 0, .call false 0 0, .call false 0 0,
      .call false 0 0, .call false 0 0, .call false 0 0, .call true 0 0, .resume false,
      .call false 0 0, .call false 0 0, .call false 0 0, .call false 0 0, .call false 0 0])
    init_new (by decide +kernel)
  have hpc : s.call false = .returned (.selected 0 (.value (some ⟨.plain true, ()⟩))) :=
    hp
  obtain ⟨-, hret, -, -, hgone⟩ := select_exactly_once (c := false) (fun _ => true) hs rfl
  refine ⟨s, hs, hpc, ?_, hgone (.inl ⟨_, hpc⟩) ()⟩
  obtain ⟨b, hb, hcase⟩ := hret 0 _ hpc
  cases hb
  rcases hcase with ⟨v, p, hop, -⟩ | ⟨x, -, hx, hevents⟩ | ⟨-, hx, -⟩
  · cases hop
  · cases hx
    exact hevents
  · cases hx

end Runloom.Chan
