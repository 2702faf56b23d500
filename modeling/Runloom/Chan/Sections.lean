import Runloom.Chan.Frames

/-!
# Lock-held sections of send and receive

What `sendReady` and `recvReady` do to a channel in the invariant: they claim one waiter and fill its slot, or find no
claimable waiter and leave the queue empty.
-/

namespace Runloom.Chan

open Transition List
open Function (update update_self update_of_ne update_idem)
open State (record setSlot setQueue setChan bufPush release)

variable {H C V : Type*} [DecidableEq H] [DecidableEq C] {calls : C → Call H V} {cap : H → ℕ}
  {s t : State H C V} {ch : H} {r : Side} {c : C}

structure Tried (calls : C → Call H V) (cap : H → ℕ) (s t : State H C V) (c : C) : Prop where
  queue : QueueOk calls cap t.chan t.fired t.slot t.call
  flow : ∀ ch, Flow cap ch (t.chan ch) t.log
  fifo : ∀ ch, Fifo ch (t.chan ch) t.log
  events : ∀ e ∈ t.log, EventOk calls e
  own : ∀ d, d ≠ c → Own calls t.chan t.fired t.slot t.call t.log d
  call : t.call = s.call
  kept : ∀ d k, s.fired d = some k → t.fired d = some k

theorem Tried.refl (hI : Inv calls cap s) (c : C) : Tried calls cap s s c :=
  ⟨hI.queue, hI.flow, hI.fifo, hI.events, fun d _ => hI.own d, rfl, fun _ _ h => h⟩

variable {k : Channel C V} {l : List (Event H C V)}

section

omit [DecidableEq C]

theorem forall_channel {P : H → Channel C V → List (Event H C V) → Prop}
    (hP : ∀ ch', P ch' (s.chan ch') s.log) (hk : P ch k (s.log ++ l))
    (hother : ∀ ch', (∀ e ∈ l, e.on ≠ ch') → P ch' (s.chan ch') s.log →
      P ch' (s.chan ch') (s.log ++ l)) (hes : ∀ e ∈ l, e.on = ch) (ch' : H) :
    P ch' (update s.chan ch k ch') (s.log ++ l) := by
  by_cases hch : ch' = ch
  · subst hch
    rw [update_self]
    exact hk
  · rw [update_of_ne hch]
    apply hother ch' _ (hP ch')
    intro e he heq
    exact hch (heq.symm.trans (hes e he))

theorem Fifo.of_other {log : List (Event H C V)} (h : Fifo ch k log)
    (hes : ∀ e ∈ l, e.on ≠ ch) : Fifo ch k (log ++ l) := by
  obtain ⟨-, -, hp, ht⟩ := lists_of_other hes
  exact h.frame hp ht (fun hc => hc) fun _ => rfl

theorem closed_update (hcl : k.closed = (s.chan ch).closed) (h : H) :
    (update s.chan ch k h).closed = (s.chan h).closed := by
  by_cases hch : h = ch
  · subst hch
    rw [update_self, hcl]
  · rw [update_of_ne hch]

end

/-! ## One waiter is claimed -/

section Claimed

variable {pre rest : List (Waiter C)} {w : Waiter C} {k : Channel C V} {l : List (Event H C V)}

theorem Inv.waiter (hI : Inv calls cap s) (hq : (s.chan ch).waiters r = pre ++ w :: rest)
    (hw : claimable s.fired w = true) :
    ∃ b, opOf calls w = some b ∧ b.ch = ch ∧ b.op.side = r ∧
      s.slot w = State.freshSlot w b.op ∧ LinkedAt (s.call w.call) w ∧ moved s.log w.call = [] ∧
      (s.chan ch).closed = false := by
  have hmem : w ∈ (s.chan ch).waiters r := by
    rw [hq]
    exact mem_append_right pre mem_cons_self
  obtain ⟨b, hop, hch, hside⟩ := hI.queue.op ch r w hmem
  have hfresh := hI.queue.fresh ch r w b hmem hw hop
  have hlink := hI.queue.linked ch r w hmem
  refine ⟨b, hop, hch, hside, hfresh, hlink, (hI.own w.call).moved_nil hop hlink hw hfresh, ?_⟩
  cases hcl : (s.chan ch).closed with
  | false => rfl
  | true =>
    rw [hI.queue.closed ch r hcl] at hmem
    cases hmem

theorem Inv.claimed (hI : Inv calls cap s) (hq : (s.chan ch).waiters r = pre ++ w :: rest)
    (hw : claimable s.fired w = true) (hchan : t.chan = update s.chan ch k)
    (hk : k.waiters = update (s.chan ch).waiters r rest)
    (hcl : k.closed = (s.chan ch).closed) (hlen : k.len = (s.chan ch).len)
    (hfired : t.fired = claim s.fired w) (hslot : ∀ x, x ≠ w → t.slot x = s.slot x)
    (hqueued : (t.slot w).queued = false) (hcall : t.call = s.call) (hlog : t.log = s.log ++ l)
    (hes : ∀ e ∈ l, e.on = ch) (hmoved : ∀ d, d ≠ c → d ≠ w.call → moved l d = [])
    (hfill : ∀ b, opOf calls w = some b → Filled b.op (t.slot w) (moved l w.call) w.index false)
    (hflow : Flow cap ch k (s.log ++ l)) (hfifo : Fifo ch k (s.log ++ l))
    (hev : ∀ e ∈ l, EventOk calls e) : Tried calls cap s t c := by
  obtain ⟨b, hop, -, -, -, hlink, hnil, -⟩ := hI.waiter hq hw
  have hclosed : ∀ h, (t.chan h).closed = (s.chan h).closed := by
    rw [hchan]
    exact closed_update hcl
  refine ⟨?_, ?_, ?_, ?_, ?_, hcall, ?_⟩
  · rw [hchan, hfired, hcall]
    exact hI.queue.pop_some hq hk hcl hlen hslot
  · rw [hchan, hlog]
    exact forall_channel (P := Flow cap) hI.flow hflow (fun _ he h => h.of_other he) hes
  · rw [hchan, hlog]
    exact forall_channel (P := Fifo) hI.fifo hfifo (fun _ he h => h.of_other he) hes
  · intro e he
    rw [hlog, mem_append] at he
    rcases he with he | he
    · exact hI.events e he
    · exact hev e he
  · intro d hd
    by_cases hdw : d = w.call
    · subst hdw
      have hm : moved t.log w.call = moved l w.call := by
        rw [hlog, moved_append, hnil, nil_append]
      rw [hfired, hcall]
      apply (hI.own w.call).fill hop hlink hw hslot hqueued
      rw [hm]
      exact (hfill b hop).mono nofun
    · apply (hI.own d).congr
      · rw [hcall]
      · rw [hfired, claim_of_ne (Ne.symm hdw)]
      · intro x hx
        exact hslot x fun e => hdw (e ▸ hx.symm)
      · rw [hlog, moved_append, hmoved d hd hdw, append_nil]
      · exact fun h hh => (hclosed h).trans hh
  · intro d j hd
    rw [hfired]
    exact claim_of_fired hw hd

end Claimed

/-! ## No waiter is claimable -/

theorem Inv.drained (hI : Inv calls cap s)     (hnone : ∀ w ∈ (s.chan ch).waiters r, claimable s.fired w = false)
    (hchan : t.chan = update s.chan ch k)
    (hk : k.waiters = update (s.chan ch).waiters r [])
    (hcl : k.closed = (s.chan ch).closed)
    (hfull : r = .recv → ∀ w ∈ (s.chan ch).waiters .send, claimable s.fired w = true → k.len = cap ch)
    (hempty : r = .send → ∀ w ∈ (s.chan ch).waiters .recv, claimable s.fired w = true → k.len = 0)
    (hfired : t.fired = s.fired) (hslot : t.slot = s.slot) (hcall : t.call = s.call)
    (hlog : t.log = s.log ++ l) (hes : ∀ e ∈ l, e.on = ch)
    (hmoved : ∀ d, d ≠ c → moved l d = []) (hflow : Flow cap ch k (s.log ++ l))
    (hp : parkedSenders l ch = []) (ht : takenSenders l ch = [])
    (hev : ∀ e ∈ l, EventOk calls e) : Tried calls cap s t c := by
  have hclosed : ∀ h, (t.chan h).closed = (s.chan h).closed := by
    rw [hchan]
    exact closed_update hcl
  have hplains : plains (k.waiters .send) = plains ((s.chan ch).waiters .send) := by
    rw [hk]
    cases r with
    | send =>
      rw [update_self, plains_of_not_claimable hnone]
      rfl
    | recv => rw [update_of_ne (show Side.send ≠ Side.recv by decide)]
  refine ⟨?_, ?_, ?_, ?_, ?_, hcall, ?_⟩
  · rw [hchan, hfired, hslot, hcall]
    exact hI.queue.pop_none hk hcl hfull hempty
  · rw [hchan, hlog]
    exact forall_channel (P := Flow cap) hI.flow hflow (fun _ he h => h.of_other he) hes
  · rw [hchan, hlog]
    refine forall_channel (P := Fifo) hI.fifo ?_ (fun _ he h => h.of_other he) hes
    exact (hI.fifo ch).frame hp ht (fun h => hcl.symm.trans h) fun _ => hplains
  · intro e he
    rw [hlog, mem_append] at he
    rcases he with he | he
    · exact hI.events e he
    · exact hev e he
  · intro d hd
    apply (hI.own d).congr
    · rw [hcall]
    · rw [hfired]
    · intro x _
      rw [hslot]
    · rw [hlog, moved_append, hmoved d hd, append_nil]
    · exact fun h hh => (hclosed h).trans hh
  · intro d j hd
    rw [hfired]
    exact hd

/-! ## The sections -/

def TryOk (op : Op V) (i : ℕ) (m : List (ℕ × Got C V)) (k : Channel C V) (cap : ℕ) : Try C V → Prop
  | .got got => GotOk op got m i k.closed
  | .sendClosed => m = [] ∧ op.side = .send ∧ k.closed = true
  | .notReady => m = [] ∧ k.closed = false ∧
      match op.side with
      | .send => k.waiters .recv = [] ∧ k.len = cap
      | .recv => k.waiters .send = [] ∧ k.len = 0

omit [DecidableEq H] in
theorem moved_pass (tx rx : Waiter C) (x y : Option (Item C V)) (p : Bool) (hne : tx.call ≠ rx.call)
    (hl : l = [.accepted ch tx y p, .handed ch rx x] ∨ l = [.handed ch rx x, .accepted ch tx y p]) :
    moved l tx.call = [(tx.index, .sent)] ∧ moved l rx.call = [(rx.index, .value x)] ∧
      ∀ d, d ≠ tx.call → d ≠ rx.call → moved l d = [] := by
  have hne' : rx.call ≠ tx.call := Ne.symm hne
  rcases hl with rfl | rfl
  · refine ⟨?_, ?_, ?_⟩
    · simp only [moved, Event.movedBy, filterMap_cons, filterMap_nil, if_true, if_neg hne']
    · simp only [moved, Event.movedBy, filterMap_cons, filterMap_nil, if_true, if_neg hne]
    · intro d htx hrx
      simp only [moved, Event.movedBy, filterMap_cons, filterMap_nil, if_neg (Ne.symm htx), if_neg (Ne.symm hrx)]
  · refine ⟨?_, ?_, ?_⟩
    · simp only [moved, Event.movedBy, filterMap_cons, filterMap_nil, if_true, if_neg hne']
    · simp only [moved, Event.movedBy, filterMap_cons, filterMap_nil, if_true, if_neg hne]
    · intro d htx hrx
      simp only [moved, Event.movedBy, filterMap_cons, filterMap_nil, if_neg (Ne.symm htx), if_neg (Ne.symm hrx)]

section

omit [DecidableEq C]

theorem takenOn_caller (ch' : H) (tx : Waiter C) (x : Option (Item C V)) :
    Event.takenOn ch (.accepted ch' tx x false) = none := by
  cases tx <;> rfl

theorem takenOn_parked (ch : H) (tx : Waiter C) (x : Option (Item C V)) :
    (Event.takenOn ch (.accepted ch tx x true)).toList = plains [tx] := by
  cases tx with
  | plain c =>
    simp only [Event.takenOn, if_true]
    rfl
  | case c i => rfl

end

theorem Inv.buf_head (hI : Inv calls cap s) (hlen : 0 < (s.chan ch).len) :
    ∃ x, (s.chan ch).buf (s.chan ch).head = some x := by
  have hflow := hI.flow ch
  have hcap : 0 < cap ch := by
    have := hflow.len
    omega
  obtain ⟨n, hn⟩ : ∃ n, (s.chan ch).len = n + 1 := ⟨(s.chan ch).len - 1, by omega⟩
  have hmem : (s.chan ch).buf (s.chan ch).head ∈ accepted s.log ch := by
    rw [← hflow.conserve, hn]
    have hle := hflow.len
    rw [hn] at hle
    rw [Ring.contents_pop (x := none) hle (hflow.head hcap)]
    exact mem_append_right _ mem_cons_self
  obtain ⟨e, he, hx⟩ := mem_filterMap.mp hmem
  have hok := hI.events e he
  cases e with
  | accepted ch' tx x p =>
    obtain ⟨v, hv, -⟩ := hok
    simp only [Event.acceptedOn] at hx
    split at hx <;> cases hx
    exact ⟨_, hv⟩
  | handed ch' rx x | parks ch' c => cases hx

section Ready

variable {me : Waiter C}

omit [DecidableEq H] [DecidableEq C] in
theorem eq_of_side {b : Case H V} (hch : b.ch = ch) (hside : b.op.side = .recv) : b = ⟨ch, .recv⟩ := by
  cases b with
  | mk bch bop =>
    cases bop with
    | send v => cases hside
    | recv => rw [← hch]

theorem Inv.sendReady (hI : Inv calls cap s) {v : V} (hop : opOf calls me = some ⟨ch, .send v⟩)
    (hpc : ∀ w, ¬LinkedAt (s.call me.call) w) (hm : moved s.log me.call = []) :
    Tried calls cap s (s.sendReady cap ch me v).2 me.call ∧
      TryOk (.send v) me.index (moved (s.sendReady cap ch me v).2.log me.call)
        ((s.sendReady cap ch me v).2.chan ch) (cap ch) (s.sendReady cap ch me v).1 := by
  unfold State.sendReady
  split
  next hcl => exact ⟨.refl hI _, hm, rfl, hcl⟩
  next hcl =>
  have hopen : (s.chan ch).closed = false := Bool.eq_false_iff.mpr hcl
  have hflow := hI.flow ch
  cases hp : popQueue s.fired ((s.chan ch).waiters .recv) with
  | mk o rest =>
    cases o with
    | some rx =>
      obtain ⟨hrx, pre, hq, -⟩ := popQueue_some hp
      obtain ⟨b, hopr, hbch, hside, -, -, -, -⟩ := hI.waiter hq hrx
      obtain rfl := eq_of_side hbch hside
      have hmem : rx ∈ (s.chan ch).waiters .recv := by
        rw [hq]
        exact mem_append_right pre mem_cons_self
      have hne : rx.call ≠ me.call := hI.queue.call_ne hpc hmem
      obtain ⟨hmt, hmr, hmo⟩ := moved_pass me rx (some ⟨me, v⟩) (some ⟨me, v⟩) false (Ne.symm hne) (.inl rfl)
      have hlen : (s.chan ch).len = 0 := hI.queue.empty ch rx hmem hrx
      have hpass := hflow.pass hlen me rx (some ⟨me, v⟩) false
      simp only [State.waiterPopClaimable, hp]
      constructor
      · refine hI.claimed (k := { s.chan ch with waiters := update (s.chan ch).waiters .recv rest })
          hq hrx rfl rfl rfl rfl rfl ?_ ?_ rfl rfl ?_ ?_ ?_ ?_ ?_ ?_
        · intro x hx
          simp only [record, State.deliver, setSlot, setQueue, setChan, update_of_ne hx]
        · simp only [record, State.deliver, setSlot, update_self]
        · intro e he
          simp only [mem_cons, not_mem_nil, or_false] at he
          rcases he with rfl | rfl <;> rfl
        · exact fun d hd hdr => hmo d hd hdr
        · intro b' hb'
          rw [hopr] at hb'
          cases hb'
          rw [hmr]
          simp only [record, State.deliver, setSlot, update_self]
          exact .inl ⟨⟨_, rfl⟩, rfl, rfl⟩
        · exact ⟨hpass.len, hpass.head, hpass.tail, hpass.conserve⟩
        · refine (hI.fifo ch).frame rfl ?_ (fun h => h) fun _ => rfl
          simp only [takenSenders, filterMap_cons, takenOn_caller]
          rfl
        · intro e he
          simp only [mem_cons, not_mem_nil, or_false] at he
          rcases he with rfl | rfl
          · exact ⟨v, rfl, hop⟩
          · exact hopr
      · simp only [TryOk, record, State.deliver, setSlot, setQueue, setChan, moved_append, hm, nil_append]
        exact ⟨rfl, hmt⟩
    | none =>
      obtain ⟨rfl, hnone⟩ := popQueue_none hp
      simp only [State.waiterPopClaimable, hp]
      split
      next hroom =>
        have hlen : (s.chan ch).len < cap ch := by
          simpa only [setQueue, setChan, update_self] using hroom.2
        have hpush := hflow.push hlen me (some ⟨me, v⟩) false
        have hme : moved ([.accepted ch me (some ⟨me, v⟩) false] : List (Event H C V)) me.call =
            [(me.index, .sent)] := by
          simp only [moved, Event.movedBy, filterMap_cons, filterMap_nil, if_true]
        constructor
        · refine hI.drained (r := .recv) (k := { s.chan ch with
                      buf := update (s.chan ch).buf (s.chan ch).tail (some ⟨me, v⟩),
                      tail := ((s.chan ch).tail + 1) % cap ch, len := (s.chan ch).len + 1,
                      waiters := update (s.chan ch).waiters .recv [] })
            (l := [.accepted ch me (some ⟨me, v⟩) false])
            hnone ?_ rfl rfl ?_ (fun h => by cases h) rfl rfl rfl rfl ?_ ?_ ?_ rfl ?_ ?_
          · simp only [record, bufPush, setQueue, setChan, update_self, update_idem]
          · intro _ w hw hc
            have hfull := hI.queue.full ch w hw hc
            omega
          · intro e he
            rw [mem_singleton.mp he]
            rfl
          · intro d hd
            simp only [moved, Event.movedBy, filterMap_cons, filterMap_nil, if_neg (Ne.symm hd)]
          · exact ⟨hpush.len, hpush.head, hpush.tail, hpush.conserve⟩
          · simp only [takenSenders, filterMap_cons, takenOn_caller]
            rfl
          · intro e he
            rw [mem_singleton.mp he]
            exact ⟨v, rfl, hop⟩
        · simp only [TryOk, record, bufPush, setQueue, setChan, moved_append, hm, nil_append]
          exact ⟨rfl, hme⟩
      next hroom =>
        have hlen : (s.chan ch).len = cap ch := by
          have hle := hflow.len
          simp only [setQueue, setChan, update_self] at hroom
          omega
        constructor
        · refine hI.drained (r := .recv) (l := []) hnone rfl rfl rfl
            (fun _ _ _ _ => hlen) (fun h => by cases h) rfl rfl rfl (append_nil _).symm
            (forall_mem_nil _) (fun _ _ => rfl) ?_ rfl rfl (forall_mem_nil _)
          rw [append_nil]
          exact ⟨hflow.len, hflow.head, hflow.tail, hflow.conserve⟩
        · simp only [TryOk, setQueue, setChan, update_self]
          exact ⟨hm, hopen, trivial, hlen⟩

omit [DecidableEq H] [DecidableEq C] in
theorem exists_of_side {b : Case H V} (hch : b.ch = ch) (hside : b.op.side = .send) : ∃ v, b = ⟨ch, .send v⟩ := by
  cases b with
  | mk bch bop =>
    cases bop with
    | send v => exact ⟨v, by rw [← hch]⟩
    | recv => cases hside

omit [DecidableEq C] in
theorem takenSenders_pass {tx rx : Waiter C} {x y : Option (Item C V)} :
    takenSenders ([.accepted ch tx y true, .handed ch rx x] : List (Event H C V)) ch = plains [tx] ∧
      takenSenders ([.handed ch rx x, .accepted ch tx y true] : List (Event H C V)) ch = plains [tx] := by
  rw [← takenOn_parked ch tx y]
  constructor <;>
    cases h : Event.takenOn ch (.accepted ch tx y true) <;>
    simp only [takenSenders, filterMap_cons, filterMap_nil, h, Option.toList] <;> rfl

/-- A parked sender that a section of `me` takes off the queue. -/
structure Taken (calls : C → Call H V) (s : State H C V) (ch : H) (me tx : Waiter C) (v : V)
    (rest : List (Waiter C)) : Prop where
  op : opOf calls tx = some ⟨ch, .send v⟩
  value : (s.slot tx).value = some ⟨tx, v⟩
  claims : claimable s.fired tx = true
  queue : ∃ pre, (s.chan ch).waiters .send = pre ++ tx :: rest ∧ ∀ w ∈ pre, claimable s.fired w = false
  mem : tx ∈ (s.chan ch).waiters .send
  ne : tx.call ≠ me.call
  nil : moved s.log tx.call = []
  opened : (s.chan ch).closed = false

theorem Inv.taken (hI : Inv calls cap s) {tx : Waiter C} {rest : List (Waiter C)}
    (hpc : ∀ w, ¬LinkedAt (s.call me.call) w)
    (hp : popQueue s.fired ((s.chan ch).waiters .send) = (some tx, rest)) :
    ∃ v, Taken calls s ch me tx v rest := by
  obtain ⟨htx, pre, hq, hpre⟩ := popQueue_some hp
  obtain ⟨b, hop, hbch, hside, hfresh, -, hnil, hopen⟩ := hI.waiter hq htx
  obtain ⟨v, rfl⟩ := exists_of_side hbch hside
  have hmem : tx ∈ (s.chan ch).waiters .send := by
    rw [hq]
    exact mem_append_right pre mem_cons_self
  exact ⟨v, hop, by rw [hfresh]; rfl, htx, ⟨pre, hq, hpre⟩, hmem, hI.queue.call_ne hpc hmem, hnil, hopen⟩

theorem Taken.tried {tx : Waiter C} {v : V} {rest : List (Waiter C)} {x : Item C V} {k : Channel C V}
    {l : List (Event H C V)} (hT : Taken calls s ch me tx v rest) (hI : Inv calls cap s)
    (hop : opOf calls me = some ⟨ch, .recv⟩)
    (hl : l = [.accepted ch tx (some ⟨tx, v⟩) true, .handed ch me (some x)] ∨
      l = [.handed ch me (some x), .accepted ch tx (some ⟨tx, v⟩) true])
    (hchan : t.chan = update s.chan ch k) (hk : k.waiters = update (s.chan ch).waiters .send rest)
    (hcl : k.closed = (s.chan ch).closed) (hlen : k.len = (s.chan ch).len)
    (hfired : t.fired = claim s.fired tx) (hslot : ∀ y, y ≠ tx → t.slot y = s.slot y)
    (hqueued : (t.slot tx).queued = false) (hresult : (t.slot tx).sendResult = 0)
    (hcall : t.call = s.call) (hlog : t.log = s.log ++ l) (hflow : Flow cap ch k (s.log ++ l)) :
    Tried calls cap s t me.call ∧ moved l me.call = [(me.index, .value (some x))] := by
  obtain ⟨pre, hq, hpre⟩ := hT.queue
  obtain ⟨hmt, hmr, hmo⟩ := moved_pass tx me _ _ true hT.ne hl
  have htaken : takenSenders l ch = plains [tx] := by
    rcases hl with rfl | rfl
    · exact takenSenders_pass.1
    · exact takenSenders_pass.2
  have hevents : ∀ e ∈ l, e.on = ch ∧ EventOk calls e := by
    intro e he
    have he' : e = .accepted ch tx (some ⟨tx, v⟩) true ∨ e = .handed ch me (some x) := by
      rcases hl with rfl | rfl
      · simpa using he
      · simpa [or_comm] using he
    rcases he' with rfl | rfl
    · exact ⟨rfl, v, rfl, hT.op⟩
    · exact ⟨rfl, hop⟩
  have hparked : parkedSenders l ch = [] := by rcases hl with rfl | rfl <;> rfl
  refine ⟨hI.claimed hq hT.claims hchan hk hcl hlen hfired hslot hqueued hcall hlog
    (fun e he => (hevents e he).1) (fun d hd hdt => hmo d hdt hd) (fun b hb => ?_) hflow ?_
    fun e he => (hevents e he).2, hmr⟩
  · rw [hT.op] at hb
    cases hb
    rw [hmt]
    exact .inl ⟨hresult, rfl⟩
  · exact (hI.fifo ch).take hq hpre hT.opened (by rw [hk, update_self]) hparked htaken

theorem Inv.recvReady (hI : Inv calls cap s) (hop : opOf calls me = some ⟨ch, .recv⟩)
    (hpc : ∀ w, ¬LinkedAt (s.call me.call) w) (hm : moved s.log me.call = []) :
    Tried calls cap s (s.recvReady cap ch me).2 me.call ∧
      TryOk .recv me.index (moved (s.recvReady cap ch me).2.log me.call)
        ((s.recvReady cap ch me).2.chan ch) (cap ch) (s.recvReady cap ch me).1 := by
  have hflow := hI.flow ch
  unfold State.recvReady
  split
  next hlen =>
    obtain ⟨x, hx⟩ := hI.buf_head hlen
    have hpop := hflow.pop hlen me
    rw [hx] at hpop
    simp only [State.bufPop, State.waiterPopClaimable, setChan, update_self, hx]
    cases hp : popQueue s.fired ((s.chan ch).waiters .send) with
    | mk o rest =>
      cases o with
      | some tx =>
        -- A sender waits only while the ring is full, so its value takes the place just freed.
        obtain ⟨v, hT⟩ := hI.taken hpc hp
        have hfull := hI.queue.full ch tx hT.mem hT.claims
        have hpush := hpop.push (show (s.chan ch).len - 1 < cap ch by omega) tx (some ⟨tx, v⟩) true
        rw [append_assoc] at hpush
        have hlen' : (s.chan ch).len - 1 + 1 = (s.chan ch).len := by omega
        simp only [setQueue, setChan, setSlot, update_self, update_idem, hT.value]
        refine And.imp_right (fun hmr => ?_) (hT.tried (k := { s.chan ch with
                    buf := update (update (s.chan ch).buf (s.chan ch).head none) (s.chan ch).tail (some ⟨tx, v⟩),
                    head := ((s.chan ch).head + 1) % cap ch,
                    tail := ((s.chan ch).tail + 1) % cap ch,
                    len := (s.chan ch).len - 1 + 1,
                    waiters := update (s.chan ch).waiters .send rest })
          hI hop (.inr rfl) ?_ rfl rfl hlen' rfl ?_ ?_ ?_ rfl rfl
          ⟨hpush.len, hpush.head, hpush.tail, hpush.conserve⟩)
        · simp only [TryOk, record, release, setSlot, bufPush, setChan, moved_append, hm, nil_append]
          exact .inl ⟨⟨x, rfl⟩, hmr⟩
        · simp only [record, release, setSlot, bufPush, setChan, update_self, update_idem]
        · intro y hy
          simp only [record, release, setSlot, bufPush, setChan, update_of_ne hy]
        · simp only [record, release, setSlot, bufPush, setChan, update_self]
        · simp only [record, release, setSlot, bufPush, setChan, update_self]
      | none =>
        obtain ⟨rfl, hnone⟩ := popQueue_none hp
        have hme : moved ([.handed ch me (some x)] : List (Event H C V)) me.call =
            [(me.index, .value (some x))] := by
          simp only [moved, Event.movedBy, filterMap_cons, filterMap_nil, if_true]
        constructor
        · refine hI.drained (r := .send) (k := { s.chan ch with
                      buf := update (s.chan ch).buf (s.chan ch).head none,
                      head := ((s.chan ch).head + 1) % cap ch, len := (s.chan ch).len - 1,
                      waiters := update (s.chan ch).waiters .send [] })
            (l := [.handed ch me (some x)])
            hnone ?_ rfl rfl (fun h => by cases h) ?_ rfl rfl rfl rfl ?_ ?_ ?_ rfl rfl ?_
          · simp only [record, setQueue, setChan, update_self, update_idem]
          · intro _ w hw hc
            have hempty := hI.queue.empty ch w hw hc
            omega
          · intro e he
            rw [mem_singleton.mp he]
            rfl
          · intro d hd
            simp only [moved, Event.movedBy, filterMap_cons, filterMap_nil, if_neg (Ne.symm hd)]
          · exact ⟨hpop.len, hpop.head, hpop.tail, hpop.conserve⟩
          · intro e he
            rw [mem_singleton.mp he]
            exact hop
        · simp only [TryOk, record, setQueue, setChan, moved_append, hm, nil_append]
          exact .inl ⟨⟨x, rfl⟩, hme⟩
  next hlen =>
    have hzero : (s.chan ch).len = 0 := by omega
    cases hp : popQueue s.fired ((s.chan ch).waiters .send) with
    | mk o rest =>
      simp only [State.waiterPopClaimable, hp]
      cases o with
      | some tx =>
        obtain ⟨v, hT⟩ := hI.taken hpc hp
        have hpass := hflow.pass hzero tx me (some ⟨tx, v⟩) true
        simp only [setQueue, setChan, setSlot, update_self, hT.value]
        refine And.imp_right (fun hmr => ?_) (hT.tried
          (k := { s.chan ch with waiters := update (s.chan ch).waiters .send rest })
          hI hop (.inl rfl) rfl rfl rfl rfl rfl ?_ ?_ ?_ rfl rfl
          ⟨hpass.len, hpass.head, hpass.tail, hpass.conserve⟩)
        · simp only [TryOk, record, release, setSlot, moved_append, hm, nil_append]
          exact .inl ⟨⟨_, rfl⟩, hmr⟩
        · intro y hy
          simp only [record, release, setSlot, update_of_ne hy]
        · simp only [record, release, setSlot, update_self]
        · simp only [record, release, setSlot, update_self]
      | none =>
        obtain ⟨rfl, hnone⟩ := popQueue_none hp
        constructor
        · refine hI.drained (r := .send) (l := []) hnone rfl rfl rfl (fun h => by cases h)
            (fun _ _ _ _ => hzero) rfl rfl rfl (append_nil _).symm (forall_mem_nil _)
            (fun _ _ => rfl) ?_ rfl rfl (forall_mem_nil _)
          rw [append_nil]
          exact ⟨hflow.len, hflow.head, hflow.tail, hflow.conserve⟩
        · simp only [setQueue, setChan, update_self]
          split
          next hcl => exact .inr ⟨rfl, hm, hcl⟩
          next hcl =>
            simp only [TryOk, Op.side, update_self]
            exact ⟨hm, Bool.eq_false_iff.mpr hcl, trivial, hzero⟩

theorem Inv.opReady (hI : Inv calls cap s) {op : Op V} (hop : opOf calls me = some ⟨ch, op⟩)
    (hpc : ∀ w, ¬LinkedAt (s.call me.call) w) (hm : moved s.log me.call = []) :
    Tried calls cap s (s.opReady cap ch me op).2 me.call ∧
      TryOk op me.index (moved (s.opReady cap ch me op).2.log me.call)
        ((s.opReady cap ch me op).2.chan ch) (cap ch) (s.opReady cap ch me op).1 := by
  cases op with
  | send v => exact hI.sendReady hop hpc hm
  | recv => exact hI.recvReady hop hpc hm

end Ready

end Runloom.Chan
