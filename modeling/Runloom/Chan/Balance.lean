import Runloom.Chan.AccountSelect
import Runloom.Transition.Ledger

/-!
# The books of the channels

Every call's operations on references make up its account (`Books`).  What an account comes to is what
the records of the call hold and what its events have moved; what the events have moved through a
channel is its ring.
-/

namespace Runloom.Chan

open Transition List

variable {H C V : Type*} [DecidableEq C] {calls : C → Call H V} {cap : H → ℕ} {s t : State H C V}
  {ch : H} {c : C} {pyNone v : V} {l : List (C × RefOp V)}

/-! ## The books -/

theorem opsOf_append (l : List (C × RefOp V)) (ops : List (RefOp V)) (c d : C) :
    opsOf (l ++ ops.map (Prod.mk c)) d = opsOf l d ++ if d = c then ops else [] := by
  have hmap : ((ops.map (Prod.mk c)).filter fun e => e.1 = d).map Prod.snd =
      if d = c then ops else [] := by
    rw [filter_map, map_map]
    by_cases hd : d = c
    · have hall : ops.filter ((fun e : C × RefOp V => decide (e.1 = d)) ∘ Prod.mk c) = ops :=
        filter_eq_self.mpr fun _ _ => decide_eq_true hd.symm
      rw [if_pos hd, hall]
      exact map_id ops
    · have hnone : ops.filter ((fun e : C × RefOp V => decide (e.1 = d)) ∘ Prod.mk c) = [] :=
        filter_eq_nil_iff.mpr fun _ _ he => hd (of_decide_eq_true he).symm
      rw [if_neg hd, hnone]
      rfl
  rw [opsOf, filter_append, map_append, hmap]
  rfl

section Books

variable [DecidableEq V]

structure Books (calls : C → Call H V) (pyNone : V) (s : State H C V) (l : List (C × RefOp V)) : Prop where
  records : Records calls s
  sound : ∀ e ∈ l, e.2 ≠ .decref none ∧ e.2 ≠ .give none
  given : ∀ c, given (opsOf l c) = (s.call c).given pyNone
  credit : ∀ c v, credit (opsOf l c) v = (s.call c).credit calls pyNone c v
  begun : ∃ T : Finset C, (∀ c, c ∉ T → s.call c = .idle) ∧ ∀ e ∈ l, e.1 ∈ T

theorem Books.init (h : Init s) : Books calls pyNone s [] where
  records w b _ _ hw := by
    rw [h.call] at hw
    cases hw
  sound := forall_mem_nil _
  given c := by
    rw [h.call]
    rfl
  credit c v := by
    rw [h.call]
    rfl
  begun := ⟨∅, fun c _ => h.call c, forall_mem_nil _⟩

theorem Books.settle (h : Books calls pyNone s l) {ops : List (RefOp V)}
    (hs : Settled calls pyNone s t c ops) : Books calls pyNone t (l ++ ops.map (Prod.mk c)) where
  records := hs.records
  sound e he := by
    rcases mem_append.mp he with he | he
    · exact h.sound e he
    · obtain ⟨o, ho, rfl⟩ := mem_map.mp he
      exact hs.pays.sound o ho
  given d := by
    rw [opsOf_append, given_append, h.given]
    by_cases hd : d = c
    · subst hd
      rw [if_pos rfl, hs.pays.before, nil_append, hs.pays.given]
    · rw [if_neg hd, hs.call d hd, given_nil, append_nil]
  credit d v := by
    rw [opsOf_append, credit_append, h.credit]
    by_cases hd : d = c
    · subst hd
      rw [if_pos rfl, hs.pays.credit]
    · rw [if_neg hd, hs.call d hd, credit_nil, Int.add_zero]
  begun := by
    obtain ⟨T, hidle, hT⟩ := h.begun
    refine ⟨insert c T, fun d hd => ?_, fun e he => ?_⟩
    · rw [Finset.mem_insert, not_or] at hd
      rw [hs.call d hd.1, hidle d hd.2]
    · rcases mem_append.mp he with he | he
      · exact Finset.mem_insert_of_mem (hT e he)
      · obtain ⟨o, -, rfl⟩ := mem_map.mp he
        exact Finset.mem_insert_self c T

variable [DecidableEq H]

theorem Books.of_reachable {inFiber : C → Bool}
    (h : (ledgered pyNone cap inFiber calls).Reachable (s, l)) : Books calls pyNone s l := by
  have hboth : Inv calls cap s ∧ Books calls pyNone s l := by
    refine h.invariant (P := fun p => Inv calls cap p.1 ∧ Books calls pyNone p.1 p.2) ?_ ?_
    · rintro ⟨u, l'⟩ ⟨hu, rfl⟩
      exact ⟨.init hu, .init hu⟩
    · rintro ⟨u, l'⟩ a ⟨t', r⟩ ⟨hI, hB⟩ - hstep
      obtain ⟨ht, rfl⟩ := System.withHistory_step hstep
      exact ⟨(hI.step ht).inv, hB.settle (.step hB.records hI ht)⟩
  exact hboth.2

end Books

/-! ## One call -/

section Call

variable [DecidableEq V]

instance (calls : C → Call H V) (s : State H C V) (v : V) : DecidablePred (Untaken calls s v) :=
  fun _ => inferInstanceAs (Decidable (_ ∧ _ ∧ _))

instance (calls : C → Call H V) (s : State H C V) (v : V) : DecidablePred (Delivered calls s v) :=
  fun _ => inferInstanceAs (Decidable (_ ∧ _ ∧ _))

/-- What an event adds to the references to `v` that are on their way through channels. -/
def Event.net (v : V) : Event H C V → ℤ
  | .accepted _ _ x _ => if x.map Item.value = some v then 1 else 0
  | .handed _ _ x => if x.map Item.value = some v then -1 else 0
  | .parks _ _ => 0

omit [DecidableEq C] in
theorem held_eq (ops : List (RefOp V)) (v : V) :
    (ops.map (RefOp.held v)).sum = credit ops v - ((given ops).count (some v) : ℤ) := by
  induction ops with
  | nil => rfl
  | cons o ops ih =>
    rw [map_cons, sum_cons, ih, credit_cons]
    cases o with
    | incref u =>
      rw [given_incref]
      simp only [RefOp.held, RefOp.credit]
      omega
    | decref u =>
      rw [given_decref]
      simp only [RefOp.held, RefOp.credit]
      omega
    | give u =>
      rw [given_give, count_cons]
      simp only [RefOp.held, RefOp.credit, beq_iff_eq]
      split <;> omega

theorem untaken_add_delivered (h : Records calls s) {w : Waiter C} {b : Case H V}
    (hop : opOf calls w = some b) (hw : (s.call w.call).waiting = true) :
    (if Untaken calls s v w then (1 : ℤ) else 0) + (if Delivered calls s v w then 1 else 0) =
      if (recordValue w b.op (moved s.log w.call)).map Item.value = some v then 1 else 0 := by
  have hvalue := h w b trivial hop hw
  cases hside : b.op.side with
  | send =>
    have hd : ¬Delivered calls s v w := by
      rintro ⟨-, hs, -⟩
      rw [hop, Option.map_some, hside] at hs
      cases hs
    rw [if_neg hd, Int.add_zero, ← hvalue]
    refine if_congr ⟨fun hu => hu.2.2, fun hu => ⟨hw, ?_, hu⟩⟩ rfl rfl
    rw [hop, Option.map_some, hside]
  | recv =>
    have hu : ¬Untaken calls s v w := by
      rintro ⟨-, hs, -⟩
      rw [hop, Option.map_some, hside] at hs
      cases hs
    rw [if_neg hu, Int.zero_add, ← hvalue]
    refine if_congr ⟨fun hd => hd.2.2, fun hd => ⟨hw, ?_, hd⟩⟩ rfl rfl
    rw [hop, Option.map_some, hside]

omit [DecidableEq C] in
theorem sends_eq {w : Waiter C} {b : Case H V} (hop : opOf calls w = some b) :
    (if (recordValue w b.op []).map Item.value = some v then (1 : ℤ) else 0) = sends calls w v := by
  obtain ⟨bch, bop⟩ := b
  cases bop with
  | send u =>
    rw [sends_of_send hop, recordValue_nil]
    simp only [State.freshSlot, Option.map_some, Option.some.injEq]
  | recv =>
    rw [sends_of_recv hop]
    rfl

variable [DecidableEq H]

omit [DecidableEq V] in
theorem Inv.events_of (hI : Inv calls cap s) (c : C) : (eventsOf s.log c = [] ∧ moved s.log c = []) ∨
      (∃ w ch u p, w.call = c ∧ opOf calls w = some ⟨ch, .send u⟩ ∧
        eventsOf s.log c = [.accepted ch w (some ⟨w, u⟩) p] ∧
        moved s.log c = [(w.index, .sent)]) ∨
      ∃ w ch x, w.call = c ∧ opOf calls w = some ⟨ch, .recv⟩ ∧ eventsOf s.log c = [.handed ch w (some x)] ∧
        moved s.log c = [(w.index, .value (some x))] := by
  cases he : eventsOf s.log c with
  | nil =>
    have hmap := map_eventsOf s.log c
    rw [he] at hmap
    exact .inl ⟨rfl, map_eq_nil_iff.mp hmap.symm⟩
  | cons e es =>
    have hmem : e ∈ eventsOf s.log c := by
      rw [he]
      exact mem_cons_self
    obtain ⟨hlog, hsome⟩ := mem_filter.mp hmem
    right
    cases e with
    | accepted ch tx x p =>
      simp only [Event.movedBy, Option.isSome_ite] at hsome
      subst hsome
      obtain ⟨u, rfl, hop⟩ := hI.events _ hlog
      have hm := hI.moved_of_mem hlog (movedBy_accepted ch tx (some ⟨tx, u⟩) p)
      obtain ⟨p', hev⟩ := eventsOf_sent hI.events hop hm
      exact .inl ⟨tx, ch, u, p', rfl, hop, he.symm.trans hev, hm⟩
    | handed ch rx x =>
      simp only [Event.movedBy, Option.isSome_ite] at hsome
      subst hsome
      have hop : opOf calls rx = some ⟨ch, .recv⟩ := hI.events _ hlog
      obtain ⟨tx, u, -, rfl, -, -⟩ := hI.value_of_accepted (hI.accepted_of_handed (mem_handed hlog))
      have hm := hI.moved_of_mem hlog (movedBy_handed ch rx (some ⟨tx, u⟩))
      exact .inr ⟨rx, ch, ⟨tx, u⟩, rfl, hop, he.symm.trans (eventsOf_received hI.events hop hm), hm⟩
    | parks ch d => cases hsome

theorem waiting_balance (h : Records calls s) (hI : Inv calls cap s) (hw : (s.call c).waiting = true) :
    ∑ w ∈ waitersOf calls c, sends calls w v = ∑ w ∈ waitersOf calls c,
        ((if Untaken calls s v w then 1 else 0) + (if Delivered calls s v w then 1 else 0)) +
      ((eventsOf s.log c).map (Event.net v)).sum := by
  -- Record by record, with `n` for what the fired one has moved.
  have hone : ∀ (w₀ : Waiter C) (n : ℤ), w₀ ∈ waitersOf calls c →
      (∀ w b, opOf calls w = some b → w.call = c → w ≠ w₀ →
        recordValue w b.op (moved s.log c) = recordValue w b.op []) →
      (∀ b, opOf calls w₀ = some b → sends calls w₀ v =
        (if (recordValue w₀ b.op (moved s.log c)).map Item.value = some v then 1 else 0) + n) →
      ∑ w ∈ waitersOf calls c, sends calls w v =
        ∑ w ∈ waitersOf calls c, ((if Untaken calls s v w then 1 else 0) +
          (if Delivered calls s v w then 1 else 0)) + n := by
    intro w₀ n hmem hother hself
    have hsum : ∑ w ∈ waitersOf calls c, (if w = w₀ then n else 0) = n := by
      rw [Finset.sum_ite_eq_of_mem' _ _ _ hmem]
    rw [← hsum, ← Finset.sum_add_distrib]
    refine Finset.sum_congr rfl fun w hwc => ?_
    obtain ⟨rfl, b, hop⟩ := mem_waitersOf.mp hwc
    rw [untaken_add_delivered h hop hw]
    by_cases hww : w = w₀
    · subst hww
      rw [if_pos rfl]
      exact hself b hop
    · rw [if_neg hww, Int.add_zero, hother w b hop rfl hww, sends_eq hop]
  rcases hI.events_of c with ⟨hev, hm⟩ | ⟨w₀, ch, u, p, rfl, hop, hev, hm⟩ | ⟨w₀, ch, x, rfl, hop, hev, hm⟩
  · rw [hev, map_nil, sum_nil, Int.add_zero]
    refine Finset.sum_congr rfl fun w hwc => ?_
    obtain ⟨rfl, b, hop⟩ := mem_waitersOf.mp hwc
    rw [untaken_add_delivered h hop hw, hm, sends_eq hop]
  · rw [hev]
    refine hone w₀ _ (mem_waitersOf.mpr ⟨rfl, _, hop⟩) ?_ ?_
    · intro w b hop' hcall hne
      rw [hm, recordValue_of_ne]
      exact fun he => hne (waiter_eq hop hop' hcall he.symm)
    · intro b hop'
      rw [hop] at hop'
      cases hop'
      rw [hm, recordValue_sent, sends_of_send hop]
      simp [Event.net]
  · rw [hev]
    refine hone w₀ _ (mem_waitersOf.mpr ⟨rfl, _, hop⟩) ?_ ?_
    · intro w b hop' hcall hne
      rw [hm, recordValue_of_ne]
      exact fun he => hne (waiter_eq hop hop' hcall he.symm)
    · intro b hop'
      rw [hop] at hop'
      cases hop'
      rw [hm, recordValue_got, sends_of_recv hop, show (Got.value (some x)).item = some x from rfl]
      simp only [map_cons, map_nil, sum_cons, sum_nil, Event.net]
      by_cases hx : Option.map Item.value (some x) = some v
      · rw [if_pos hx, if_pos hx]
        rfl
      · rw [if_neg hx, if_neg hx]
        rfl

theorem returned_balance (hI : Inv calls cap s) {out : Outcome C V} (hpc : s.call c = .returned out) :
    out.credit calls pyNone c v - ((out.given pyNone).count (some v) : ℤ) =
      ((eventsOf s.log c).map (Event.net v)).sum := by
  rcases hI.events_of c with ⟨hev, hm⟩ | ⟨w, ch, u, p, rfl, hop, hev, hm⟩ | ⟨w, ch, x, rfl, hop, hev, hm⟩
  · -- Nothing was moved: the channel was closed, or there is no value in the report.
    have hclosed : ∀ (w : Waiter C) (got : Got C V), w.call = c → out = w.outcome got → got = .closed := by
      rintro w got rfl rfl
      obtain ⟨⟨bch, bop⟩, -, hgot⟩ := hI.report hpc
      rw [hm] at hgot
      cases bop with
      | send u => cases hgot.2
      | recv =>
        rcases hgot with ⟨-, hm'⟩ | ⟨hgot, -⟩
        · cases hm'
        · exact hgot
    have hnone : ∀ w : Waiter C, Got.credit calls pyNone w v (.closed : Got C V) -
        (((Got.closed : Got C V).given pyNone).count (some v) : ℤ) = 0 := by
      intro w
      simp only [Got.credit, Got.given, count_cons, count_nil, beq_iff_eq, Option.some.injEq]
      split <;> rfl
    rw [hev]
    cases out with
    | plain got =>
      rw [hclosed (.plain c) got rfl rfl]
      exact hnone (.plain c)
    | selected k got =>
      rw [hclosed (.case c k) got rfl rfl]
      exact hnone (.case c k)
    | _ => rfl
  · rw [hev, hI.report_of_moved hop hm hpc]
    have hsent : Outcome.credit calls pyNone w.call v (w.outcome .sent) = sends calls w v := by
      cases w <;> rfl
    have hnil : Outcome.given pyNone (w.outcome (.sent : Got C V)) = [] := by
      cases w <;> rfl
    rw [hsent, hnil, sends_of_send hop]
    simp [Event.net]
  · rw [hev, hI.report_of_moved hop hm hpc]
    have hzero : Outcome.credit calls pyNone w.call v (w.outcome (.value (some x))) = 0 := by
      cases w <;> rfl
    have hgiven : Outcome.given pyNone (w.outcome (.value (some x))) = [some x.value] := by
      cases w <;> rfl
    rw [hzero, hgiven]
    simp only [count_cons, count_nil, beq_iff_eq, map_cons, map_nil,
      sum_cons, sum_nil, Event.net, Option.map_some]
    split <;> rfl

section

omit [DecidableEq C] [DecidableEq V] [DecidableEq H]

theorem PlainOk.moved_of_away {b : Case H V} {pc : CallPc C V} {k : Slot C V}
    {m : List (ℕ × Got C V)} {closed : H → Bool} (h : PlainOk b pc k m closed)
    (hw : pc.waiting = false) (hret : ∀ out, pc ≠ .returned out) : m = [] := by
  cases pc with
  | idle => exact h
  | parked => cases hw
  | returned out => exact absurd rfl (hret out)
  | _ => exact h.elim

theorem SelectOk.moved_of_away {cases : List (Case H V)} {pc : CallPc C V} {f : Option ℕ}
    {sl : ℕ → Slot C V} {m : List (ℕ × Got C V)} {closed : H → Bool}
    (h : SelectOk c cases pc f sl m closed) (hw : pc.waiting = false)
    (hret : ∀ out, pc ≠ .returned out) : m = [] := by
  cases pc with
  | idle | start | scan order | retry => exact h
  | returned out => exact absurd rfl (hret out)
  | _ => cases hw

end

omit [DecidableEq V] in
theorem Inv.moved_of_away (hI : Inv calls cap s) (hw : (s.call c).waiting = false)
    (hret : ∀ out, s.call c ≠ .returned out) : moved s.log c = [] := by
  have hown := hI.own c
  unfold Own at hown
  cases hc : calls c with
  | send ch u b | recv ch b | select cases d =>
    rw [hc] at hown
    exact hown.moved_of_away hw hret
  | close ch =>
    rw [hc] at hown
    exact hown.1

omit [DecidableEq H] in
theorem CallPc.away {pc : CallPc C V} (hw : pc.waiting = false) (hret : ∀ out, pc ≠ .returned out) :
    pc.credit calls pyNone c v = 0 ∧ pc.given pyNone = [] := by
  cases pc with
  | idle | start | scan order | retry => exact ⟨rfl, rfl⟩
  | returned out => exact absurd rfl (hret out)
  | _ => cases hw

theorem Books.call_balance (hB : Books calls pyNone s l) (hI : Inv calls cap s) (c : C) (v : V) :
    ((opsOf l c).map (RefOp.held v)).sum =
      ∑ w ∈ waitersOf calls c,
        ((if Untaken calls s v w then 1 else 0) + (if Delivered calls s v w then 1 else 0)) +
      ((eventsOf s.log c).map (Event.net v)).sum := by
  rw [held_eq, hB.credit, hB.given]
  cases hw : (s.call c).waiting with
  | true =>
    rw [CallPc.credit_of_waiting hw, CallPc.given_of_waiting hw, count_nil, ← waiting_balance hB.records hI hw]
    exact Int.sub_zero _
  | false =>
    have hzero : ∑ w ∈ waitersOf calls c,
        ((if Untaken calls s v w then (1 : ℤ) else 0) + (if Delivered calls s v w then 1 else 0)) =
          0 := by
      refine Finset.sum_eq_zero fun w hwc => ?_
      obtain ⟨rfl, -⟩ := mem_waitersOf.mp hwc
      rw [if_neg fun hu => Bool.false_ne_true (hw.symm.trans hu.1),
        if_neg fun hd => Bool.false_ne_true (hw.symm.trans hd.1)]
      rfl
    rw [hzero, Int.zero_add]
    by_cases hret : ∃ out, s.call c = .returned out
    · obtain ⟨out, hpc⟩ := hret
      rw [← returned_balance hI hpc, hpc]
      rfl
    · have hnone : ∀ out, s.call c ≠ .returned out := fun out hout => hret ⟨out, hout⟩
      obtain ⟨hcredit, hgiven⟩ : (s.call c).credit calls pyNone c v = 0 ∧
          (s.call c).given pyNone = [] := CallPc.away hw hnone
      rw [eventsOf_eq_nil (hI.moved_of_away hw hnone), hcredit, hgiven]
      rfl

end Call

/-! ## One channel -/

section Channel

variable [DecidableEq H] [DecidableEq V]

/-- The item is the value `v`. -/
def isValue (v : V) (x : Option (Item C V)) : Bool :=
  decide (x.map Item.value = some v)

section

omit [DecidableEq C]

theorem net_eq (e : Event H C V) (v : V) : e.net v = ((accepted [e] e.on).countP (isValue v) : ℤ) -
      ((handed [e] e.on).countP (isValue v) : ℤ) := by
  cases e with
  | accepted ch tx x p | handed ch rx x =>
    simp only [accepted, handed, Event.acceptedOn, Event.handedOn, Event.on, filterMap_cons,
      filterMap_nil, if_true, countP_cons, countP_nil, Event.net, isValue,
      decide_eq_true_eq]
    split <;> rfl
  | parks ch c => rfl

theorem sum_net_on (log : List (Event H C V)) (ch : H) (v : V) :
    ((log.filter fun e => e.on = ch).map (Event.net v)).sum =
      ((accepted log ch).countP (isValue v) : ℤ) - ((handed log ch).countP (isValue v) : ℤ) := by
  induction log with
  | nil => rfl
  | cons e log ih =>
    rw [show e :: log = [e] ++ log from rfl, accepted_append, handed_append, countP_append, countP_append]
    by_cases he : e.on = ch
    · have hnet := net_eq e v
      rw [he] at hnet
      rw [singleton_append, filter_cons_of_pos (by simpa using he), map_cons, sum_cons, ih, hnet]
      push_cast
      omega
    · obtain ⟨ha, hh, -, -⟩ : accepted [e] ch = [] ∧ handed [e] ch = [] ∧ _ ∧ _ :=
        lists_of_other fun e' he' => by
          rw [mem_singleton.mp he']
          exact he
      rw [singleton_append, filter_cons_of_neg (by simpa using he), ih, ha, hh,
        countP_nil, Nat.zero_add, Nat.zero_add]

end

theorem Inv.ring_balance (hI : Inv calls cap s) (ch : H) (v : V) :
    ((s.log.filter fun e => e.on = ch).map (Event.net v)).sum =
      ((ring cap s ch).countP (isValue v) : ℤ) := by
  rw [sum_net_on, ← (hI.flow ch).conserve, countP_append, ring]
  push_cast
  omega

section

omit [DecidableEq C] [DecidableEq H]

theorem counted_entries (ch : H) (f : ℕ → Option (Item C V)) (v : V) (n : ℕ) :
    Counted (fun p : H × ℕ => p.1 = ch ∧ p.2 < n ∧ (f p.2).map Item.value = some v)
      (((List.range n).map f).countP (isValue v)) := by
  induction n with
  | zero => exact counted_zero fun p hp => Nat.not_lt_zero _ hp.2.1
  | succ n ih =>
    rw [range_succ, map_append, countP_append, map_singleton, countP_singleton]
    by_cases hv : (f n).map Item.value = some v
    · rw [if_pos (show isValue v (f n) = true from decide_eq_true hv)]
      refine ih.gain (x := (ch, n)) (fun hp => Nat.lt_irrefl n hp.2.1) fun p => ?_
      constructor
      · rintro ⟨hch, hlt, hp⟩
        rcases Nat.lt_succ_iff_lt_or_eq.mp hlt with hlt | heq
        · exact .inr ⟨hch, hlt, hp⟩
        · exact .inl (Prod.ext hch heq)
      · rintro (rfl | ⟨hch, hlt, hp⟩)
        · exact ⟨rfl, Nat.lt_succ_self n, hv⟩
        · exact ⟨hch, Nat.lt_succ_of_lt hlt, hp⟩
    · rw [if_neg fun h : isValue v (f n) = true => hv (of_decide_eq_true h)]
      refine ih.congr fun p => ?_
      constructor
      · rintro ⟨hch, hlt, hp⟩
        refine ⟨hch, Nat.lt_of_le_of_ne (Nat.le_of_lt_succ hlt) ?_, hp⟩
        intro heq
        exact hv (heq ▸ hp)
      · rintro ⟨hch, hlt, hp⟩
        exact ⟨hch, Nat.lt_succ_of_lt hlt, hp⟩

theorem counted_ring (cap : H → ℕ) (s : State H C V) (ch : H) (v : V) :
    Counted (fun p => p.1 = ch ∧ Buffered cap s v p) ((ring cap s ch).countP (isValue v)) := by
  refine (counted_entries ch _ v _).congr fun p => ?_
  constructor
  · rintro ⟨rfl, hp⟩
    exact ⟨rfl, hp⟩
  · rintro ⟨rfl, hp⟩
    exact ⟨rfl, hp⟩

end

end Channel

end Runloom.Chan
