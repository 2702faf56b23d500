import Runloom.Chan.Balance

/-!
# The references of the channels balance

The accounts of all the calls, added up, are the references in the rings and in the waiter records; a
call that returns has given its caller what it reports; and the last reference to a channel drops what
is in its ring.
-/

namespace Runloom.Chan

open Transition List

variable {H C V : Type*} [DecidableEq C] {calls : C → Call H V} {cap : H → ℕ} {s : State H C V}
  {ch : H} {c : C} {pyNone v : V} {l : List (C × RefOp V)}

/-! ## All of them -/

section Total

variable [DecidableEq H] [DecidableEq V]

def Event.caller : Event H C V → C
  | .accepted _ tx _ _ => tx.call
  | .handed _ rx _ => rx.call
  | .parks _ c => c

omit [DecidableEq H] in
theorem sum_eventsOf (log : List (Event H C V)) (c : C) (v : V) : ((eventsOf log c).map (Event.net v)).sum =
      ((log.filter fun e => e.caller = c).map (Event.net v)).sum := by
  induction log with
  | nil => rfl
  | cons e log ih =>
    rw [eventsOf, filter_cons, filter_cons, ← eventsOf]
    cases e with
    | accepted ch tx x p =>
      by_cases htx : tx.call = c
      · simp only [Event.movedBy, Event.caller, htx, if_true, Option.isSome_some, decide_true,
          map_cons, sum_cons, ih]
      · simp only [Event.movedBy, Event.caller, htx, if_false, Option.isSome_none, decide_false,
          Bool.false_eq_true, ih]
    | handed ch rx x =>
      by_cases hrx : rx.call = c
      · simp only [Event.movedBy, Event.caller, hrx, if_true, Option.isSome_some, decide_true,
          map_cons, sum_cons, ih]
      · simp only [Event.movedBy, Event.caller, hrx, if_false, Option.isSome_none, decide_false,
          Bool.false_eq_true, ih]
    | parks ch d =>
      by_cases hd : d = c
      · simp only [Event.movedBy, Event.caller, hd, Option.isSome_none, Bool.false_eq_true, if_false,
          decide_true, if_true, map_cons, sum_cons, ih, Event.net, Int.zero_add]
      · simp only [Event.movedBy, Event.caller, hd, Option.isSome_none, Bool.false_eq_true, if_false,
          decide_false, ih]

theorem Inv.caller_begun (hI : Inv calls cap s) {T : Finset C} (hT : ∀ c, c ∉ T → s.call c = .idle)
    {e : Event H C V} (he : e ∈ s.log) : e.net v = 0 ∨ e.caller ∈ T := by
  have hbegun : ∀ {c x}, e.movedBy c = some x → c ∈ T := by
    intro c x hx
    by_contra hc
    have hm := hI.moved_of_mem he hx
    have hidle := hT c hc
    rw [hI.moved_of_away (by rw [hidle]; rfl) (by rw [hidle]; nofun)] at hm
    cases hm
  cases e with
  | accepted ch tx x p => exact .inr (hbegun (movedBy_accepted ch tx x p))
  | handed ch rx x => exact .inr (hbegun (movedBy_handed ch rx x))
  | parks ch d => exact .inl rfl

theorem Books.total (hB : Books calls pyNone s l) (hI : Inv calls cap s) {T : Finset C}
    (hidle : ∀ c, c ∉ T → s.call c = .idle) (hT : ∀ e ∈ l, e.1 ∈ T) (v : V) :
    held l v = ∑ ch ∈ (s.log.map Event.on).toFinset, ((ring cap s ch).countP (isValue v) : ℤ) +
        ∑ c ∈ T, ∑ w ∈ waitersOf calls c, (if Untaken calls s v w then 1 else 0) +
        ∑ c ∈ T, ∑ w ∈ waitersOf calls c, (if Delivered calls s v w then 1 else 0) := by
  have hcalls : held l v = ∑ c ∈ T, ((opsOf l c).map (RefOp.held v)).sum := by
    rw [held, sum_by_key Prod.fst fun e he => .inr (hT e he)]
    refine Finset.sum_congr rfl fun c _ => ?_
    rw [opsOf, map_map]
    rfl
  have hevents : ∑ c ∈ T, ((eventsOf s.log c).map (Event.net v)).sum =
      ∑ ch ∈ (s.log.map Event.on).toFinset, ((ring cap s ch).countP (isValue v) : ℤ) := by
    rw [Finset.sum_congr rfl fun c _ => sum_eventsOf s.log c v,
      ← sum_by_key Event.caller fun e he => hI.caller_begun hidle he,
      sum_by_key Event.on (S := (s.log.map Event.on).toFinset) fun e he =>
        .inr (mem_toFinset.mpr (mem_map_of_mem he))]
    exact Finset.sum_congr rfl fun ch _ => hI.ring_balance ch v
  rw [hcalls, Finset.sum_congr rfl fun c _ => hB.call_balance hI c v, Finset.sum_add_distrib, hevents,
    Finset.sum_congr rfl fun c _ => Finset.sum_add_distrib, Finset.sum_add_distrib]
  omega

theorem Books.counted (hB : Books calls pyNone s l) (hI : Inv calls cap s) (v : V) :
    ∃ a b n, Counted (Buffered cap s v) a ∧ Counted (Untaken calls s v) b ∧
      Counted (Delivered calls s v) n ∧ held l v = a + b + n := by
  obtain ⟨T, hidle, hT⟩ := hB.begun
  have hwaiting : ∀ w : Waiter C, (s.call w.call).waiting = true → w.call ∈ T := by
    intro w hw
    by_contra hc
    rw [hidle w.call hc] at hw
    cases hw
  have hkind : ∀ (p : Waiter C → Prop) [DecidablePred p],
      (∀ w, p w → (s.call w.call).waiting = true ∧ ∃ b, opOf calls w = some b) →
      Counted p (∑ c ∈ T, ∑ w ∈ waitersOf calls c, if p w then 1 else 0) := by
    intro p _ hp
    refine counted_by_key Waiter.call (fun c _ => ?_) fun w hw => hwaiting w (hp w hw).1
    have hc := counted_filter (p := fun w => w.call = c ∧ p w) (S := waitersOf calls c)
      fun w hw => mem_waitersOf.mpr ⟨hw.1, (hp w hw.2).2⟩
    rw [Finset.sum_congr rfl fun w hw => if_congr (and_iff_right (mem_waitersOf.mp hw).1) rfl rfl]
      at hc
    exact hc
  have hop : ∀ {w : Waiter C} {side : Side}, (opOf calls w).map (fun b => b.op.side) = some side →
      ∃ b, opOf calls w = some b := by
    intro w side hs
    obtain ⟨b, hb, -⟩ := Option.map_eq_some_iff.mp hs
    exact ⟨b, hb⟩
  refine ⟨_, _, _, ?_, hkind (Untaken calls s v) fun w hw => ⟨hw.1, hop hw.2.1⟩,
    hkind (Delivered calls s v) fun w hw => ⟨hw.1, hop hw.2.1⟩, hB.total hI hidle hT v⟩
  refine counted_by_key Prod.fst (fun ch _ => counted_ring cap s ch v) fun p hp => ?_
  -- A ring that holds something belongs to a channel that has accepted it.
  have hring : ring cap s p.1 ≠ [] := by
    intro hnil
    have hlen := congrArg List.length hnil
    rw [ring, Ring.contents, length_map, length_range] at hlen
    exact absurd hp.1 (by rw [hlen]; exact Nat.not_lt_zero _)
  obtain ⟨x, hx⟩ := exists_mem_of_ne_nil _ hring
  have hacc : x ∈ accepted s.log p.1 := by
    rw [← (hI.flow p.1).conserve]
    exact mem_append_right _ hx
  obtain ⟨tx, u, q, -, -, he⟩ := hI.value_of_accepted hacc
  exact mem_toFinset.mpr (mem_map.mpr ⟨_, he, rfl⟩)

end Total

/-! ## The end of a channel -/

section Drop

variable [DecidableEq H]

theorem Inv.entry (hI : Inv calls cap s) {i : ℕ} (hi : i < (s.chan ch).len) :
    ∃ x, (s.chan ch).buf (((s.chan ch).head + i) % cap ch) = some x := by
  have hmem : (s.chan ch).buf (((s.chan ch).head + i) % cap ch) ∈ accepted s.log ch := by
    rw [← (hI.flow ch).conserve]
    exact mem_append_right _ (mem_map.mpr ⟨i, mem_range.mpr hi, rfl⟩)
  obtain ⟨tx, u, -, hx, -, -⟩ := hI.value_of_accepted hmem
  exact ⟨_, hx⟩

theorem Inv.chanDecref (hI : Inv calls cap s) (ch : H) : (chanDecref (cap ch) (s.chan ch) 1).2 =
      (ring cap s ch).map fun x => .decref (x.map Item.value) := by
  unfold Chan.chanDecref
  rw [if_neg (by decide)]
  by_cases hcap : cap ch = 0
  · have hlen := (hI.flow ch).len
    rw [hcap, Nat.le_zero] at hlen
    simp only [if_pos hcap, ring, hlen, Ring.contents_zero, map_nil]
  · simp only [if_neg hcap]
    rw [ring, Ring.contents, map_map, map_eq_flatMap]
    refine flatMap_congr fun i hi => ?_
    obtain ⟨x, hx⟩ := hI.entry (mem_range.mp hi)
    rw [Function.comp_apply, hx]
    rfl

omit [DecidableEq H] [DecidableEq C] in
theorem credit_drops [DecidableEq V] (x : List (Option (Item C V))) (v : V) :
    credit (x.map fun y => .decref (y.map Item.value)) v = -(x.countP (isValue v) : ℤ) := by
  induction x with
  | nil => rfl
  | cons y x ih =>
    rw [map_cons, credit_cons, ih, countP_cons]
    simp only [RefOp.credit, isValue, decide_eq_true_eq]
    split <;> omega

end Drop

/-! ## Balance -/

section Balance

variable [DecidableEq H] [DecidableEq V]

/-- The references of the channel code are in the rings, the records and the deliveries; a call that has returned
has balanced its own. -/
theorem references_balance (pyNone : V) (inFiber : C → Bool)
    (h : (ledgered pyNone cap inFiber calls).Reachable (s, l)) :
    (∀ v, ∃ a b n, Counted (Buffered cap s v) a ∧ Counted (Untaken calls s v) b ∧
        Counted (Delivered calls s v) n ∧ held l v = a + b + n) ∧
      (∀ ch i, i < (s.chan ch).len → ∃ v, Buffered cap s v (ch, i)) ∧
      (∀ e ∈ l, e.2 ≠ .decref none ∧ e.2 ≠ .give none) ∧
      (∀ c out, s.call c = .returned out → given (opsOf l c) = out.given pyNone ∧
        ∀ v, credit (opsOf l c) v = out.credit calls pyNone c v) ∧
      ∀ ch, (chanDecref (cap ch) (s.chan ch) 1).2.length = (s.chan ch).len ∧
        given (chanDecref (cap ch) (s.chan ch) 1).2 = [] ∧
        ∀ v, Counted (fun p => p.1 = ch ∧ Buffered cap s v p)
          (-credit (chanDecref (cap ch) (s.chan ch) 1).2 v) := by
  have hr : (channels cap inFiber calls).Reachable s :=
    System.ReachableWith.forget (C := fun _ _ => True) h
  have hI := Inv.of_reachable hr
  have hB := Books.of_reachable h
  refine ⟨hB.counted hI, ?_, hB.sound, ?_, fun ch => ?_⟩
  · intro ch i hi
    obtain ⟨x, hx⟩ := hI.entry hi
    exact ⟨x.value, hi, by rw [hx, Option.map_some]⟩
  · intro c out hpc
    refine ⟨?_, fun v => ?_⟩
    · rw [hB.given, hpc]
      rfl
    · rw [hB.credit, hpc]
      rfl
  · rw [hI.chanDecref ch]
    refine ⟨?_, ?_, fun v => ?_⟩
    · rw [length_map, ring, Ring.contents, length_map, length_range]
    · refine filterMap_eq_nil_iff.mpr fun o ho => ?_
      obtain ⟨x, -, rfl⟩ := mem_map.mp ho
      rfl
    · rw [credit_drops, Int.neg_neg]
      exact counted_ring cap s ch v

/-- A select has parked with two sends; a receiver has taken the first. -/
theorem references_balance_twoSends : ∃ (s : State Unit Bool Bool) (l : List (Bool × RefOp Bool)),
      (ledgered false (fun _ => 0) (fun _ => true) fun c =>
        if c then .select [⟨(), .send true⟩, ⟨(), .send false⟩] false else .recv () true).Reachable (s, l) ∧
        s.call true = .returned (.selected 0 .sent) ∧ given (opsOf l false) = [some true] ∧
        credit (opsOf l true) true = 1 ∧ credit (opsOf l true) false = 0 := by
  obtain ⟨⟨s, l⟩, -, hs, hp⟩ := System.exists_reachable_of_run
    (M := ledgered false (fun _ : Unit => 0) (fun _ : Bool => true) fun c =>
      if c then .select [⟨(), .send true⟩, ⟨(), .send false⟩] false else .recv () true)
    (s := (State.new, []))
    (p := fun q => decide (q.1.call true = .returned (.selected 0 .sent)) &&
      decide (q.1.call false = .returned (.plain (.value (some ⟨.case true 0, true⟩)))))
    ([.call true 0 0, .call true 0 0, .call true 0 0, .call true 0 0, .call true 0 0, .call true 0 0,
      .call true 0 0, .call true 0 0, .call false 0 0, .resume true, .call true 0 0, .call true 0 0,
      .call true 0 0, .call true 0 0, .call true 0 0])
    ⟨init_new, rfl⟩ (by decide +kernel)
  simp only [Bool.and_eq_true, decide_eq_true_eq] at hp
  obtain ⟨htrue, hfalse⟩ := hp
  obtain ⟨-, -, -, hret, -⟩ := references_balance false (fun _ => true) hs
  refine ⟨s, l, hs, htrue, (hret false _ hfalse).1, (hret true _ htrue).2 true, ?_⟩
  exact (hret true _ htrue).2 false

end Balance

end Runloom.Chan
