import Runloom.Chan.Steps

/-!
# Steps of a select

The scan, the installation of the waiters, the abort, the evictions and the two looks at
`fired_case`, and with them the step of every call.
-/

namespace Runloom.Chan

open Transition List

variable {H C V : Type*} [DecidableEq H] [DecidableEq C] {calls : C → Call H V} {cap : H → ℕ}
  {s t : State H C V} {ch : H} {c : C} {pc : CallPc C V}
  {cases : List (Case H V)} {d : Bool} {i : ℕ} {b : Case H V}

section

omit [DecidableEq H] [DecidableEq C]

theorem opOf_case (hc : calls c = .select cases d) : opOf calls (.case c i) = cases[i]? := by
  simp only [opOf, hc]

theorem opOf_plain (hc : calls c = .select cases d) : opOf calls (.plain c) = none := by
  simp only [opOf, hc]

theorem QueueOk.case_of_mem {chan : H → Channel C V} {fired : C → Option ℕ}
    {slot : Waiter C → Slot C V} {call : C → CallPc C V} {side : Side} {w : Waiter C}
    (h : QueueOk calls cap chan fired slot call) (hc : calls c = .select cases d)
    (hw : w ∈ (chan ch).waiters side) (hwc : w.call = c) :
    ∃ j b, w = .case c j ∧ cases[j]? = some b ∧ b.ch = ch ∧ b.op.side = side ∧ LinkedAt (call c) (.case c j) := by
  obtain ⟨b, hop, hch, hside⟩ := h.op ch side w hw
  have hl := h.linked ch side w hw
  cases w with
  | plain e =>
    have he : e = c := hwc
    rw [he, opOf_plain hc] at hop
    cases hop
  | case e j =>
    have he : e = c := hwc
    subst he
    rw [opOf_case hc] at hop
    exact ⟨j, b, rfl, hop, hch, hside, hl⟩

end

theorem Inv.gotoSelect (hI : Inv calls cap s) (hc : calls c = .select cases d)
    (hlink : ∀ ch side j, .case c j ∈ (s.chan ch).waiters side → cases[j]? ≠ none →
      LinkedAt (s.call c) (.case c j) → LinkedAt pc (.case c j))
    (hok : SelectOk c cases pc (s.fired c) (fun i => s.slot (.case c i)) (moved s.log c)
      fun h => (s.chan h).closed) : Next calls cap s (s.goto c pc) := by
  apply hI.goto
  · intro ch side w hw hwc
    obtain ⟨j, b, rfl, hb, -, -, hl⟩ := hI.queue.case_of_mem hc hw hwc
    exact hlink ch side j hw (by rw [hb]; nofun) hl
  · refine (Own.of_select hc).mpr ?_
    rw [update_self]
    exact hok

theorem Inv.select (hI : Inv calls cap s) (hc : calls c = .select cases d) (hpc : s.call c = pc) :
    SelectOk c cases pc (s.fired c) (fun i => s.slot (.case c i)) (moved s.log c) fun h => (s.chan h).closed := by
  subst hpc
  exact (Own.of_select hc).mp (hI.own c)

/-! ## Scan -/

omit [DecidableEq H] [DecidableEq C] in
theorem not_linkedAt_scan (order : List ℕ) (w : Waiter C) : ¬LinkedAt (V := V) (.scan order) w := by
  cases w <;> nofun

theorem Inv.scan (hI : Inv calls cap s) (hc : calls c = .select cases d) {order : List ℕ}
    (hpc : s.call c = .scan (i :: order)) (hb : cases[i]? = some b) :
    ∀ t, (match s.opReady cap b.ch (.case c i) b.op with
      | (.got got, s) => some (s.goto c (.returned (.selected i got)))
      | (.sendClosed, s) => some (s.goto c (.returned .sendClosed))
      | (.notReady, s) => some (s.goto c (.scan order))) = some t → Next calls cap s t := by
  have hunl : ∀ w, ¬LinkedAt (s.call c) w := by
    rw [hpc]
    exact not_linkedAt_scan _
  have hm : moved s.log c = [] := hI.select hc hpc
  have hop : opOf calls (.case c i) = some ⟨b.ch, b.op⟩ := (opOf_case hc).trans hb
  obtain ⟨htried, hok⟩ := hI.opReady hop hunl hm
  intro t ht
  split at ht <;> cases ht
  next got u heq =>
    rw [heq] at htried hok
    replace htried : Tried calls cap s u c := htried
    apply htried.goto_unlinked hunl
    refine (Own.of_select hc).mpr ?_
    rw [update_self]
    exact ⟨b, hb, hok⟩
  next u heq =>
    rw [heq] at htried hok
    replace htried : Tried calls cap s u c := htried
    apply htried.goto_unlinked hunl
    refine (Own.of_select hc).mpr ?_
    rw [update_self]
    exact ⟨hok.1, b, mem_of_getElem? hb, hok.2.1, hok.2.2⟩
  next u heq =>
    rw [heq] at htried hok
    replace htried : Tried calls cap s u c := htried
    apply htried.goto_unlinked hunl
    refine (Own.of_select hc).mpr ?_
    rw [update_self]
    exact hok.1

theorem Inv.newPark (hI : Inv calls cap s) (hc : calls c = .select cases d)
    (hpc : s.call c = .scan []) : Next calls cap s (s.newPark cases c) := by
  have hm : moved s.log c = [] := hI.select hc hpc
  have hnot : ∀ {ch side w}, w ∈ (s.chan ch).waiters side → w.call ≠ c := by
    intro ch side w hw
    apply hI.queue.call_ne _ hw
    rw [hpc]
    exact not_linkedAt_scan _
  have hfired : ∀ e, e ≠ c → (s.newPark cases c).fired e = s.fired e :=
    fun e he => update_of_ne he _ _
  have hslot : ∀ w : Waiter C, w.call ≠ c → (s.newPark cases c).slot w = s.slot w := by
    intro w hw
    cases w with
    | plain e => rfl
    | case e j => exact if_neg hw
  have hclaim : ∀ w : Waiter C, w.call ≠ c → claimable (s.newPark cases c).fired w = claimable s.fired w := by
    intro w hw
    cases w with
    | plain e => rfl
    | case e j => simp only [claimable, hfired e hw]
  refine ⟨⟨?_, hI.flow, hI.fifo, hI.events, ?_⟩, ?_⟩
  · have hmove : QueueOk calls cap s.chan s.fired s.slot (update s.call c (.install 0)) :=
      hI.queue.move fun ch side w hw hwc => absurd hwc (hnot hw)
    refine hmove.shrink (fun _ _ => List.Sublist.refl _) ?_ ?_ ?_ ?_ ?_ hmove.closed
    · intro ch side w hw hx
      rwa [hclaim w (hnot hw)] at hx
    · exact fun ch side w hw _ => hslot w (hnot hw)
    · intro ch side e j he
      by_cases hec : e = c
      · right
        intro hw
        exact hnot hw hec
      · left
        rwa [hfired e hec] at he
    · intro ch w hw hx
      rw [hclaim w (hnot hw)] at hx
      exact hI.queue.full ch w hw hx
    · intro ch w hw hx
      rw [hclaim w (hnot hw)] at hx
      exact hI.queue.empty ch w hw hx
  · intro e
    by_cases he : e = c
    · subst he
      refine (Own.of_select hc).mpr ?_
      simp only [State.newPark, State.goto, update_self]
      refine ⟨hm, (fun k h => by cases h), ?_⟩
      intro j b _ hb
      simp only [if_true, hb]
    · apply (hI.own e).congr
      · exact update_of_ne he _ _
      · exact hfired e he
      · exact fun w hw => hslot w (hw ▸ he)
      · rfl
      · exact fun _ h => h
  · intro e k he
    by_cases hec : e = c
    · right
      rw [hec]
      exact ⟨hpc, update_self .., update_self ..⟩
    · left
      rw [hfired e hec, he]

/-! ## Installation -/

omit [DecidableEq H] in
theorem not_caseReady (h : s.caseReady cap c b = false) (hlen : (s.chan b.ch).len ≤ cap b.ch) :
    (s.chan b.ch).closed = false ∧ (b.op.side = .send → (s.chan b.ch).len = cap b.ch) ∧
      (b.op.side = .recv → (s.chan b.ch).len = 0) ∧
      ∀ x ∈ (s.chan b.ch).waiters (if b.op.side = .send then .recv else .send), ∃ j, x = .case c j := by
  unfold State.caseReady at h
  cases hop : b.op with
  | send v =>
    simp only [hop, Bool.or_eq_false_iff, Bool.and_eq_false_iff, decide_eq_false_iff_not] at h
    obtain ⟨⟨hcl, hroom⟩, hfor⟩ := h
    refine ⟨hcl, fun _ => ?_, nofun, fun x hx => mem_of_hasForeign hfor hx⟩
    rcases hroom with hroom | hroom <;> omega
  | recv =>
    simp only [hop, Bool.or_eq_false_iff, decide_eq_false_iff_not] at h
    obtain ⟨⟨hcl, hlen'⟩, hfor⟩ := h
    refine ⟨hcl, nofun, fun _ => ?_, fun x hx => mem_of_hasForeign hfor hx⟩
    omega

theorem Inv.requeue (hI : Inv calls cap s) (ch : H) (r : Side) (ws : List (Waiter C))
    (hp : plains ws = plains ((s.chan ch).waiters r)) :
    (∀ ch', Flow cap ch' ((s.setQueue ch r ws).chan ch') s.log) ∧
      ∀ ch', Fifo ch' ((s.setQueue ch r ws).chan ch') s.log := by
  constructor <;> intro ch' <;> rw [← append_nil s.log]
  · have hflow := hI.flow ch
    refine forall_channel (P := Flow cap) hI.flow ?_ (fun _ he h => h.of_other he)
      (fun e he => absurd he not_mem_nil) ch'
    rw [append_nil]
    exact ⟨hflow.len, hflow.head, hflow.tail, hflow.conserve⟩
  · refine forall_channel (P := Fifo) hI.fifo ?_ (fun _ he h => h.of_other he)
      (fun e he => absurd he not_mem_nil) ch'
    refine (hI.fifo ch).frame rfl rfl (fun h => h) fun _ => ?_
    cases r with
    | send => simp only [update_self, hp]
    | recv => simp only [update_of_ne (show Side.send ≠ Side.recv by decide)]

theorem Inv.install (hI : Inv calls cap s) (hc : calls c = .select cases d)
    (hpc : s.call c = .install i) (hb : cases[i]? = some b) (hready : s.caseReady cap c b = false) :
    Next calls cap s ((s.setQueue b.ch b.op.side
      ((s.chan b.ch).waiters b.op.side ++ [Waiter.case c i])).goto c (.install (i + 1))) := by
  obtain ⟨hwait, hlt, hfresh⟩ := hI.select hc hpc
  obtain ⟨hopen, hfull, hempty, hpair⟩ := not_caseReady hready (hI.flow b.ch).len
  have hop : opOf calls (.case c i) = some b := (opOf_case hc).trans hb
  have hlinked : ∀ {ch side j}, .case c j ∈ (s.chan ch).waiters side → j < i := by
    intro ch side j hw
    have hl : LinkedAt (s.call c) (.case c j) := hI.queue.linked ch side _ hw
    rw [hpc] at hl
    exact hl
  have hmove : QueueOk calls cap s.chan s.fired s.slot (update s.call c (.install (i + 1))) := by
    apply hI.queue.move
    intro ch side w hw hwc
    obtain ⟨j, -, rfl, -, -, -, -⟩ := hI.queue.case_of_mem hc hw hwc
    exact Nat.lt_succ_of_lt (hlinked hw)
  obtain ⟨hflow, hfifo⟩ := hI.requeue b.ch b.op.side ((s.chan b.ch).waiters b.op.side ++ [Waiter.case c i])
    (by rw [plains_append]; exact append_nil _)
  refine ⟨⟨?_, ?_, ?_, hI.events, ?_⟩, fun e k he => .inl he⟩
  · apply hmove.push (k := { s.chan b.ch with
      waiters := update (s.chan b.ch).waiters b.op.side
        ((s.chan b.ch).waiters b.op.side ++ [Waiter.case c i]) }) hop rfl rfl rfl hopen rfl
    · rw [show Waiter.call (.case c i) = c from rfl, update_self]
      exact Nat.lt_succ_self i
    · exact fun hw => Nat.lt_irrefl i (hlinked hw)
    · exact fun _ => hfresh i b (Nat.le_refl i) hb
    · rintro j ⟨⟩ hj
      exact Nat.lt_irrefl i (hlt i hj)
    · exact hfull
    · exact hempty
    · intro x hx _
      obtain ⟨j, rfl⟩ := hpair x hx
      exact ⟨c, i, j, rfl, rfl⟩
  · exact hflow
  · exact hfifo
  · intro e
    by_cases he : e = c
    · subst he
      refine (Own.of_select hc).mpr ?_
      simp only [State.goto, State.setQueue, State.setChan, update_self]
      refine ⟨hwait.mono ?_, fun k hk => Nat.lt_succ_of_lt (hlt k hk), ?_⟩
      · exact fun h hh => (closed_update (by rfl) h).trans hh
      · exact fun j b' hj hb' => hfresh j b' (Nat.le_of_succ_le hj) hb'
    · apply (hI.own e).congr
      · exact update_of_ne he _ _
      · rfl
      · exact fun _ _ => rfl
      · rfl
      · exact fun h hh => (closed_update (by rfl) h).trans hh

theorem Inv.abort (hI : Inv calls cap s) (hc : calls c = .select cases d)
    (hpc : s.call c = .abort i) (hf : s.fired c = none) :
    Next calls cap s ({ s with fired := update s.fired c (some i) }.goto c (.evict 0 .restart)) := by
  have hwait := hI.select hc hpc
  rw [hf] at hwait
  have hm : moved s.log c = [] := hwait
  have hfired : ∀ e, e ≠ c → update s.fired c (some i) e = s.fired e :=
    fun e he => update_of_ne he _ _
  have hclaim : ∀ w, claimable (update s.fired c (some i)) w = true → claimable s.fired w = true := by
    intro w hw
    exact claimable_of_claim (w := .case c i) hw
  have hq : QueueOk calls cap s.chan (update s.fired c (some i)) s.slot s.call := by
    apply hI.queue.shrink (fun _ _ => List.Sublist.refl _) (fun _ _ w _ => hclaim w) (fun _ _ _ _ _ => rfl)
    · intro ch side e j he
      by_cases hec : e = c
      · subst hec
        right
        intro hw
        have hl : LinkedAt (s.call e) (.case e j) := hI.queue.linked ch side _ hw
        rw [hpc] at hl
        rw [update_self] at he
        cases he
        exact Nat.lt_irrefl i hl
      · left
        rwa [hfired e hec] at he
    · exact fun ch w hw hx => hI.queue.full ch w hw (hclaim w hx)
    · exact fun ch w hw hx => hI.queue.empty ch w hw (hclaim w hx)
    · exact hI.queue.closed
  refine ⟨⟨?_, hI.flow, hI.fifo, hI.events, ?_⟩, ?_⟩
  · apply hq.move
    intro ch side w hw hwc
    obtain ⟨j, -, rfl, -, -, -, -⟩ := hq.case_of_mem hc hw hwc
    exact Nat.zero_le j
  · intro e
    by_cases he : e = c
    · subst he
      refine (Own.of_select hc).mpr ?_
      simp only [State.goto, update_self]
      exact ⟨hm, Option.some_ne_none i⟩
    · apply (hI.own e).congr
      · exact update_of_ne he _ _
      · exact hfired e he
      · exact fun _ _ => rfl
      · rfl
      · exact fun _ h => h
  · intro e k he
    left
    by_cases hec : e = c
    · rw [hec, hf] at he
      cases he
    · exact (hfired e hec).trans he

/-! ## Eviction -/

theorem plains_erase (ws : List (Waiter C)) : plains (ws.erase (.case c i)) = plains ws := by
  induction ws with
  | nil => rfl
  | cons w ws ih =>
    by_cases hw : w = .case c i
    · subst hw
      rw [erase_cons_head]
      rfl
    · rw [erase_cons_tail (by simpa using hw)]
      cases w with
      | plain e => exact congrArg (List.cons e) ih
      | case e j => exact ih

variable {why : Evict}

omit [DecidableEq C] in
theorem LinkedAt.evict_succ {j : ℕ} (h : LinkedAt (V := V) (.evict i why) (.case c j))
    (hji : j ≠ i) : LinkedAt (V := V) (.evict (i + 1) why) (.case c j) := by
  cases why with
  | restart | reload => exact Nat.lt_of_le_of_ne h (Ne.symm hji)
  | finish k => exact ⟨Nat.lt_of_le_of_ne h.1 (Ne.symm hji), h.2⟩

omit [DecidableEq H] [DecidableEq C] in
theorem SelectOk.evict_succ {f : Option ℕ} {sl : ℕ → Slot C V} {m : List (ℕ × Got C V)} {closed : H → Bool}
    (h : SelectOk c cases (.evict i why) f sl m closed) :
    SelectOk c cases (.evict (i + 1) why) f sl m closed := by
  cases why <;> exact h

/-- `select_evict_self` at one channel: the waiter is in no queue afterwards. -/
theorem Inv.evict (hI : Inv calls cap s) (hc : calls c = .select cases d)
    (hpc : s.call c = .evict i why) (hb : cases[i]? = some b) :
    Next calls cap s ((s.setQueue b.ch b.op.side
      (((s.chan b.ch).waiters b.op.side).erase (.case c i))).goto c (.evict (i + 1) why)) := by
  have hok := hI.select hc hpc
  obtain ⟨hflow, hfifo⟩ := hI.requeue b.ch b.op.side
    (((s.chan b.ch).waiters b.op.side).erase (.case c i)) (plains_erase _)
  set t := s.setQueue b.ch b.op.side (((s.chan b.ch).waiters b.op.side).erase (.case c i)) with ht
  have hsub : ∀ ch side, ((t.chan ch).waiters side).Sublist ((s.chan ch).waiters side) := by
    apply sublist_of_update
    · rfl
    · exact erase_sublist
  have hsame : ∀ ch, (t.chan ch).closed = (s.chan ch).closed ∧ (t.chan ch).len = (s.chan ch).len := by
    intro ch
    simp only [ht, State.setQueue, State.setChan]
    by_cases hch : ch = b.ch
    · subst hch
      rw [update_self]
      exact ⟨rfl, rfl⟩
    · rw [update_of_ne hch]
      exact ⟨rfl, rfl⟩
  have hgone : ∀ ch side, .case c i ∉ (t.chan ch).waiters side := by
    intro ch side hw
    obtain ⟨j, b', hj, hb', hch, hside, -⟩ := hI.queue.case_of_mem hc ((hsub ch side).subset hw) rfl
    cases hj
    rw [hb] at hb'
    cases hb'
    subst hch hside
    simp only [ht, State.setQueue, State.setChan, update_self] at hw
    exact (hI.queue.nodup b.ch b.op.side).not_mem_erase hw
  have hq : QueueOk calls cap t.chan s.fired s.slot s.call := by
    apply hI.queue.shrink hsub (fun _ _ _ _ hx => hx) (fun _ _ _ _ _ => rfl) (fun _ _ _ _ hx => .inl hx)
    · intro ch w hw hx
      rw [(hsame ch).2]
      exact hI.queue.full ch w ((hsub ch .send).subset hw) hx
    · intro ch w hw hx
      rw [(hsame ch).2]
      exact hI.queue.empty ch w ((hsub ch .recv).subset hw) hx
    · intro ch side hcl
      rw [(hsame ch).1] at hcl
      exact sublist_nil.mp (hI.queue.closed ch side hcl ▸ hsub ch side)
  refine ⟨⟨?_, hflow, hfifo, hI.events, ?_⟩, fun e k he => .inl he⟩
  · apply hq.move
    intro ch side w hw hwc
    obtain ⟨j, -, rfl, -, -, -, hl⟩ := hq.case_of_mem hc hw hwc
    have hji : j ≠ i := by
      rintro rfl
      exact hgone ch side hw
    rw [hpc] at hl
    exact hl.evict_succ hji
  · intro e
    by_cases he : e = c
    · subst he
      refine (Own.of_select hc).mpr ?_
      simp only [State.goto, update_self]
      exact (SelectOk.mono hok fun h hh => (hsame h).1.trans hh).evict_succ
    · apply (hI.own e).congr
      · exact update_of_ne he _ _
      · rfl
      · exact fun _ _ => rfl
      · rfl
      · exact fun h hh => (hsame h).1.trans hh

/-! ## The ends of a select -/

omit [DecidableEq H] [DecidableEq C] in
theorem LinkedAt.not_of_evicted {j : ℕ}
    (h : LinkedAt (V := V) (.evict i why) (.case c j)) (hi : cases[i]? = none) :
    cases[j]? = none := by
  have hij : i ≤ j := by
    cases why with
    | restart | reload => exact h
    | finish k => exact h.1
  rw [List.getElem?_eq_none_iff] at hi ⊢
  exact Nat.le_trans hi hij

section

variable (hI : Inv calls cap s)
include hI

theorem Inv.evicted (hc : calls c = .select cases d) (hi : cases[i]? = none) (hpc' : pc = match why with
      | .restart => .retry
      | .reload => .reload
      | .finish k => .finish k)
    (hpc : s.call c = .evict i why) : Next calls cap s (s.goto c pc) := by
  subst hpc'
  have hok := hI.select hc hpc
  apply hI.gotoSelect hc
  · intro ch side j _ hj hl
    rw [hpc] at hl
    exact absurd (hl.not_of_evicted hi) hj
  · cases why with
    | restart => exact hok.1
    | reload | finish k => exact hok

theorem Inv.fire (hc : calls c = .select cases d) {k : ℕ}
    (hpc : s.call c = .load ∨ s.call c = .reload) (hf : s.fired c = some k) :
    Next calls cap s (s.goto c (.evict 0 (.finish k))) := by
  apply hI.gotoSelect hc
  · intro ch side j hw _ _
    refine ⟨Nat.zero_le j, ?_⟩
    rintro rfl
    exact hI.queue.claimed ch side c j hf hw
  · rcases hpc with hpc | hpc <;> exact ⟨hf, hI.select hc hpc⟩

theorem Inv.finish (hc : calls c = .select cases d) {k : ℕ}
    (hpc : s.call c = .finish k) (hb : cases[k]? = some b) :
    ∀ t, (match b.op with
      | .send _ =>
        some (s.goto c (.returned
          (if (s.slot (.case c k)).sendResult = 0 then .selected k .sent else .sendClosed)))
      | .recv =>
        match (s.slot (.case c k)).value with
        | some x => some (s.goto c (.returned (.selected k (.value (some x)))))
        | none => some (s.goto c .retry)) = some t → Next calls cap s t := by
  obtain ⟨hf, hwait⟩ := hI.select hc hpc
  rw [hf] at hwait
  obtain ⟨b', hb', hfill⟩ := hwait
  rw [hb] at hb'
  cases hb'
  have hleave : ∀ pc : CallPc C V, SelectOk c cases pc (s.fired c) (fun i => s.slot (.case c i))
      (moved s.log c) (fun h => (s.chan h).closed) → Next calls cap s (s.goto c pc) := by
    intro pc hok
    apply hI.gotoSelect hc _ hok
    intro ch side j _ _ hl
    rw [hpc] at hl
    exact hl.elim
  intro t ht
  cases hop : b.op with
  | send v =>
    rw [hop] at ht hfill
    cases ht
    apply hleave
    rcases hfill with ⟨hr, hm⟩ | ⟨hr, hm, hcl⟩
    · rw [if_pos hr]
      refine ⟨b, hb, ?_⟩
      simp only [GotOk, hop]
      exact ⟨trivial, hm⟩
    · rw [if_neg (by rw [hr]; decide)]
      exact ⟨hm, b, mem_of_getElem? hb, by rw [hop]; rfl, hcl⟩
  | recv =>
    rw [hop] at ht hfill
    simp only at ht
    rcases hfill with ⟨⟨x, hx⟩, -, hm⟩ | ⟨hv, -, hm, -⟩
    · rw [hx] at ht hm
      cases ht
      apply hleave
      refine ⟨b, hb, ?_⟩
      simp only [GotOk, hop]
      exact .inl ⟨⟨x, rfl⟩, hm⟩
    · rw [hv] at ht
      cases ht
      exact hleave .retry hm

theorem Inv.retry (hc : calls c = .select cases d) (hpc : s.call c = .retry) :
    Next calls cap s ({ s with retries := update s.retries c (s.retries c + 1) }.goto c
      (if 10000000 < s.retries c + 1 then .returned .tooManyRetries else .start)) := by
  have hm : moved s.log c = [] := hI.select hc hpc
  have hJ : Inv calls cap { s with retries := update s.retries c (s.retries c + 1) } :=
    ⟨hI.queue, hI.flow, hI.fifo, hI.events, hI.own⟩
  have hnext : ∀ pc, pc = .returned .tooManyRetries ∨ pc = .start → Next calls cap s
      ({ s with retries := update s.retries c (s.retries c + 1) }.goto c pc) := by
    intro pc hend
    refine ⟨(hJ.gotoSelect hc ?_ ?_).inv, fun _ _ he => .inl he⟩
    · intro ch side j _ _ hl
      have hl : LinkedAt (s.call c) (.case c j) := hl
      rw [hpc] at hl
      exact hl.elim
    · rcases hend with rfl | rfl <;> exact hm
  split
  · exact hnext _ (.inl rfl)
  · exact hnext _ (.inr rfl)

/-! ## Every step -/

theorem Inv.selectStep (hc : calls c = .select cases d) (inFiber : Bool)
    (r₁ r₂ : ℕ) (ht : s.selectStep cap inFiber cases d c r₁ r₂ (s.call c) = some t) :
    Next calls cap s t := by
  have hno : ∀ {pc' : CallPc C V}, (∀ j, ¬LinkedAt (s.call c) (.case c j)) →
      ∀ (ch : H) (side : Side) (j : ℕ), .case c j ∈ (s.chan ch).waiters side → cases[j]? ≠ none →
        LinkedAt (s.call c) (.case c j) → LinkedAt pc' (.case c j) :=
    fun h _ _ j _ _ hl => absurd hl (h j)
  cases hpc : s.call c with
  | idle =>
    rw [hpc] at ht
    have hm : moved s.log c = [] := hI.select hc hpc
    cases ht
    apply hI.gotoSelect hc (hno (by rw [hpc]; exact fun _ => id))
    split <;> exact hm
  | start =>
    rw [hpc] at ht
    have hm : moved s.log c = [] := hI.select hc hpc
    cases ht
    exact hI.gotoSelect hc (hno (by rw [hpc]; exact fun _ => id)) hm
  | scan order =>
    rw [hpc] at ht
    have hm : moved s.log c = [] := hI.select hc hpc
    cases order with
    | nil =>
      simp only [State.selectStep, Option.some.injEq] at ht
      subst ht
      split
      · exact hI.gotoSelect hc (hno (by rw [hpc]; exact fun _ => id)) hm
      · split
        · exact hI.gotoSelect hc (hno (by rw [hpc]; exact fun _ => id)) hm
        · exact hI.newPark hc hpc
    | cons i order =>
      simp only [State.selectStep] at ht
      cases hb : cases[i]? with
      | none =>
        rw [hb] at ht
        cases ht
        exact hI.gotoSelect hc (hno (by rw [hpc]; exact fun _ => id)) hm
      | some b =>
        rw [hb] at ht
        exact hI.scan hc hpc hb t ht
  | install i =>
    rw [hpc] at ht
    obtain ⟨hwait, -⟩ := hI.select hc hpc
    simp only [State.selectStep] at ht
    cases hb : cases[i]? with
    | none =>
      rw [hb] at ht
      cases ht
      exact hI.gotoSelect hc (fun _ _ _ _ _ _ => trivial) hwait
    | some b =>
      rw [hb] at ht
      simp only at ht
      split at ht <;> cases ht
      · refine hI.gotoSelect hc ?_ ?_
        · rw [hpc]
          exact fun _ _ _ _ _ hl => hl
        · exact hwait
      next hready => exact hI.install hc hpc hb (Bool.eq_false_iff.mpr hready)
  | abort i =>
    rw [hpc] at ht
    simp only [State.selectStep] at ht
    split at ht <;> cases ht
    next hf => exact hI.abort hc hpc hf
    · have hwait := hI.select hc hpc
      exact hI.gotoSelect hc (fun _ _ _ _ _ _ => trivial) hwait
  | load =>
    rw [hpc] at ht
    simp only [State.selectStep] at ht
    split at ht <;> cases ht
    next hf =>
      have hwait := hI.select hc hpc
      exact hI.gotoSelect hc (fun _ _ j _ _ _ => Nat.zero_le j) hwait
    next k hf => exact hI.fire hc (.inl hpc) hf
  | evict i why =>
    rw [hpc] at ht
    simp only [State.selectStep] at ht
    cases hb : cases[i]? with
    | none =>
      rw [hb] at ht
      cases ht
      exact hI.evicted hc hb rfl hpc
    | some b =>
      rw [hb] at ht
      simp only at ht
      split at ht
      next hwhy =>
        -- The firing channel is left out: it has popped the waiter already.
        cases ht
        apply hI.gotoSelect hc
        · intro ch side j _ _ hl
          rw [hpc] at hl
          apply hl.evict_succ
          rintro rfl
          rw [hwhy] at hl
          exact hl.2 rfl
        · exact (hI.select hc hpc).evict_succ
      next =>
        cases ht
        exact hI.evict hc hpc hb
  | reload =>
    rw [hpc] at ht
    have hwait := hI.select hc hpc
    simp only [State.selectStep] at ht
    split at ht <;> cases ht
    next hf =>
      rw [hf] at hwait
      exact hI.gotoSelect hc (hno (by rw [hpc]; exact fun _ => id)) hwait
    next k hf => exact hI.fire hc (.inr hpc) hf
  | finish k =>
    rw [hpc] at ht
    simp only [State.selectStep] at ht
    cases hb : cases[k]? with
    | none =>
      rw [hb] at ht
      cases ht
    | some b =>
      rw [hb] at ht
      exact hI.finish hc hpc hb t ht
  | retry =>
    rw [hpc] at ht
    cases ht
    exact hI.retry hc hpc
  | parked | yielded | returned out =>
    rw [hpc] at ht
    cases ht

theorem Inv.callStep (inFiber : Bool) (r₁ r₂ : ℕ)
    (ht : s.callStep cap inFiber (calls c) c r₁ r₂ = some t) : Next calls cap s t := by
  have hidle : ∀ {b : Case H V}, opOf calls (.plain c) = some b → s.call c = .idle → moved s.log c = [] := by
    intro b hop hpc
    have hown := (Own.of_plain hop).mp (hI.own c)
    rw [hpc] at hown
    exact hown
  cases hc : calls c with
  | send ch v blocking =>
    have hop : opOf calls (.plain c) = some ⟨ch, .send v⟩ := by simp only [opOf, hc]
    rw [hc] at ht
    simp only [State.callStep] at ht
    split at ht <;> cases ht
    next hpc => exact hI.plainOp inFiber blocking hpc hop (hidle hop hpc)
  | recv ch blocking =>
    have hop : opOf calls (.plain c) = some ⟨ch, .recv⟩ := by simp only [opOf, hc]
    rw [hc] at ht
    simp only [State.callStep] at ht
    split at ht <;> cases ht
    next hpc => exact hI.plainOp inFiber blocking hpc hop (hidle hop hpc)
  | close ch =>
    rw [hc] at ht
    simp only [State.callStep] at ht
    split at ht <;> cases ht
    next hpc => exact hI.closeOp hpc hc
  | select cases d =>
    rw [hc] at ht
    exact hI.selectStep hc inFiber r₁ r₂ ht

theorem Inv.resume (ht : s.resume (calls c) c = some t) :
    Next calls cap s t := by
  unfold State.resume at ht
  split at ht <;> cases ht
  next ch v blocking hc hpc => exact hI.resumePlain (b := ⟨ch, .send v⟩) hpc (by simp only [opOf, hc])
  next ch blocking hc hpc => exact hI.resumePlain (b := ⟨ch, .recv⟩) hpc (by simp only [opOf, hc])
  next cases d hc hpc =>
    have hwait := hI.select hc hpc
    exact hI.gotoSelect hc (fun _ _ _ _ _ _ => trivial) hwait

theorem Inv.step {inFiber : C → Bool} {a : Action C}
    (ht : Chan.step cap inFiber calls s a = some t) : Next calls cap s t := by
  cases a with
  | call c r₁ r₂ => exact hI.callStep (inFiber c) r₁ r₂ ht
  | resume c => exact hI.resume ht

end

theorem Inv.init (h : Init s) : Inv calls cap s where
  queue := by
    have hnil : ∀ ch side w, w ∉ (s.chan ch).waiters side := by
      intro ch side w hw
      rw [h.waiters] at hw
      cases hw
    exact ⟨fun ch side w hw => absurd hw (hnil ch side w), fun ch side w hw => absurd hw (hnil ch side w),
      fun ch side w _ hw => absurd hw (hnil ch side w), fun ch side => by rw [h.waiters]; exact nodup_nil,
      fun ch side c i _ => hnil ch side _, fun ch w hw => absurd hw (hnil ch _ w),
      fun ch w hw => absurd hw (hnil ch _ w), fun ch w w' hw => absurd hw (hnil ch _ w),
      fun ch side _ => h.waiters ch side⟩
  flow ch := by
    refine ⟨?_, ?_, ?_, ?_⟩
    · rw [h.len]
      exact Nat.zero_le _
    · rw [h.head]
      exact id
    · rw [h.tail, h.head, h.len]
      exact fun _ => (Nat.zero_mod _).symm
    · rw [h.log, h.len, Ring.contents_zero]
      rfl
  fifo ch := by
    rw [h.log]
    exact ⟨prefix_rfl, fun _ => by rw [h.waiters]; rfl⟩
  events := by
    rw [h.log]
    exact fun e he => absurd he not_mem_nil
  own c := by
    unfold Own
    rw [h.call, h.log]
    cases calls c with
    | send ch v b | recv ch b => rfl
    | close ch => exact ⟨rfl, fun got k => ⟨nofun, nofun⟩⟩
    | select cases d => rfl

theorem Inv.of_reachable {inFiber : C → Bool} (h : (channels cap inFiber calls).Reachable s) :
    Inv calls cap s :=
  h.invariant (fun _ hs => .init hs) fun _ _ _ hI _ ha => (Inv.step hI ha).inv

end Runloom.Chan
