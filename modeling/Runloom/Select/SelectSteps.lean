import Runloom.Select.Steps

/-!
# Steps of a select

How each place of a select keeps the invariant.  The one step that needs more than the invariant is the
load of `fired_case` after the yield, and `Settled` says what.
-/

namespace Runloom.Select

open Transition Chan

variable {H C V : Type*} [DecidableEq H] [DecidableEq C]
  {calls : C → Call H V} {cap : H → ℕ} {s t : State H C V} {b : Chan.State H C V} {c : C} {ch : H}
  {cases : List (Case H V)} {d : Bool}

variable {pc : CallPc C V}

section

omit [DecidableEq H]

theorem Inv.select (hI : Inv calls s) (hc : calls c = .select cases d) (hpc : s.base.call c = pc) :
    SelectOk cases pc (s.base.fired c) (fun i => s.base.slot (.case c i)) (moved s.base.log c)
      (Pending s.hold c) := by
  have := Core.own hI c cases d hc
  rwa [hpc] at this

theorem Inv.gotoSelect (hI : Inv calls s) (hc : calls c = .select cases d) {pc' : CallPc C V}
    (hpc : s.base.call c = pc)
    (hlinked : ∀ ch side i, .case c i ∈ queues s.base ch side → LinkedAt pc (.case c i) →
      LinkedAt pc' (.case c i))
    (hwaits : ∀ i, Pending s.hold c i → WaitsAt pc i → WaitsAt pc' i)
    (hown : SelectOk cases pc' (s.base.fired c) (fun i => s.base.slot (.case c i))
      (moved s.base.log c) (Pending s.hold c)) :
    Inv calls { s with base := s.base.goto c pc' } := by
  subst hpc
  refine Core.move hI (fun _ _ _ _ _ => rfl) hlinked (fun i hp hw => ⟨hwaits i hp hw, ?_⟩) ?_
  · obtain ⟨ch, e, y, hh, hy⟩ := hp
    exact (Core.waits hI ch e y c i hh hy).2.2
  · intro cases' d' hc'
    rw [hc] at hc'
    cases hc'
    exact hown

theorem Inv.leaveSelect (hI : Inv calls s) (hc : calls c = .select cases d) {pc' : CallPc C V}
    (hpc : s.base.call c = pc) (hun : Unlinked pc)
    (hown : SelectOk cases pc' (s.base.fired c) (fun i => s.base.slot (.case c i))
      (moved s.base.log c) (Pending s.hold c)) :
    Inv calls { s with base := s.base.goto c pc' } :=
  hI.gotoSelect hc hpc (fun _ _ i _ hl => absurd hl (hun c i).1) (fun i _ hw => absurd hw (hun c i).2) hown

end

variable {i : ℕ}

section

variable (hI : Inv calls s)
include hI

theorem Inv.scanReady (hc : calls c = .select cases d) {order : List ℕ}
    (hpc : s.base.call c = .scan (i :: order)) {op : Op V} {r : Try C V}
    (h : opBegin cap s.base ch (.case c i) op = (.ready r, b))
    (hown : ∀ f (sl : ℕ → Slot C V) p, SelectOk cases pc f sl (Try.moves i r) p) :
    Inv calls { s with base := b.goto c pc } := by
  obtain ⟨hpass, hmoved⟩ := passes_of_begin h
  have hnil : moved s.base.log c = [] := hI.select hc hpc
  have hun : Unlinked (b.call c) := by
    rw [hpass.call, hpc]
    exact fun _ _ => ⟨id, id⟩
  refine (hI.passes hpass).leave hun (fun e _ _ _ he => ?_) fun cases' d' hc' => ?_
  · show moved b.log e = moved s.base.log e
    rw [hmoved e, if_neg (show (Waiter.case c i).call ≠ e from Ne.symm he), List.append_nil]
  · rw [hc] at hc'
    cases hc'
    have hmine : moved b.log c = Try.moves i r := by
      rw [hmoved c, hnil, if_pos (show (Waiter.case c i).call = c from rfl)]
      rfl
    show SelectOk cases pc _ _ (moved b.log c) _
    rw [hmine]
    exact hown _ _ _

theorem Inv.scanFill (hc : calls c = .select cases d) {order : List ℕ}
    (hpc : s.base.call c = .scan (i :: order)) {y : Hold C V} (hh : s.hold ch = some (c, y))
    {got : Got C V} (h : opFill cap s.base ch (.case c i) y = some (got, b)) :
    Inv calls ({ s with base := b.goto c (.returned (.selected i got)) }.setHold ch none) := by
  obtain ⟨w, hy, hf⟩ := fills_of_opFill h
  have hnil : moved s.base.log c = [] := hI.select hc hpc
  -- A select in its scan has no waiters, so it is not its own counterparty.
  have hne : w.call ≠ c := by
    intro hwc
    obtain ⟨k, hk, -, -⟩ := Core.held hI ch c y w hh hy
    obtain ⟨hcase, -⟩ := waiter_of_select hk (hwc ▸ hc)
    rw [hwc] at hcase
    have := (Core.waits hI ch c y c w.index hh (hcase ▸ hy)).2.1
    rw [hpc] at this
    exact this
  have hun : Unlinked (b.call c) := by
    rw [hf.call, hpc]
    exact fun _ _ => ⟨id, id⟩
  refine (hI.fills hh hy hf fun _ _ _ _ _ => hne).leave hun (fun e _ _ _ he => hf.moved_other he) ?_
  intro cases' d' hc'
  left
  have := hf.caller hne
  rw [show (Waiter.case c i).call = c from rfl, hnil] at this
  exact this

section

omit [DecidableEq H]

theorem Inv.not_pending (hf : s.base.fired c = none) (i : ℕ) : ¬Pending s.hold c i := by
  rintro ⟨ch, e, y, hh, hy⟩
  have := (Core.waits hI ch e y c i hh hy).1
  rw [hf] at this
  cases this

theorem Inv.newPark (hc : calls c = .select cases d)
    (hpc : s.base.call c = .scan []) : Inv calls { s with base := s.base.newPark cases c } := by
  refine Core.setPark hI (fun e i he => ?_) (fun i hp => ?_) (fun ch side i _ hl => ?_) ?_
  · exact if_neg he
  · obtain ⟨ch, e, y, hh, hy⟩ := hp
    have := (Core.waits hI ch e y c i hh hy).2.1
    rw [hpc] at this
    exact this
  · rw [hpc] at hl
    exact hl.elim
  · intro cases' d' _
    exact ⟨nofun, hI.select hc hpc⟩

end

theorem Inv.install (hc : calls c = .select cases d) {k : Case H V}
    (hpc : s.base.call c = .install i) (hk : cases[i]? = some k) :
    Inv calls { s with base := (s.base.setQueue k.ch k.op.side
      ((s.base.chan k.ch).waiters k.op.side ++ [Waiter.case c i])).goto c (.install (i + 1)) } := by
  have hop : opOf calls (.case c i) = some k := (opOf_case hc).trans hk
  obtain ⟨hlt, hwaits⟩ := hI.select hc hpc
  have hgo : Inv calls { s with base := s.base.goto c (.install (i + 1)) } := by
    apply hI.gotoSelect hc hpc
    · intro _ _ j _ hj
      exact Nat.lt_succ_of_lt hj
    · intro j _ hj
      exact Nat.lt_succ_of_lt hj
    · exact ⟨fun j hj => Nat.lt_succ_of_lt (hlt j hj), hwaits⟩
  have hpush := Core.push hgo hop ?_
  · show Core calls (queues (Chan.State.setQueue _ _ _ _)) _ _ _ _ _
    rw [queues_setQueue]
    exact hpush
  · rintro _ _ ⟨⟩
    refine ⟨?_, fun hf => (Nat.lt_irrefl _ (hlt _ hf)).elim, fun hmem => ?_⟩
    · show LinkedAt (update s.base.call c (.install (i + 1)) c) _
      rw [update_self]
      exact Nat.lt_succ_self i
    · have := Core.linked hI k.ch k.op.side c i hmem
      rw [hpc] at this
      exact Nat.lt_irrefl i this

section

omit [DecidableEq H]

theorem Inv.abort (hc : calls c = .select cases d) (hpc : s.base.call c = .abort i) (hf : s.base.fired c = none) :
    Inv calls { s with base :=
      { s.base with fired := update s.base.fired c (some i) }.goto c (.evict 0 .restart) } := by
  have hown := hI.select hc hpc
  rw [hf] at hown
  refine Core.setPark hI (fun _ _ _ => rfl) (hI.not_pending hf) (fun ch side j _ hl => ?_) ?_
  · rw [hpc] at hl
    refine ⟨Nat.zero_le j, ?_⟩
    rintro ⟨⟩
    exact Nat.lt_irrefl _ hl
  · intro cases' d' _
    exact ⟨hown, nofun⟩

theorem Inv.fire (hc : calls c = .select cases d) {k : ℕ}
    (hpc : s.base.call c = pc) (hf : s.base.fired c = some k) (hno : ∀ i, ¬Pending s.hold c i)
    (hw : Waits cases (s.base.fired c) (fun i => s.base.slot (.case c i)) (moved s.base.log c)
      (Pending s.hold c)) :
    Inv calls { s with base := s.base.goto c (.evict 0 (.finish k)) } := by
  apply hI.gotoSelect hc hpc
  · intro ch side i hmem _
    refine ⟨Nat.zero_le i, ?_⟩
    rintro rfl
    exact Core.claimed hI ch side c i hf hmem
  · exact fun i hp _ => absurd hp (hno i)
  · refine ⟨hf, ?_⟩
    rw [hf] at hw
    exact hw.resolve_left (hno k)

end

end

variable {why : Evict}

omit [DecidableEq H] [DecidableEq C] in
theorem SelectOk.evict_succ {f : Option ℕ} {sl : ℕ → Slot C V}
    {m : List (ℕ × Got C V)} {p : ℕ → Prop} (h : SelectOk cases (.evict i why) f sl m p) :
    SelectOk cases (.evict (i + 1) why) f sl m p := by
  cases why <;> exact h

omit [DecidableEq C] in
theorem WaitsAt.evict_succ {j : ℕ} (h : WaitsAt (.evict i why : CallPc C V) j) (hj : j ≠ i) :
    WaitsAt (.evict (i + 1) why : CallPc C V) j := by
  cases why with
  | restart => exact h
  | reload => exact Nat.lt_of_le_of_ne h (Ne.symm hj)
  | finish k => exact h

/-- One channel of `select_evict_self`, whose lock the select has waited for. -/
theorem Inv.evict (hI : Inv calls s) (hc : calls c = .select cases d)     {k : Case H V} (hpc : s.base.call c = .evict i why) (hk : cases[i]? = some k)
    (hh : s.hold k.ch = none) :
    Inv calls { s with base := (s.base.setQueue k.ch k.op.side
      (((s.base.chan k.ch).waiters k.op.side).erase (.case c i))).goto c (.evict (i + 1) why) } := by
  have hop : opOf calls (.case c i) = some k := (opOf_case hc).trans hk
  have hsub : ((queues s.base k.ch k.op.side).erase (.case c i)).Sublist
    (queues s.base k.ch k.op.side) := List.erase_sublist
  have hI' : Inv calls { s with base := (s.base.setQueue k.ch k.op.side
      ((queues s.base k.ch k.op.side).erase (.case c i))) } := by
    show Core calls (queues (Chan.State.setQueue _ _ _ _)) _ _ _ _ _
    rw [queues_setQueue]
    exact Core.shrink hI (sublist_setAt hsub)
  refine hI'.gotoSelect hc hpc (fun ch side j hmem hl => hl.evict_succ fun hj => ?_)
    (fun j hp hw => hw.evict_succ fun hj => ?_) (hI.select hc hpc).evict_succ
  · subst hj
    -- The waiter could only be in the queue it was erased from.
    obtain ⟨k', hop', rfl, rfl⟩ := Core.op hI' ch side _ hmem
    rw [hop] at hop'
    cases hop'
    rw [show queues _ k.ch k.op.side = _ from congrFun (congrFun (queues_setQueue _ _) k.ch) k.op.side,
      setAt_self] at hmem
    have hone := Core.once hI k.ch k.op.side c j
    have := List.count_pos_iff.mpr hmem
    rw [List.count_erase_self] at this
    omega
  · subst hj
    obtain ⟨ch, e, y, hh', hy⟩ := hp
    obtain ⟨k', hop', hch, -⟩ := Core.held hI ch e y _ hh' hy
    rw [hop] at hop'
    cases hop'
    have hh'' : s.hold ch = some (e, y) := hh'
    rw [← hch, hh] at hh''
    cases hh''

section

omit [DecidableEq H]

theorem Inv.evicted (hI : Inv calls s) (hc : calls c = .select cases d)     (hpc : s.base.call c = .evict i why) (hi : cases[i]? = none)
    (hown : SelectOk cases (.evict i why) (s.base.fired c) (fun i => s.base.slot (.case c i))
      (moved s.base.log c) (Pending s.hold c) →
      SelectOk cases pc (s.base.fired c) (fun i => s.base.slot (.case c i)) (moved s.base.log c)
        (Pending s.hold c)) :
    Inv calls { s with base := s.base.goto c pc } := by
  refine hI.gotoSelect hc hpc (fun ch side j hmem hl => ?_) (fun j hp hw => ?_) (hown (hI.select hc hpc))
  · obtain ⟨k, hop, -, -⟩ := Core.op hI ch side _ hmem
    rw [opOf_case hc, hl.not_of_evicted hi] at hop
    cases hop
  · obtain ⟨ch, e, y, hh, hy⟩ := hp
    obtain ⟨k, hop, -, -⟩ := Core.held hI ch e y _ hh hy
    rw [opOf_case hc] at hop
    have hlen := (List.getElem?_eq_some_iff.mp hop).1
    have hge := List.getElem?_eq_none_iff.mp hi
    cases why with
    | restart => exact hw.elim
    | reload =>
      have hle : i ≤ j := hw
      omega
    | finish k => exact hw.elim

theorem Inv.finish (hI : Inv calls s) (hc : calls c = .select cases d) {k : ℕ} {b : Case H V}
    (hpc : s.base.call c = .finish k) (hb : cases[k]? = some b) :
    Settles b.op (s.base.slot (.case c k)) (moved s.base.log c) k := by
  obtain ⟨-, b', hb', hset⟩ := hI.select hc hpc
  rw [hb] at hb'
  cases hb'
  exact hset

end

/-- A select that finds `fired_case` set after its yield finds its slot filled. -/
def Settled (calls : C → Call H V) (s : State H C V) : Action C → Prop
  | .call c _ _ => s.base.call c = .load → ∀ k ∈ s.base.fired c, ∀ b ∈ opOf calls (.case c k),
      ((s.hold b.ch).bind fun p => p.2.claimed) ≠ some (.case c k)
  | .resume _ => True

omit [DecidableEq H] in
theorem Settled.not_pending (hI : Inv calls s) {k r₁ r₂ : ℕ}
    (hpc : s.base.call c = .load) (hf : s.base.fired c = some k)
    (h : Settled calls s (.call c r₁ r₂)) (i : ℕ) : ¬Pending s.hold c i := by
  rintro ⟨ch, e, y, hh, hy⟩
  have hfi := (Core.waits hI ch e y c i hh hy).1
  rw [hf] at hfi
  cases hfi
  obtain ⟨b, hop, hch, -⟩ := Core.held hI ch e y _ hh hy
  have hne := h hpc k hf b hop
  rw [hch, hh] at hne
  exact hne hy

/-! ## Every step -/

theorem Inv.selectStep (hI : Inv calls s) (hc : calls c = .select cases d) {inFiber : Bool} {r₁ r₂ : ℕ}
    (hs : Settled calls s (.call c r₁ r₂))
    (ht : s.selectStep cap inFiber cases d c r₁ r₂ = some t) : Inv calls t := by
  unfold State.selectStep at ht
  cases hpc : s.base.call c with
  | idle =>
    have hok := hI.select hc hpc
    simp only [hpc, Chan.State.selectStep, Option.map_some] at ht
    cases ht
    apply hI.leaveSelect hc hpc fun _ _ => ⟨id, id⟩
    split <;> exact hok
  | start =>
    have hok := hI.select hc hpc
    simp only [hpc, Chan.State.selectStep, Option.map_some] at ht
    cases ht
    exact hI.leaveSelect hc hpc (fun _ _ => ⟨id, id⟩) hok
  | scan order =>
    have hok := hI.select hc hpc
    cases order with
    | nil =>
      simp only [hpc, Chan.State.selectStep, Option.map_some] at ht
      cases ht
      split
      · exact hI.leaveSelect hc hpc (fun _ _ => ⟨id, id⟩) hok
      · split
        · exact hI.leaveSelect hc hpc (fun _ _ => ⟨id, id⟩) hok
        · exact hI.newPark hc hpc
    | cons i order =>
      cases hk : cases[i]? with
      | none =>
        simp only [hpc, hk, Chan.State.selectStep, Option.map_some] at ht
        cases ht
        exact hI.leaveSelect hc hpc (fun _ _ => ⟨id, id⟩) hok
      | some k =>
        simp only [hpc, hk] at ht
        split at ht
        next e y hh =>
          split at ht
          next he =>
            subst he
            obtain ⟨⟨got, b⟩, hfill, rfl⟩ := Option.map_eq_some_iff.mp ht
            exact hI.scanFill hc hpc hh hfill
          next => cases ht
        next hh =>
          split at ht <;> cases ht
          next y b hb =>
            obtain ⟨w, hy, hcl⟩ := claims_of_begin hb
            exact hI.claims (fun e z he => by rw [hh] at he; cases he) hcl hy c
          next got b hb =>
            refine hI.scanReady hc hpc hb fun f sl p => ?_
            cases got with
            | closed => exact .inr ⟨rfl, rfl⟩
            | sent | value x => exact .inl rfl
          next b hb => exact hI.scanReady hc hpc hb fun _ _ _ => rfl
          next b hb => exact hI.scanReady hc hpc hb fun _ _ _ => rfl
  | install i =>
    have hok := hI.select hc hpc
    cases hk : cases[i]? with
    | none =>
      simp only [hpc, hk, Chan.State.selectStep, Option.map_some] at ht
      cases ht
      exact hI.gotoSelect hc hpc (fun _ _ _ _ _ => trivial) (fun _ _ _ => trivial) hok.2
    | some k =>
      simp only [hpc, hk, Chan.State.selectStep] at ht
      split at ht
      · split at ht <;> cases ht
        · exact hI.gotoSelect hc hpc (fun _ _ _ _ hl => hl) (fun _ _ hw => hw) hok.2
        · exact hI.install hc hpc hk
      · cases ht
  | abort i =>
    have hok := hI.select hc hpc
    simp only [hpc, Chan.State.selectStep] at ht
    split at ht <;> cases ht
    next hf => exact hI.abort hc hpc hf
    next => exact hI.gotoSelect hc hpc (fun _ _ _ _ _ => trivial) (fun _ _ _ => trivial) hok
  | load =>
    have hok := hI.select hc hpc
    simp only [hpc, Chan.State.selectStep] at ht
    split at ht <;> cases ht
    next hf => exact hI.gotoSelect hc hpc (fun _ _ j _ _ => Nat.zero_le j) (fun j _ _ => Nat.zero_le j) hok
    next k hf => exact hI.fire hc hpc hf (hs.not_pending hI hpc hf) hok
  | evict i why =>
    have hok := hI.select hc hpc
    cases hk : cases[i]? with
    | none =>
      simp only [hpc, hk, Chan.State.selectStep, Option.map_some] at ht
      cases ht
      apply hI.evicted hc hpc hk
      cases why with
      | restart => exact fun hok => hok.1
      | reload | finish k => exact id
    | some k =>
      simp only [hpc, hk, Chan.State.selectStep] at ht
      split at ht
      next hfree =>
        split at ht
        next hwhy =>
          -- The channel of the case that fired is left out.
          cases ht
          subst hwhy
          exact hI.gotoSelect hc hpc (fun _ _ j _ hl => hl.evict_succ hl.2) (fun _ _ hw => hw) hok
        next hwhy =>
          cases ht
          exact hI.evict hc hpc hk (hfree.resolve_left hwhy)
      next => cases ht
  | reload =>
    have hwaits := hI.select hc hpc
    -- A claimed case would have kept the eviction from its end.
    have hno : ∀ i, ¬Pending s.hold c i := by
      rintro i ⟨ch, e, y, hh, hy⟩
      have := (Core.waits hI ch e y c i hh hy).2.1
      rw [hpc] at this
      exact this
    simp only [hpc, Chan.State.selectStep] at ht
    split at ht <;> cases ht
    next hf =>
      apply hI.leaveSelect hc hpc fun _ _ => ⟨id, id⟩
      rw [hf] at hwaits
      exact hwaits
    next k hf => exact hI.fire hc hpc hf hno hwaits
  | finish k =>
    simp only [hpc, Chan.State.selectStep] at ht
    split at ht
    next => cases ht
    next b hb =>
      have hset := hI.finish hc hpc hb
      cases hop : b.op with
      | send v =>
        rw [hop] at ht hset
        cases ht
        apply hI.leaveSelect hc hpc fun _ _ => ⟨id, id⟩
        rcases hset with ⟨hr, hm⟩ | ⟨hr, hm⟩
        · rw [if_pos hr]
          exact .inl hm
        · rw [if_neg hr]
          exact hm
      | recv =>
        rw [hop] at ht hset
        simp only at ht
        rcases hset with ⟨x, hx, hm⟩ | ⟨hv, hm⟩
        · rw [hx] at ht
          cases ht
          exact hI.leaveSelect hc hpc (fun _ _ => ⟨id, id⟩) (.inl hm)
        · rw [hv] at ht
          cases ht
          exact hI.leaveSelect hc hpc (fun _ _ => ⟨id, id⟩) hm
  | retry =>
    have hok := hI.select hc hpc
    simp only [hpc, Chan.State.selectStep, Option.map_some] at ht
    cases ht
    have hJ : Inv calls { s with
        base := { s.base with retries := update s.base.retries c (s.base.retries c + 1) } } := hI
    apply hJ.leaveSelect hc hpc fun _ _ => ⟨id, id⟩
    split <;> exact hok
  | parked | yielded | returned out =>
    simp only [hpc, Chan.State.selectStep, Option.map_none] at ht
    cases ht

section

omit [DecidableEq H]

theorem Inv.resumed (hI : Inv calls s) (hc : calls c = .select cases d)
    (hpc : s.base.call c = .yielded) : Inv calls { s with base := s.base.goto c .load } := by
  have hok := hI.select hc hpc
  exact hI.gotoSelect hc hpc (fun _ _ _ _ _ => trivial) (fun _ _ _ => trivial) hok

theorem Inv.resumePlain (hI : Inv calls s) {k : Case H V} (hop : opOf calls (.plain c) = some k)
    (side : Side) : Inv calls { s with base := s.base.resumePlain c side } := by
  have hgo := hI.gotoPlain (not_select_of_opOf hop)
  have hends : s.base.resumePlain c side = s.base ∨ ∃ pc, s.base.resumePlain c side = s.base.goto c pc := by
    simp only [Chan.State.resumePlain]
    split
    · exact .inl rfl
    · cases side <;> exact .inr ⟨_, rfl⟩
  rcases hends with he | ⟨pc, he⟩
  · rw [he]
    exact hI
  · rw [he]
    exact hgo pc

theorem base_of_resume {call : Call H V} (ht : s.resume call c = some t) :
    ∃ b, s.base.resume call c = some b ∧ t = { s with base := b } := by
  have hmap : ∀ {o : Option (Chan.State H C V)},
      (o.map fun b => { s with base := b }) = some t → ∃ b, o = some b ∧ t = { s with base := b } := by
    intro o ho
    obtain ⟨b, hb, rfl⟩ := Option.map_eq_some_iff.mp ho
    exact ⟨b, hb, rfl⟩
  cases call with
  | send ch v blocking | recv ch blocking =>
    simp only [State.resume] at ht
    split at ht
    · exact hmap ht
    · cases ht
  | close ch => cases ht
  | select cases d => exact hmap ht

theorem Inv.resume (hI : Inv calls s) (ht : s.resume (calls c) c = some t) : Inv calls t := by
  obtain ⟨b, hb, rfl⟩ := base_of_resume ht
  unfold Chan.State.resume at hb
  split at hb <;> cases hb
  next ch v blocking hc hpc => exact hI.resumePlain (k := ⟨ch, .send v⟩) (by simp only [opOf, hc]) .send
  next ch blocking hc hpc => exact hI.resumePlain (k := ⟨ch, .recv⟩) (by simp only [opOf, hc]) .recv
  next cases d hc hpc => exact hI.resumed hc hpc

end

theorem Inv.step {inFiber : C → Bool} {a : Action C} (hI : Inv calls s) (hs : Settled calls s a)
    (ht : step cap inFiber calls s a = some t) : Inv calls t := by
  cases a with
  | call c r₁ r₂ =>
    simp only [Select.step] at ht
    split at ht
    next ch v blocking hc => exact hI.plainStep (by simp only [opOf, hc]) ht
    next ch blocking hc => exact hI.plainStep (by simp only [opOf, hc]) ht
    next ch hc => exact hI.closeStep hc ht
    next cases d hc => exact hI.selectStep hc hs ht
  | resume c => exact hI.resume ht

omit [DecidableEq H] in
theorem Inv.init (h : Init s) : Inv calls s := by
  have hq : ∀ ch side, queues s.base ch side = [] := h.base.waiters
  refine ⟨fun ch side w hw => ?_, fun ch side c i hw => ?_, fun ch side c i => ?_,
    fun ch side c i _ hw => ?_, fun ch d y w hh => ?_, fun ch d y c i hh => ?_, fun c cases d hc => ?_⟩
  · rw [hq] at hw
    cases hw
  · rw [hq] at hw
    cases hw
  · rw [hq]
    exact Nat.zero_le 1
  · rw [hq] at hw
    cases hw
  · rw [h.hold] at hh
    cases hh
  · rw [h.hold] at hh
    cases hh
  · rw [h.base.call, h.base.log]
    rfl

theorem inv_of_reachableWith {inFiber : C → Bool}
    (h : (selects cap inFiber calls).ReachableWith (Settled calls) s) : Inv calls s :=
  h.invariant (fun _ => Inv.init) fun _ _ _ hI hs ht => hI.step hs ht

end Runloom.Select
