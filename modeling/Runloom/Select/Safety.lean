import Runloom.Chan.Safety
import Runloom.Select.SelectSteps

/-!
# A select returns the case that was filled

In every run in which a resumed select that finds `fired_case` set also finds its slot filled, a select
whose case has taken part in a hand-over returns that case, with the value.  Without it the select can
take its empty slot for a closed channel.
-/

namespace Runloom.Select

open Transition Chan List

variable {H C V : Type*} [DecidableEq H] [DecidableEq C]
  {calls : C → Call H V} {cap : H → ℕ} {inFiber : C → Bool} {s t : State H C V} {c : C}
  {cases : List (Case H V)} {d : Bool}

/-! ## After the fill -/

/-- The places from which a select whose case `k` was filled goes on to its end. -/
def Ends (pc : CallPc C V) (k : ℕ) : Prop :=
  match pc with
  | .install _ => True
  | .abort _ => True
  | .yielded => True
  | .load => True
  | .reload => True
  | .evict _ .reload => True
  | .evict _ (.finish j) => j = k
  | .finish j => j = k
  | _ => False

section

omit [DecidableEq H] [DecidableEq C]

theorem Waits.done {f : Option ℕ} {sl : ℕ → Slot C V} {m : List (ℕ × Got C V)} {p : ℕ → Prop}
    (h : Waits cases f sl m p) (hp : ∀ k, p k → m = []) (hm : m ≠ []) :
    ∃ k, f = some k ∧ Done cases sl m k := by
  cases f with
  | none => exact absurd h hm
  | some k => exact ⟨k, rfl, h.resolve_left fun hk => hm (hp k hk)⟩

theorem SelectOk.ends {pc : CallPc C V} {f : Option ℕ} {sl : ℕ → Slot C V} {m : List (ℕ × Got C V)}
    {p : ℕ → Prop} (h : SelectOk cases pc f sl m p) (hp : ∀ k, p k → m = []) (hm : m ≠ []) :
    (∃ k got, pc = .returned (.selected k got) ∧ m = [(k, got)]) ∨
      ∃ k, f = some k ∧ Done cases sl m k ∧ Ends pc k := by
  have hwaits : Waits cases f sl m p → Ends pc = (fun _ => True) →
      ∃ k, f = some k ∧ Done cases sl m k ∧ Ends pc k := by
    intro hw he
    obtain ⟨k, hf, hd⟩ := hw.done hp hm
    exact ⟨k, hf, hd, he ▸ trivial⟩
  cases pc with
  | install i => exact .inr (hwaits h.2 rfl)
  | abort i | yielded | load | reload => exact .inr (hwaits h rfl)
  | evict i why =>
    cases why with
    | reload => exact .inr (hwaits h rfl)
    | restart => exact absurd h.1 hm
    | finish k => exact .inr ⟨k, h.1, h.2, rfl⟩
  | finish k => exact .inr ⟨k, h.1, h.2, rfl⟩
  | idle | start | scan order | retry => exact absurd h hm
  | parked => exact h.elim
  | returned out =>
    cases out with
    | selected k got =>
      rcases h with h | ⟨-, h⟩
      · exact .inl ⟨k, got, rfl, h⟩
      · exact absurd h hm
    | plain got | sendClosed | wouldBlock | closeDone | closeClosed | default | noGoroutine
    | noCases | tooManyRetries => exact absurd h hm

end

omit [DecidableEq H] in
theorem Inv.ends (hI : Inv calls s) (hc : calls c = .select cases d) (hm : moved s.base.log c ≠ []) :
    (∃ k got, s.base.call c = .returned (.selected k got) ∧ moved s.base.log c = [(k, got)]) ∨
      ∃ k, s.base.fired c = some k ∧ Done cases (fun i => s.base.slot (.case c i)) (moved s.base.log c) k ∧
          Ends (s.base.call c) k := by
  refine (hI.select hc rfl).ends (fun k hp => ?_) hm
  obtain ⟨ch, e, y, hh, hy⟩ := hp
  exact (Core.waits hI ch e y c k hh hy).2.2

variable {k : ℕ}

omit [DecidableEq H] [DecidableEq C] in
theorem Done.moved_eq {sl : ℕ → Slot C V} {m : List (ℕ × Got C V)} (h : Done cases sl m k)
    (hm : m ≠ []) : ∃ got, m = [(k, got)] := by
  obtain ⟨b, -, hset⟩ := h
  cases hop : b.op with
  | send v =>
    rw [hop] at hset
    rcases hset with ⟨-, h⟩ | ⟨-, h⟩
    · exact ⟨_, h⟩
    · exact absurd h hm
  | recv =>
    rw [hop] at hset
    rcases hset with ⟨x, -, h⟩ | ⟨-, h⟩
    · exact ⟨_, h⟩
    · exact absurd h hm

omit [DecidableEq H] in
theorem Inv.moved_eq (hI : Inv calls s) (hc : calls c = .select cases d) {x : ℕ × Got C V}
    (hx : x ∈ moved s.base.log c) : moved s.base.log c = [x] := by
  have hm := ne_nil_of_mem hx
  have hone : ∃ y, moved s.base.log c = [y] := by
    rcases hI.ends hc hm with ⟨k, got, -, h⟩ | ⟨k, -, hd, -⟩
    · exact ⟨_, h⟩
    · obtain ⟨got, h⟩ := hd.moved_eq hm
      exact ⟨_, h⟩
  obtain ⟨y, hy⟩ := hone
  rw [hy, mem_singleton] at hx
  rw [hy, hx]

/-! ## The way to the end -/

def rank (n : ℕ) : CallPc C V → ℕ
  | .install i => 2 * n + 8 + (n - i)
  | .abort _ => 2 * n + 7
  | .yielded => 2 * n + 6
  | .load => 2 * n + 5
  | .evict i .reload => n + 4 + (n - i)
  | .reload => n + 3
  | .evict i (.finish _) => 2 + (n - i)
  | .finish _ => 1
  | _ => 0

def Own (c : C) (a : Action C) : Prop :=
  a = .call c 0 0 ∨ a = .resume c

omit [DecidableEq H] [DecidableEq C] in
theorem settled_of_free (hc : calls c = .select cases d) (hfree : ∀ b ∈ cases, s.hold b.ch = none)
    (r₁ r₂ : ℕ) : Settled calls s (.call c r₁ r₂) := by
  intro _ k _ b hb
  rw [Option.mem_def, opOf_case hc] at hb
  rw [hfree b (mem_of_getElem? hb)]
  exact nofun

/-- The select takes a step that moves nothing and brings it nearer to its end. -/
def Nearer (cap : H → ℕ) (inFiber : Bool) (cases : List (Case H V)) (d : Bool) (s : State H C V) (c : C) : Prop :=
  ∃ b : Chan.State H C V, s.selectStep cap inFiber cases d c 0 0 = some { s with base := b } ∧
    b.log = s.base.log ∧ rank cases.length (b.call c) < rank cases.length (s.base.call c)

theorem Nearer.of_goto {inFiber : Bool} {pc : CallPc C V} (b : Chan.State H C V) (pc' : CallPc C V)
    (hpc : s.base.call c = pc) (hlog : b.log = s.base.log)
    (hlt : rank cases.length pc' < rank cases.length pc)
    (hstep : s.selectStep cap inFiber cases d c 0 0 = some { s with base := b.goto c pc' }) :
    Nearer cap inFiber cases d s c := by
  refine ⟨b.goto c pc', hstep, hlog, ?_⟩
  show rank _ (update b.call c pc' c) < _
  rw [update_self, hpc]
  exact hlt

theorem nearer_install (hfree : ∀ b ∈ cases, s.hold b.ch = none) {inFiber : Bool} {i : ℕ}
    (hpc : s.base.call c = .install i) : Nearer cap inFiber cases d s c := by
  cases hk : cases[i]? with
  | none =>
    refine .of_goto s.base .yielded hpc rfl ?_ ?_
    · simp only [rank]
      omega
    · simp only [State.selectStep, hpc, hk, Chan.State.selectStep, Option.map_some]
  | some b =>
    have hh := hfree b (mem_of_getElem? hk)
    have hi := (List.getElem?_eq_some_iff.mp hk).1
    by_cases hr : s.base.caseReady cap c b = true
    · refine .of_goto s.base (.abort i) hpc rfl ?_ ?_
      · simp only [rank]
        omega
      · simp only [State.selectStep, hpc, hk, hh, Chan.State.selectStep, hr, if_true, Option.map_some]
    · refine .of_goto (s.base.setQueue b.ch b.op.side
        ((s.base.chan b.ch).waiters b.op.side ++ [Waiter.case c i])) (.install (i + 1)) hpc rfl ?_ ?_
      · simp only [rank]
        omega
      · simp only [State.selectStep, hpc, hk, hh, Chan.State.selectStep, hr, if_true]
        rfl

theorem nearer_evict (hfree : ∀ b ∈ cases, s.hold b.ch = none) {inFiber : Bool} {i : ℕ} {why : Evict}
    (hpc : s.base.call c = .evict i why) (hwhy : why ≠ .restart) : Nearer cap inFiber cases d s c := by
  cases hk : cases[i]? with
  | none =>
    cases why with
    | restart => exact absurd rfl hwhy
    | reload =>
      refine .of_goto s.base .reload hpc rfl ?_ ?_
      · simp only [rank]
        omega
      · simp only [State.selectStep, hpc, hk, Chan.State.selectStep, Option.map_some]
    | finish k =>
      refine .of_goto s.base (.finish k) hpc rfl ?_ ?_
      · simp only [rank]
        omega
      · simp only [State.selectStep, hpc, hk, Chan.State.selectStep, Option.map_some]
  | some b =>
    have hh := hfree b (mem_of_getElem? hk)
    have hi := (List.getElem?_eq_some_iff.mp hk).1
    have hlt : rank cases.length (.evict (i + 1) why : CallPc C V) <
        rank cases.length (.evict i why : CallPc C V) := by
      cases why with
      | restart => exact absurd rfl hwhy
      | reload | finish k =>
        simp only [rank]
        omega
    by_cases hskip : why = .finish i
    · refine .of_goto s.base (.evict (i + 1) why) hpc rfl hlt ?_
      simp only [State.selectStep, hpc, hk, Chan.State.selectStep, hskip, true_or, if_true, Option.map_some]
    · refine .of_goto (s.base.setQueue b.ch b.op.side
        (((s.base.chan b.ch).waiters b.op.side).erase (.case c i))) (.evict (i + 1) why)
        hpc rfl hlt ?_
      simp only [State.selectStep, hpc, hk, hh, Chan.State.selectStep, if_neg hskip, or_true, if_true,
        Option.map_some]

theorem nearer_finish {inFiber : Bool} (hpc : s.base.call c = .finish k) (hm : moved s.base.log c ≠ [])
    (hd : Done cases (fun i => s.base.slot (.case c i)) (moved s.base.log c) k) :
    Nearer cap inFiber cases d s c := by
  obtain ⟨b, hb, hset⟩ := hd
  cases hop : b.op with
  | send v =>
    refine .of_goto s.base (.returned (if (s.base.slot (.case c k)).sendResult = 0 then
      .selected k .sent else .sendClosed)) hpc rfl ?_ ?_
    · exact Nat.zero_lt_one
    · simp only [State.selectStep, hpc, hb, hop, Chan.State.selectStep, Option.map_some]
  | recv =>
    rw [hop] at hset
    rcases hset with ⟨x, hx, -⟩ | ⟨-, h⟩
    · refine .of_goto s.base (.returned (.selected k (.value (some x)))) hpc rfl ?_ ?_
      · exact Nat.zero_lt_one
      · simp only [State.selectStep, hpc, hb, hop, hx, Chan.State.selectStep, Option.map_some]
    · exact absurd h hm

theorem Inv.advance (hI : Inv calls s) (cap : H → ℕ) (inFiber : C → Bool)
    (hc : calls c = .select cases d) (hfree : ∀ b ∈ cases, s.hold b.ch = none) (hm : moved s.base.log c ≠ [])
    (hret : ∀ out, s.base.call c ≠ .returned out) :
    ∃ a b, Own c a ∧ Settled calls s a ∧
      (selects cap inFiber calls).step s a = some { s with base := b } ∧ b.log = s.base.log ∧ rank cases.length (b.call c) < rank cases.length (s.base.call c) := by
  rcases hI.ends hc hm with ⟨k, got, hpc, -⟩ | ⟨k, hf, hd, he⟩
  · exact absurd hpc (hret _)
  have hcall : Nearer cap (inFiber c) cases d s c → ∃ a b, Own c a ∧ Settled calls s a ∧
      (selects cap inFiber calls).step s a = some { s with base := b } ∧ b.log = s.base.log ∧
        rank cases.length (b.call c) < rank cases.length (s.base.call c) := by
    rintro ⟨b, hstep, hlog, hlt⟩
    refine ⟨.call c 0 0, b, .inl rfl, settled_of_free hc hfree 0 0, ?_, hlog, hlt⟩
    simp only [selects, Select.step, hc]
    exact hstep
  -- A value has moved, so the select is past its scan, and every step takes it closer to the return.
  cases hpc : s.base.call c with
  | install i => exact hpc ▸ hcall (nearer_install hfree hpc)
  | abort i =>
    refine hpc ▸ hcall (.of_goto s.base .yielded hpc rfl ?_ ?_)
    · simp only [rank]
      omega
    · simp only [State.selectStep, hpc, Chan.State.selectStep, hf, reduceCtorEq, if_false, Option.map_some]
  | yielded =>
    refine ⟨.resume c, s.base.goto c .load, .inr rfl, trivial, ?_, rfl, ?_⟩
    · simp only [selects, Select.step, State.resume, hc, Chan.State.resume, hpc, Option.map_some]
    · show rank _ (update s.base.call c .load c) < _
      rw [update_self]
      simp only [rank]
      omega
  | load | reload =>
    refine hpc ▸ hcall (.of_goto s.base (.evict 0 (.finish k)) hpc rfl ?_ ?_)
    · simp only [rank]
      omega
    · simp only [State.selectStep, hpc, Chan.State.selectStep, hf, Option.map_some]
  | evict i why =>
    refine hpc ▸ hcall (nearer_evict hfree hpc ?_)
    rintro rfl
    rw [hpc] at he
    exact he
  | finish j =>
    rw [hpc] at he
    cases he
    exact hpc ▸ hcall (nearer_finish hpc hm hd)
  | idle | start | scan order | retry | parked =>
    rw [hpc] at he
    exact he.elim
  | returned out => exact absurd hpc (hret out)

omit [DecidableEq H] in
theorem Inv.returned_eq (hI : Inv calls s) (hc : calls c = .select cases d) {got : Got C V}
    (hm : moved s.base.log c = [(k, got)]) {out : Outcome C V} (hpc : s.base.call c = .returned out) :
    out = .selected k got := by
  have hne : moved s.base.log c ≠ [] := by
    rw [hm]
    exact nofun
  rcases hI.ends hc hne with ⟨j, got', hpc', hm'⟩ | ⟨j, -, -, he⟩
  · rw [hpc] at hpc'
    cases hpc'
    rw [hm] at hm'
    cases hm'
    rfl
  · rw [hpc] at he
    exact he.elim

theorem Inv.exists_return (hI : Inv calls s) (hc : calls c = .select cases d)
    (hfree : ∀ b ∈ cases, s.hold b.ch = none) {got : Got C V}
    (hm : moved s.base.log c = [(k, got)]) :
    ∃ as t, (∀ a ∈ as, Own c a) ∧ (selects cap inFiber calls).run s as = some t ∧
      t.base.call c = .returned (.selected k got) := by
  have hne : moved s.base.log c ≠ [] := by
    rw [hm]
    exact nofun
  induction hn : rank cases.length (s.base.call c) using Nat.strong_induction_on generalizing s with
  | _ n ih =>
    by_cases hret : ∃ out, s.base.call c = .returned out
    · obtain ⟨out, hpc⟩ := hret
      refine ⟨[], s, nofun, rfl, ?_⟩
      rw [hpc, hI.returned_eq hc hm hpc]
    · obtain ⟨a, b, ha, hset, hstep, hlog, hlt⟩ := hI.advance cap inFiber hc hfree hne
        fun out hpc => hret ⟨out, hpc⟩
      have hm' : moved b.log c = [(k, got)] := by rw [hlog, hm]
      obtain ⟨as, t, has, hrun, hend⟩ := ih _ (hn ▸ hlt) (hI.step hset hstep) hfree hm'
        (by rw [hlog]; exact hne) rfl
      refine ⟨a :: as, t, ?_, ?_, hend⟩
      · intro a' ha'
        rcases mem_cons.mp ha' with rfl | ha'
        · exact ha
        · exact has a' ha'
      · rw [System.run_cons hstep]
        exact hrun

/-! ## No value is lost -/

/-- The select returns `out`, and with its channels unlocked it does so by steps of its own. -/
def Returns (cap : H → ℕ) (inFiber : C → Bool) (calls : C → Call H V) (cases : List (Case H V))
    (s : State H C V) (c : C) (out : Outcome C V) : Prop :=
  (∀ o, s.base.call c = .returned o → o = out) ∧
    ((∀ b ∈ cases, s.hold b.ch = none) → ∃ as t, (∀ a ∈ as, Own c a) ∧
      (selects cap inFiber calls).run s as = some t ∧ t.base.call c = .returned out)

theorem Inv.returns (hI : Inv calls s) (cap : H → ℕ) (inFiber : C → Bool)
    (hc : calls c = .select cases d) {e : Event H C V} {got : Got C V} (he : e ∈ s.base.log)
    (hmoved : e.movedBy c = some (k, got)) :
    Returns cap inFiber calls cases s c (.selected k got) := by
  have hm := hI.moved_eq hc (mem_filterMap.mpr ⟨e, he, hmoved⟩)
  exact ⟨fun _ hpc => hI.returned_eq hc hm hpc, fun hfree => hI.exists_return hc hfree hm⟩

/-- If a select that finds `fired_case` set finds the case filled, it returns the case for which it was handed a
value. -/
theorem claimed_select_returns (h : (selects cap inFiber calls).ReachableWith (Settled calls) s)
    (hc : calls c = .select cases d) (k : ℕ) :
    (∀ ch x, .handed ch (.case c k) x ∈ s.base.log →
      Returns cap inFiber calls cases s c (.selected k (.value x))) ∧
    (∀ ch x p, .accepted ch (.case c k) x p ∈ s.base.log →
      Returns cap inFiber calls cases s c (.selected k .sent)) := by
  have hI := inv_of_reachableWith h
  refine ⟨fun ch x he => ?_, fun ch x p he => ?_⟩
  · exact hI.returns cap inFiber hc he (movedBy_handed ch (.case c k) x)
  · exact hI.returns cap inFiber hc he (movedBy_accepted ch (.case c k) x p)

instance [DecidableEq V] (calls : C → Call H V) (s : State H C V) : ∀ a, Decidable (Settled calls s a)
  | .call c _ _ => inferInstanceAs (Decidable (s.base.call c = .load → ∀ k ∈ s.base.fired c,
      ∀ b ∈ opOf calls (.case c k), ((s.hold b.ch).bind fun p => p.2.claimed) ≠ some (.case c k)))
  | .resume _ => .isTrue trivial

def State.start : State H C V where
  base := .new
  hold _ := none

omit [DecidableEq H] [DecidableEq C] in
theorem init_start : Init (State.start : State H C V) :=
  ⟨init_new, fun _ => rfl⟩

/-- A select that receives, one sender, and a call that closes the channel. -/
def oneSender (c : Fin 3) : Call Unit Unit :=
  if c = 0 then .select [⟨(), .recv⟩] false else if c = 1 then .send () () true else .close ()

/-- The select is parked when the sender fills its slot. -/
theorem claimed_select_returns_parked : ∃ s : State Unit (Fin 3) Unit,
      (selects (fun _ => 0) (fun _ => true) oneSender).ReachableWith (Settled oneSender) s ∧
        s.base.call 0 = .yielded ∧ s.base.call 1 = .returned (.plain .sent) ∧
          Returns (fun _ => 0) (fun _ => true) oneSender [⟨(), .recv⟩] s 0
            (.selected 0 (.value (some ⟨.plain 1, ()⟩))) := by
  obtain ⟨s, hs, hyielded, hsent, hlog⟩ := (selects (fun _ : Unit => 0) (fun _ : Fin 3 => true) oneSender).reachesWith (Settled oneSender)
    (fun s => s.base.call 0 = .yielded ∧ s.base.call 1 = .returned (.plain .sent) ∧
      .handed () (.case 0 0) (some ⟨.plain 1, ()⟩) ∈ s.base.log)
    [.call 0 0 0, .call 0 0 0, .call 0 0 0, .call 0 0 0, .call 0 0 0, .call 0 0 0, .call 1 0 0, .call 1 0 0]
    init_start (by decide +kernel)
  exact ⟨s, hs, hyielded, hsent, (claimed_select_returns hs rfl 0).1 () _ hlog⟩

def oneReceiver (c : Fin 2) : Call Unit Unit :=
  if c = 0 then .select [⟨(), .send ()⟩] false else .recv () true

/-- The select is resumed between the claim and the fill: a receive case loses the value. -/
theorem resumed_select_loses_value : (∃ s : State Unit (Fin 3) Unit,
      (selects (fun _ => 0) (fun _ => true) oneSender).Reachable s ∧ s.base.call 1 = .returned (.plain .sent) ∧
        .handed () (.case 0 0) (some ⟨.plain 1, ()⟩) ∈ s.base.log ∧
        s.base.call 0 = .returned (.selected 0 .closed)) ∧
    ∃ s : State Unit (Fin 2) Unit, (selects (fun _ => 0) (fun _ => true) oneReceiver).Reachable s ∧
        s.base.call 1 = .returned (.plain (.value (some ⟨.case 0 0, ()⟩))) ∧
        .accepted () (.case 0 0) (some ⟨.case 0 0, ()⟩) true ∈ s.base.log ∧
        (s.base.chan ()).closed = false ∧ s.base.call 0 = .returned .sendClosed := by
  constructor
  · exact (selects (fun _ : Unit => 0) (fun _ : Fin 3 => true) oneSender).reaches
      (fun s => s.base.call 1 = .returned (.plain .sent) ∧
        .handed () (.case 0 0) (some ⟨.plain 1, ()⟩) ∈ s.base.log ∧
          s.base.call 0 = .returned (.selected 0 .closed))
      [.call 0 0 0, .call 0 0 0, .call 0 0 0, .call 0 0 0, .call 0 0 0, .call 0 0 0, .call 1 0 0,
        .resume 0, .call 0 0 0, .call 0 0 0, .call 0 0 0, .call 0 0 0, .call 0 0 0, .call 1 0 0,
        .call 2 0 0, .call 2 0 0, .call 2 0 0, .call 0 0 0, .call 0 0 0]
      init_start (by decide +kernel)
  · exact (selects (fun _ : Unit => 0) (fun _ : Fin 2 => true) oneReceiver).reaches
      (fun s => s.base.call 1 = .returned (.plain (.value (some ⟨.case 0 0, ()⟩))) ∧
        .accepted () (.case 0 0) (some ⟨.case 0 0, ()⟩) true ∈ s.base.log ∧
          (s.base.chan ()).closed = false ∧ s.base.call 0 = .returned .sendClosed)
      [.call 0 0 0, .call 0 0 0, .call 0 0 0, .call 0 0 0, .call 0 0 0, .call 0 0 0, .call 1 0 0,
        .resume 0, .call 0 0 0, .call 0 0 0, .call 0 0 0, .call 0 0 0, .call 1 0 0]
      init_start (by decide +kernel)

end Runloom.Select
