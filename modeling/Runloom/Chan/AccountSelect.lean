import Runloom.Chan.Account

/-!
# The account of a select

A select takes one reference for each of its sends when it sets up a park, and drops those that are
left when it gives the park up: after an aborted installation, after a spurious wake, and at its end,
where the fired case is settled by what came of it.
-/

namespace Runloom.Chan

open Transition List

variable {H C V : Type*} [DecidableEq C] [DecidableEq V] {calls : C → Call H V}
  {cap : H → ℕ} {s t : State H C V} {ch : H} {c : C} {pc : CallPc C V} {pyNone v : V}
  {cases : List (Case H V)} {d : Bool} {i : ℕ} {b : Case H V}

/-! ## A new park -/

omit [DecidableEq C] in
theorem credit_parkRefs (hop : opOf calls (.case c i) = some b) :
    credit (parkRefs b.op) v = sends calls (.case c i) v := by
  obtain ⟨bch, bop⟩ := b
  cases bop with
  | send u =>
    rw [sends_of_send hop]
    simp [parkRefs, RefOp.credit]
  | recv =>
    rw [sends_of_recv hop]
    rfl

theorem credit_flatMap (f : Case H V → List (RefOp V)) (l : List (Case H V)) (v : V) :
    credit (l.flatMap f) v = ∑ j ∈ Finset.range l.length, credit (l[j]?.elim [] f) v := by
  induction l with
  | nil => rfl
  | cons k l ih =>
    rw [flatMap_cons, credit_append, ih, length_cons, Finset.sum_range_succ', Int.add_comm]
    rfl

theorem credit_newPark (hc : calls c = .select cases d) :
    credit (cases.flatMap fun k => parkRefs k.op) v = ∑ w ∈ waitersOf calls c, sends calls w v := by
  rw [credit_flatMap, sum_waitersOf_select hc]
  refine Finset.sum_congr rfl fun j hj => ?_
  have hb := List.getElem?_eq_getElem (Finset.mem_range.mp hj)
  rw [hb]
  exact credit_parkRefs ((opOf_case hc).trans hb)

/-! ## A park is given up -/

section

omit [DecidableEq C] [DecidableEq V]

theorem decref_of_dropRefs {f : Option ℕ} {o : RefOp V} (ho : o ∈ s.dropRefs cases c f) :
    ∃ u, o = .decref (some u) := by
  obtain ⟨j, -, hj⟩ := mem_flatMap.mp ho
  split at hj
  · cases hj
  · split at hj
    next x _ _ => exact ⟨x.value, mem_singleton.mp hj⟩
    next => cases hj

theorem given_dropRefs (cases : List (Case H V)) (s : State H C V) (c : C) (f : Option ℕ) :
    given (s.dropRefs cases c f) = [] := by
  refine filterMap_eq_nil_iff.mpr fun o ho => ?_
  obtain ⟨u, rfl⟩ := decref_of_dropRefs ho
  rfl

end

section

variable (h : Records calls s)
include h

theorem credit_dropRefs (hc : calls c = .select cases d) (hpc : (s.call c).waiting = true) {f : Option ℕ}
    (hm : moved s.log c = [] ∨ ∃ k got, f = some k ∧ moved s.log c = [(k, got)]) :
    credit (s.dropRefs cases c f) v =
      -∑ j ∈ Finset.range cases.length, if f = some j then 0 else sends calls (.case c j) v := by
  rw [State.dropRefs, credit_range, ← Finset.sum_neg_distrib]
  refine Finset.sum_congr rfl fun j hj => ?_
  split
  · rfl
  next hf =>
  obtain ⟨k, hb⟩ : ∃ k, cases[j]? = some k :=
    ⟨_, List.getElem?_eq_getElem (Finset.mem_range.mp hj)⟩
  have hop := (opOf_case hc).trans hb
  have hvalue := h (.case c j) _ trivial hop hpc
  have hquiet : ∀ op : Op V, recordValue (.case c j) op (moved s.log c) = recordValue (.case c j) op [] := by
    intro op
    rcases hm with hm | ⟨k, got, rfl, hm⟩
    · rw [hm]
    · rw [hm, recordValue_of_ne]
      exact fun he => hf (congrArg some he)
  rw [show Waiter.call (.case c j) = c from rfl, hquiet] at hvalue
  rw [hb, hvalue]
  obtain ⟨kch, kop⟩ := k
  cases kop with
  | send u =>
    rw [sends_of_send hop]
    simp only [Option.map_some, recordValue_nil, State.freshSlot, credit_cons, credit_nil,
      RefOp.credit, Option.some.injEq]
    split <;> rfl
  | recv =>
    rw [sends_of_recv hop]
    rfl

theorem credit_dropRefs_none (hc : calls c = .select cases d)
    (hpc : (s.call c).waiting = true) (hm : moved s.log c = []) :
    credit (s.dropRefs cases c none) v = -∑ w ∈ waitersOf calls c, sends calls w v := by
  rw [credit_dropRefs h hc hpc (.inl hm), sum_waitersOf_select hc]
  rfl

theorem credit_dropRefs_some (hc : calls c = .select cases d)
    (hpc : (s.call c).waiting = true) {k : ℕ} (hk : cases[k]? = some b)
    (hm : moved s.log c = [] ∨ ∃ got, moved s.log c = [(k, got)]) :
    credit (s.dropRefs cases c (some k)) v =
      sends calls (.case c k) v - ∑ w ∈ waitersOf calls c, sends calls w v := by
  have hm' : moved s.log c = [] ∨ ∃ j got, some k = some j ∧ moved s.log c = [(j, got)] := by
    rcases hm with hm | ⟨got, hm⟩
    · exact .inl hm
    · exact .inr ⟨k, got, rfl, hm⟩
  have hmem : k ∈ Finset.range cases.length :=
    Finset.mem_range.mpr (List.getElem?_eq_some_iff.mp hk).1
  rw [credit_dropRefs h hc hpc hm', sum_waitersOf_select hc, ← Finset.add_sum_erase _ _ hmem,
    ← Finset.add_sum_erase _ (fun j => sends calls (.case c j) v) hmem, if_pos rfl]
  have hrest : ∑ j ∈ (Finset.range cases.length).erase k,
      (if some k = some j then 0 else sends calls (.case c j) v) =
        ∑ j ∈ (Finset.range cases.length).erase k, sends calls (.case c j) v := by
    refine Finset.sum_congr rfl fun j hj => if_neg ?_
    rintro ⟨⟩
    exact Finset.notMem_erase k _ hj
  rw [hrest]
  omega

theorem Settled.giveUp (hc : calls c = .select cases d)
    (hpc : (s.call c).waiting = true) (hm : moved s.log c = []) :
    Settled calls pyNone s (s.goto c .retry) c (s.dropRefs cases c none) := by
  refine .goto (h.on _) rfl rfl ⟨?_, CallPc.given_of_waiting hpc, given_dropRefs .., fun v => ?_⟩
  · intro o ho
    obtain ⟨u, rfl⟩ := decref_of_dropRefs ho
    exact ⟨nofun, nofun⟩
  · rw [CallPc.credit_of_waiting hpc, credit_dropRefs_none h hc hpc hm, Int.add_right_neg]
    rfl

end

/-! ## The end of a select -/

/-- The fired case is settled by `ops`, and the other sends are dropped. -/
theorem Settled.finished (h : Records calls s) (hc : calls c = .select cases d) {k : ℕ}
    (hpc : (s.call c).waiting = true) (hk : cases[k]? = some b)
    (hm : moved s.log c = [] ∨ ∃ got, moved s.log c = [(k, got)]) {ops : List (RefOp V)}
    (hpc' : pc.waiting = false) (hsound : ∀ o ∈ ops, o ≠ .decref none ∧ o ≠ .give none)
    (hgiven : given ops = pc.given pyNone)
    (hcredit : ∀ v, sends calls (.case c k) v + credit ops v = pc.credit calls pyNone c v) :
    Settled calls pyNone s (s.goto c pc) c (s.dropRefs cases c (some k) ++ ops) := by
  refine .goto (h.on _) rfl hpc' ⟨?_, CallPc.given_of_waiting hpc, ?_, fun v => ?_⟩
  · intro o ho
    rcases mem_append.mp ho with ho | ho
    · obtain ⟨u, rfl⟩ := decref_of_dropRefs ho
      exact ⟨nofun, nofun⟩
    · exact hsound o ho
  · rw [given_append, given_dropRefs, nil_append, hgiven]
  · rw [CallPc.credit_of_waiting hpc, credit_append, credit_dropRefs_some h hc hpc hk hm, ← hcredit]
    omega

variable [DecidableEq H]

theorem Settled.finish (h : Records calls s) (hI : Inv calls cap s) (hc : calls c = .select cases d)
    {k : ℕ} (hpc : s.call c = .finish k) (hb : cases[k]? = some b) :
    ∀ t, (match b.op with
      | .send _ =>
        some (s.goto c (.returned
          (if (s.slot (.case c k)).sendResult = 0 then .selected k .sent else .sendClosed)))
      | .recv =>
        match (s.slot (.case c k)).value with
        | some x => some (s.goto c (.returned (.selected k (.value (some x)))))
        | none => some (s.goto c .retry)) = some t →
      Settled calls pyNone s t c (s.dropRefs cases c (some k) ++ s.finishRefs cases c k) := by
  obtain ⟨hf, hwait⟩ := hI.select hc hpc
  rw [hf] at hwait
  obtain ⟨b', hb', hfill⟩ := hwait
  rw [hb] at hb'
  cases hb'
  have hwaiting : (s.call c).waiting = true := by
    rw [hpc]
    rfl
  have hop : opOf calls (.case c k) = some b := (opOf_case hc).trans hb
  have hvalue := h (.case c k) b trivial hop hwaiting
  rw [show Waiter.call (.case c k) = c from rfl] at hvalue
  intro t ht
  obtain ⟨bch, bop⟩ := b
  unfold State.finishRefs
  rw [hb]
  cases bop with
  | send u =>
    cases ht
    have hsends : ∀ v, sends calls (.case c k) v = if u = v then 1 else 0 :=
      fun v => sends_of_send hop
    simp only [Option.map_some]
    rcases hfill with ⟨hr, hm⟩ | ⟨hr, hm, -⟩
    · -- The value was taken with its reference.
      rw [if_pos hr, if_pos hr]
      refine .finished h hc hwaiting hb (.inr ⟨_, hm⟩) rfl (forall_mem_nil _) rfl fun v => ?_
      exact Int.add_zero _
    · have hne : ¬(s.slot (.case c k)).sendResult = 0 := by
        rw [hr]
        decide
      rw [hm, recordValue_nil] at hvalue
      rw [if_neg hne, if_neg hne, hvalue]
      refine .finished h hc hwaiting hb (.inl hm) rfl ?_ rfl fun v => ?_
      · intro o ho
        rw [mem_singleton.mp ho]
        constructor <;> rintro ⟨⟩
      · rw [hsends]
        simp only [State.freshSlot, Option.map_some, credit_cons, credit_nil, RefOp.credit, Option.some.injEq]
        split <;> rfl
  | recv =>
    have hsends : ∀ v, sends calls (.case c k) v = 0 := fun v => sends_of_recv hop
    simp only [Option.map_some] at ht ⊢
    rcases hfill with ⟨⟨x, hx⟩, -, hm⟩ | ⟨hv, -, hm, -⟩
    · rw [hx] at ht ⊢
      cases ht
      refine .finished h hc hwaiting hb (.inr ⟨_, hm⟩) rfl ?_ rfl fun v => ?_
      · intro o ho
        rw [mem_singleton.mp ho]
        constructor <;> rintro ⟨⟩
      · rw [hsends]
        rfl
    · rw [hv] at ht ⊢
      cases ht
      refine .finished h hc hwaiting hb (.inl hm) rfl (forall_mem_nil _) rfl fun v => ?_
      rw [hsends]
      rfl

/-! ## Scan -/

theorem Settled.newPark (h : Records calls s) (hI : Inv calls cap s) (hc : calls c = .select cases d)
    (hpc : s.call c = .scan []) :
    Settled calls pyNone s (s.newPark cases c) c (cases.flatMap fun k => parkRefs k.op) := by
  have hm : moved s.log c = [] := hI.select hc hpc
  have hcall : (s.newPark cases c).call = Function.update s.call c (.install 0) := rfl
  have hops : ∀ o ∈ cases.flatMap (fun k => parkRefs k.op), ∃ u, o = .incref u := by
    intro o ho
    obtain ⟨k, -, hk⟩ := mem_flatMap.mp ho
    cases hop : k.op with
    | send u =>
      rw [hop] at hk
      exact ⟨u, mem_singleton.mp hk⟩
    | recv =>
      rw [hop] at hk
      cases hk
  refine ⟨?_, ?_, ?_⟩
  · intro w b _ hop hw
    by_cases hwc : w.call = c
    · obtain ⟨j, rfl⟩ : ∃ j, w = .case c j := by
        have hmem := mem_waitersOf.mpr ⟨hwc, b, hop⟩
        simp only [waitersOf, hc] at hmem
        obtain ⟨j, -, hj⟩ := Finset.mem_image.mp hmem
        exact ⟨j, hj.symm⟩
      rw [opOf_case hc] at hop
      have hnil : moved s.log (Waiter.call (.case c j)) = [] := hm
      simp only [State.newPark, State.goto, if_true, hop, hnil, recordValue_nil]
    · have hslot : (s.newPark cases c).slot w = s.slot w := by
        cases w with
        | plain e => rfl
        | case e j => exact if_neg hwc
      rw [hcall, Function.update_of_ne hwc] at hw
      rw [hslot]
      exact h w b trivial hop hw
  · intro e he
    rw [hcall, Function.update_of_ne he]
  · rw [hcall, Function.update_self, hpc]
    refine ⟨?_, rfl, ?_, ?_⟩
    · intro o ho
      obtain ⟨u, rfl⟩ := hops o ho
      constructor <;> rintro ⟨⟩
    · refine filterMap_eq_nil_iff.mpr fun o ho => ?_
      obtain ⟨u, rfl⟩ := hops o ho
      rfl
    · intro v
      rw [credit_newPark hc]
      exact Int.zero_add _

theorem Settled.scan (h : Records calls s) (hI : Inv calls cap s) (hc : calls c = .select cases d)
    {order : List ℕ} (hpc : s.call c = .scan (i :: order)) (hb : cases[i]? = some b) :
    ∀ t, (match s.opReady cap b.ch (.case c i) b.op with
      | (.got got, s) => some (s.goto c (.returned (.selected i got)))
      | (.sendClosed, s) => some (s.goto c (.returned .sendClosed))
      | (.notReady, s) => some (s.goto c (.scan order))) = some t →
      Settled calls pyNone s t c (s.opRefs pyNone cap b.ch b.op) := by
  have hunl : ∀ w, ¬LinkedAt (s.call (Waiter.call (.case c i))) w := by
    rw [Waiter.call, hpc]
    exact not_linkedAt_scan _
  have hm : moved s.log c = [] := hI.select hc hpc
  have hop : opOf calls (.case c i) = some ⟨b.ch, b.op⟩ := (opOf_case hc).trans hb
  obtain ⟨htried, hok⟩ := hI.opReady hop hunl hm
  have hrec := h.opReady hI b.ch b.op hunl
  rw [opRefs_eq pyNone cap s b.ch (.case c i) b.op]
  intro t ht
  cases heq : s.opReady cap b.ch (.case c i) b.op with
  | mk r u =>
    rw [heq] at htried hok hrec ht
    replace htried : Tried calls cap s u c := htried
    replace hrec : RecordsOn calls u (· ≠ c) := hrec
    cases r with
    | got got =>
      cases ht
      obtain ⟨hsound, hgiven, hcredit⟩ := tryRefs_pays pyNone hop hok
      refine .goto hrec htried.call rfl ?_
      rw [hpc]
      refine ⟨hsound, rfl, hgiven, fun v => ?_⟩
      rw [hcredit v]
      exact Int.zero_add _
    | sendClosed | notReady =>
      cases ht
      refine .goto hrec htried.call rfl ?_
      rw [hpc]
      exact .quiet rfl rfl fun _ => rfl

/-! ## Every step -/

section

variable (h : Records calls s)
include h

theorem Settled.selectStep (hI : Inv calls cap s) (hc : calls c = .select cases d) (inFiber : Bool) (r₁ r₂ : ℕ)
    (ht : s.selectStep cap inFiber cases d c r₁ r₂ (s.call c) = some t) :
    Settled calls pyNone s t c (s.selectRefs pyNone cap inFiber cases d c (s.call c)) := by
  have hwait : ∀ {u : State H C V} {pc pc' : CallPc C V}, s.call c = pc → pc.waiting = true →
      u.call = s.call → u.slot = s.slot → u.log = s.log → pc'.waiting = true →
      Settled calls pyNone s (u.goto c pc') c [] := by
    intro u pc pc' hpc hw hcall hslot hlog hw'
    exact .wait h hcall hslot hlog (by rw [hpc]; exact hw) hw'
  have haway : ∀ {u : State H C V} {pc pc' : CallPc C V}, s.call c = pc → u.call = s.call →
      u.slot = s.slot → u.log = s.log → pc'.waiting = false → Pays calls pyNone c pc pc' [] →
      Settled calls pyNone s (u.goto c pc') c [] := by
    intro u pc pc' hpc hcall hslot hlog hw hpays
    refine .goto ?_ hcall hw (by rw [hpc]; exact hpays)
    refine (h.on _).congr (fun e _ he => hcall ▸ he) (fun w _ => by rw [hslot]) fun e _ => ?_
    rw [hlog]
  cases hpc : s.call c with
  | idle | retry =>
    rw [hpc] at ht
    cases ht
    refine haway hpc rfl rfl rfl ?_ ?_
    · split <;> rfl
    · split <;> exact .quiet rfl rfl fun _ => rfl
  | start =>
    rw [hpc] at ht
    cases ht
    exact haway hpc rfl rfl rfl rfl (.quiet rfl rfl fun _ => rfl)
  | scan order =>
    rw [hpc] at ht
    cases order with
    | nil =>
      simp only [State.selectStep, Option.some.injEq] at ht
      simp only [State.selectRefs]
      subst ht
      split
      · exact haway hpc rfl rfl rfl rfl (.quiet rfl rfl fun _ => rfl)
      · split
        · exact haway hpc rfl rfl rfl rfl (.quiet rfl rfl fun _ => rfl)
        · exact .newPark h hI hc hpc
    | cons i order =>
      simp only [State.selectStep] at ht
      simp only [State.selectRefs]
      cases hb : cases[i]? with
      | none =>
        rw [hb] at ht
        cases ht
        exact haway hpc rfl rfl rfl rfl (.quiet rfl rfl fun _ => rfl)
      | some b =>
        rw [hb] at ht
        exact .scan h hI hc hpc hb t ht
  | install i =>
    rw [hpc] at ht
    simp only [State.selectStep] at ht
    split at ht
    · cases ht
      exact hwait hpc rfl rfl rfl rfl rfl
    · split at ht <;> cases ht
      · exact hwait hpc rfl rfl rfl rfl rfl
      · exact hwait hpc rfl rfl rfl rfl rfl
  | abort i | load =>
    rw [hpc] at ht
    simp only [State.selectStep] at ht
    split at ht <;> cases ht
    · exact hwait hpc rfl rfl rfl rfl rfl
    · exact hwait hpc rfl rfl rfl rfl rfl
  | evict i why =>
    rw [hpc] at ht
    simp only [State.selectStep] at ht
    cases hb : cases[i]? with
    | none =>
      rw [hb] at ht
      cases ht
      cases why with
      | restart =>
        simp only [State.selectRefs, hb]
        exact .giveUp h hc (by rw [hpc]; rfl) (hI.select hc hpc).1
      | reload | finish k => exact hwait hpc rfl rfl rfl rfl rfl
    | some b =>
      rw [hb] at ht
      have hnil : s.selectRefs pyNone cap inFiber cases d c (.evict i why) = [] := by
        cases why with
        | restart => simp only [State.selectRefs, hb]
        | reload | finish k => rfl
      rw [hnil]
      simp only at ht
      split at ht <;> cases ht
      · exact hwait hpc rfl rfl rfl rfl rfl
      · exact hwait hpc rfl rfl rfl rfl rfl
  | reload =>
    rw [hpc] at ht
    have hok := hI.select hc hpc
    simp only [State.selectStep] at ht
    simp only [State.selectRefs]
    cases hf : s.fired c with
    | none =>
      rw [hf] at ht hok
      cases ht
      exact .giveUp h hc (by rw [hpc]; rfl) hok
    | some k =>
      rw [hf] at ht
      cases ht
      exact hwait hpc rfl rfl rfl rfl rfl
  | finish k =>
    rw [hpc] at ht
    simp only [State.selectStep] at ht
    cases hb : cases[k]? with
    | none =>
      rw [hb] at ht
      cases ht
    | some b =>
      rw [hb] at ht
      exact .finish h hI hc hpc hb t ht
  | parked | yielded | returned out =>
    rw [hpc] at ht
    cases ht

theorem Settled.callStep (hI : Inv calls cap s) (inFiber : Bool) (r₁ r₂ : ℕ)
    (ht : s.callStep cap inFiber (calls c) c r₁ r₂ = some t) :
    Settled calls pyNone s t c (s.callRefs pyNone cap inFiber (calls c) c) := by
  have hidle : ∀ {b : Case H V}, opOf calls (.plain c) = some b → s.call c = .idle → moved s.log c = [] := by
    intro b hop hpc
    have hown := (Own.of_plain hop).mp (hI.own c)
    rw [hpc] at hown
    exact hown
  cases hc : calls c with
  | send ch v blocking =>
    have hop : opOf calls (.plain c) = some ⟨ch, .send v⟩ := by simp only [opOf, hc]
    rw [hc] at ht
    simp only [State.callStep] at ht
    split at ht <;> cases ht
    next hpc =>
      simp only [State.callRefs, hpc]
      exact .plainOp h hI inFiber blocking hpc hop (hidle hop hpc)
  | recv ch blocking =>
    have hop : opOf calls (.plain c) = some ⟨ch, .recv⟩ := by simp only [opOf, hc]
    rw [hc] at ht
    simp only [State.callStep] at ht
    split at ht <;> cases ht
    next hpc =>
      simp only [State.callRefs, hpc]
      exact .plainOp h hI inFiber blocking hpc hop (hidle hop hpc)
  | close ch =>
    rw [hc] at ht
    simp only [State.callStep] at ht
    split at ht <;> cases ht
    next hpc => exact .closeOp h hI hpc
  | select cases d =>
    rw [hc] at ht
    exact .selectStep h hI hc inFiber r₁ r₂ ht

theorem Settled.resume (hI : Inv calls cap s) (ht : s.resume (calls c) c = some t) :
    Settled calls pyNone s t c (s.returnRefs pyNone (calls c) c) := by
  unfold State.resume at ht
  split at ht <;> cases ht
  next ch v blocking hc hpc =>
    simp only [State.returnRefs, hc, hpc]
    exact .resumePlain (b := ⟨ch, .send v⟩) h hI hpc (by simp only [opOf, hc])
  next ch blocking hc hpc =>
    simp only [State.returnRefs, hc, hpc]
    exact .resumePlain (b := ⟨ch, .recv⟩) h hI hpc (by simp only [opOf, hc])
  next cases d hc hpc =>
    simp only [State.returnRefs, hc, hpc]
    exact .wait h rfl rfl rfl (by rw [hpc]; rfl) rfl

theorem Settled.step {inFiber : C → Bool} {a : Action C}
    (hI : Inv calls cap s) (ht : Chan.step cap inFiber calls s a = some t) :
    Settled calls pyNone s t a.caller (stepRefs pyNone cap inFiber calls s a) := by
  cases a with
  | call c r₁ r₂ => exact .callStep h hI (inFiber c) r₁ r₂ ht
  | resume c => exact .resume h hI ht

end

end Runloom.Chan
