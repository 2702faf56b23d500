import Runloom.Chan.Records

/-!
# The account of a call

What a call has added to the reference counts, and what it has given to its caller, at every place of its run: before
it waits and between two parks of a select nothing, while it waits one reference for each of its sends, and at its
return what it reports.
-/

namespace Runloom.Chan

open Transition List

variable {H C V : Type*} {calls : C → Call H V} {cap : H → ℕ} {s t : State H C V} {ch : H} {c : C}
  {pc pc' : CallPc C V} {pyNone : V}

/-! ## Counting -/

section Count

variable (ops ops' : List (RefOp V))

theorem given_append : given (ops ++ ops') = given ops ++ given ops' :=
  filterMap_append

@[simp]
theorem given_nil : given ([] : List (RefOp V)) = [] := rfl

@[simp]
theorem given_incref (v : V) : given (.incref v :: ops) = given ops := rfl

@[simp]
theorem given_decref (v : Option V) : given (.decref v :: ops) = given ops := rfl

@[simp]
theorem given_give (v : Option V) : given (.give v :: ops) = v :: given ops := rfl

variable [DecidableEq V] (v : V)

theorem credit_append : credit (ops ++ ops') v = credit ops v + credit ops' v := by
  rw [credit, map_append, sum_append]
  rfl

@[simp]
theorem credit_nil : credit [] v = 0 := rfl

@[simp]
theorem credit_cons (op : RefOp V) : credit (op :: ops) v = op.credit v + credit ops v :=
  sum_cons

theorem credit_range (f : ℕ → List (RefOp V)) (n : ℕ) :
    credit ((List.range n).flatMap f) v = ∑ j ∈ Finset.range n, credit (f j) v := by
  induction n with
  | zero => rfl
  | succ n ih =>
    rw [range_succ, flatMap_append, credit_append, ih, Finset.sum_range_succ, flatMap_singleton]

end Count

/-! ## The records of a call -/

variable [DecidableEq C]

def waitersOf (calls : C → Call H V) (c : C) : Finset (Waiter C) :=
  match calls c with
  | .send _ _ _ => {.plain c}
  | .recv _ _ => {.plain c}
  | .close _ => ∅
  | .select cases _ => (Finset.range cases.length).image (Waiter.case c)

theorem mem_waitersOf {w : Waiter C} : w ∈ waitersOf calls c ↔ w.call = c ∧ ∃ b, opOf calls w = some b := by
  constructor
  · intro hw
    unfold waitersOf at hw
    split at hw
    next ch v b hc =>
      rw [Finset.mem_singleton] at hw
      subst hw
      exact ⟨rfl, ⟨ch, .send v⟩, by simp only [opOf, hc]⟩
    next ch b hc =>
      rw [Finset.mem_singleton] at hw
      subst hw
      exact ⟨rfl, ⟨ch, .recv⟩, by simp only [opOf, hc]⟩
    next => exact absurd hw (Finset.notMem_empty w)
    next cases d hc =>
      obtain ⟨j, hj, rfl⟩ := Finset.mem_image.mp hw
      refine ⟨rfl, cases.get ⟨j, Finset.mem_range.mp hj⟩, ?_⟩
      rw [opOf_case hc]
      exact List.getElem?_eq_getElem _
  · rintro ⟨rfl, b, hop⟩
    cases w with
    | plain c =>
      unfold waitersOf
      simp only [opOf, Waiter.call] at hop ⊢
      cases hc : calls c with
      | send ch v b | recv ch b => exact Finset.mem_singleton_self _
      | close ch | select cases d =>
        rw [hc] at hop
        cases hop
    | case c j =>
      obtain ⟨cases, d, hc, hb⟩ := select_of_opOf hop
      simp only [waitersOf, Waiter.call, hc]
      refine Finset.mem_image.mpr ⟨j, Finset.mem_range.mpr ?_, rfl⟩
      exact (List.getElem?_eq_some_iff.mp hb).1

theorem waitersOf_plain {b : Case H V} (hop : opOf calls (.plain c) = some b) :
    waitersOf calls c = {.plain c} := by
  simp only [opOf] at hop
  cases hc : calls c with
  | send ch v b | recv ch b => simp only [waitersOf, hc]
  | close ch | select cases d =>
    rw [hc] at hop
    cases hop

theorem sum_waitersOf_plain {b : Case H V} (hop : opOf calls (.plain c) = some b)
    (f : Waiter C → ℤ) : ∑ w ∈ waitersOf calls c, f w = f (.plain c) := by
  rw [waitersOf_plain hop, Finset.sum_singleton]

theorem sum_waitersOf_select {cases : List (Case H V)} {d : Bool} (hc : calls c = .select cases d)
    (f : Waiter C → ℤ) :
    ∑ w ∈ waitersOf calls c, f w = ∑ j ∈ Finset.range cases.length, f (.case c j) := by
  simp only [waitersOf, hc]
  rw [Finset.sum_image]
  rintro i - j - ⟨⟩
  rfl

section Credit

variable [DecidableEq V] {v : V}

section

omit [DecidableEq C]

theorem sends_of_send {w : Waiter C} {u : V} (hop : opOf calls w = some ⟨ch, .send u⟩) :
    sends calls w v = if u = v then 1 else 0 := by
  simp only [sends, hop]

theorem sends_of_recv {w : Waiter C} (hop : opOf calls w = some ⟨ch, .recv⟩) : sends calls w v = 0 := by
  simp only [sends, hop]

end

/-! ## What a place owes -/

def CallPc.given (pyNone : V) : CallPc C V → List (Option V)
  | .returned out => out.given pyNone
  | _ => []

def CallPc.credit (calls : C → Call H V) (pyNone : V) (c : C) (v : V) : CallPc C V → ℤ
  | .returned out => out.credit calls pyNone c v
  | pc => if pc.waiting then ∑ w ∈ waitersOf calls c, sends calls w v else 0

/-- The operations `ops` of the call take its account from one place to the next. -/
structure Pays (calls : C → Call H V) (pyNone : V) (c : C) (pc pc' : CallPc C V)
    (ops : List (RefOp V)) : Prop where
  /-- No operation is on `NULL`. -/
  sound : ∀ op ∈ ops, op ≠ .decref none ∧ op ≠ .give none
  before : pc.given pyNone = []
  given : given ops = pc'.given pyNone
  credit : ∀ v, pc.credit calls pyNone c v + credit ops v = pc'.credit calls pyNone c v

structure Settled (calls : C → Call H V) (pyNone : V) (s t : State H C V) (c : C)
    (ops : List (RefOp V)) : Prop where
  records : Records calls t
  call : ∀ d, d ≠ c → t.call d = s.call d
  pays : Pays calls pyNone c (s.call c) (t.call c) ops

theorem Settled.goto {u : State H C V} {ops : List (RefOp V)} (h : RecordsOn calls u (· ≠ c))
    (hcall : u.call = s.call) (hpc : pc.waiting = false)
    (hpays : Pays calls pyNone c (s.call c) pc ops) :
    Settled calls pyNone s (u.goto c pc) c ops where
  records := h.goto hpc
  call d hd := by rw [State.goto_call, update_of_ne hd, hcall]
  pays := by
    rw [State.goto_call, update_self]
    exact hpays

omit [DecidableEq C] [DecidableEq V] in
theorem CallPc.given_of_waiting (h : pc.waiting = true) : pc.given pyNone = [] := by
  cases pc with
  | returned out => cases h
  | _ => rfl

theorem CallPc.credit_of_waiting (h : pc.waiting = true) :
    pc.credit calls pyNone c v = ∑ w ∈ waitersOf calls c, sends calls w v := by
  cases pc with
  | returned out | idle | start | scan order | retry => cases h
  | _ => rfl

theorem Pays.quiet (hg : pc.given pyNone = []) (hg' : pc'.given pyNone = [])
    (hc : ∀ v, pc.credit calls pyNone c v = pc'.credit calls pyNone c v) :
    Pays calls pyNone c pc pc' [] where
  sound := forall_mem_nil _
  before := hg
  given := hg'.symm
  credit v := by rw [credit_nil, Int.add_zero, hc]

theorem Settled.wait {u : State H C V} (h : Records calls s) (hcall : u.call = s.call)
    (hslot : u.slot = s.slot) (hlog : u.log = s.log) (hpc : (s.call c).waiting = true)
    (hpc' : pc.waiting = true) : Settled calls pyNone s (u.goto c pc) c [] where
  records := by
    refine Records.goto (RecordsOn.congr h ?_ ?_ ?_) fun _ => hcall ▸ hpc
    · exact fun d _ hd => hcall ▸ hd
    · exact fun w _ => by rw [hslot]
    · exact fun d _ => by rw [hlog]
  call d hd := by rw [State.goto_call, update_of_ne hd, hcall]
  pays := by
    rw [State.goto_call, update_self]
    refine .quiet (CallPc.given_of_waiting hpc) (CallPc.given_of_waiting hpc') fun v => ?_
    rw [CallPc.credit_of_waiting hpc, CallPc.credit_of_waiting hpc']

end Credit

/-! ## Sections of send and receive -/

section Ready

variable [DecidableEq H] {me : Waiter C} {op : Op V}

def tryRefs (pyNone : V) (op : Op V) : Try C V → List (RefOp V)
  | .got .sent => parkRefs op
  | .got (.value x) => [.give (x.map Item.value)]
  | .got .closed => closedRefs pyNone
  | _ => []

theorem sendRefs_eq (pyNone : V) (cap : H → ℕ) (s : State H C V) (ch : H) (me : Waiter C) (v : V) :
    s.sendRefs cap ch v = tryRefs pyNone (.send v) (s.sendReady cap ch me v).1 := by
  unfold State.sendRefs State.sendReady
  split
  · rfl
  · cases hp : s.waiterPopClaimable ch .recv with
    | mk o u =>
      cases o with
      | some rx => rfl
      | none =>
        simp only
        split <;> rfl

theorem recvRefs_eq (pyNone : V) (cap : H → ℕ) (s : State H C V) (ch : H) (me : Waiter C) :
    s.recvRefs pyNone cap ch = tryRefs pyNone .recv (s.recvReady cap ch me).1 := by
  unfold State.recvRefs State.recvReady
  split
  · simp only
    cases hp : (s.bufPop cap ch).2.waiterPopClaimable ch .send with
    | mk o u => cases o <;> rfl
  · cases hp : s.waiterPopClaimable ch .send with
    | mk o u =>
      cases o with
      | some tx => rfl
      | none =>
        simp only
        split <;> rfl

theorem opRefs_eq (pyNone : V) (cap : H → ℕ) (s : State H C V) (ch : H) (me : Waiter C) (op : Op V) :
    s.opRefs pyNone cap ch op = tryRefs pyNone op (s.opReady cap ch me op).1 := by
  cases op with
  | send v => exact sendRefs_eq pyNone cap s ch me v
  | recv => exact recvRefs_eq pyNone cap s ch me

omit [DecidableEq H] [DecidableEq C] in
theorem tryRefs_pays [DecidableEq V] (pyNone : V) {got : Got C V} {m : List (ℕ × Got C V)} {cl : Bool} {i : ℕ}
    (hop : opOf calls me = some ⟨ch, op⟩) (hok : GotOk op got m i cl) :
    (∀ o ∈ tryRefs pyNone op (.got got), o ≠ .decref none ∧ o ≠ .give none) ∧
      given (tryRefs pyNone op (.got got)) = got.given pyNone ∧
      ∀ v, credit (tryRefs pyNone op (.got got)) v = got.credit calls pyNone me v := by
  cases op with
  | send u =>
    obtain ⟨rfl, -⟩ := hok
    refine ⟨?_, rfl, fun v => ?_⟩
    · rintro o ho
      rw [mem_singleton.mp ho]
      exact ⟨nofun, nofun⟩
    · rw [Got.credit, sends_of_send hop]
      simp [tryRefs, parkRefs, RefOp.credit]
  | recv =>
    rcases hok with ⟨⟨x, rfl⟩, -⟩ | ⟨rfl, -, -⟩
    · refine ⟨?_, rfl, fun v => rfl⟩
      rintro o ho
      rw [mem_singleton.mp ho]
      exact ⟨nofun, nofun⟩
    · refine ⟨?_, rfl, fun v => ?_⟩
      · intro o ho
        simp only [tryRefs, closedRefs, mem_cons, not_mem_nil, or_false] at ho
        rcases ho with rfl | rfl <;> exact ⟨nofun, nofun⟩
      · simp [tryRefs, closedRefs, RefOp.credit, Got.credit]

end Ready

/-! ## Plain calls -/

section Plain

variable [DecidableEq H] [DecidableEq V] {b : Case H V}

theorem Settled.park {u : State H C V} (h : RecordsOn calls u (· ≠ c)) (hcall : u.call = s.call)
    (hpc : s.call c = .idle) (hop : opOf calls (.plain c) = some b) (hm : moved u.log c = []) :
    Settled calls pyNone s ((((u.setSlot (.plain c) (State.freshSlot (.plain c) b.op)).setQueue b.ch
      b.op.side ((u.chan b.ch).waiters b.op.side ++ [Waiter.plain c])).record
        (if b.op.side = .send then [.parks b.ch c] else [])).goto c .parked) c (parkRefs b.op) := by
  have hmoved : ∀ d, moved (u.log ++ if b.op.side = .send then [Event.parks b.ch c] else []) d =
      moved u.log d := by
    intro d
    rw [moved_append]
    split <;> exact append_nil _
  refine ⟨?_, ?_, ?_⟩
  · intro w b' _ hop' hw
    by_cases hwc : w.call = c
    · -- The call is a plain one, so this is its only record.
      have hmem := mem_waitersOf.mpr ⟨hwc, b', hop'⟩
      rw [waitersOf_plain hop, Finset.mem_singleton] at hmem
      subst hmem
      rw [hop] at hop'
      cases hop'
      have hnil : moved (u.log ++ if b.op.side = .send then [Event.parks b.ch c] else [])
          (Waiter.call (.plain c)) = [] := (hmoved c).trans hm
      simp only [State.goto, State.record, State.setQueue, State.setChan, State.setSlot,
        update_self, hnil, recordValue_nil]
    · rw [State.goto_call, update_of_ne hwc] at hw
      have hold := h w b' hwc hop' hw
      have hne : w ≠ .plain c := by
        rintro rfl
        exact hwc rfl
      simp only [State.goto, State.record, State.setQueue, State.setChan, State.setSlot, update_of_ne hne, hmoved]
      exact hold
  · intro d hd
    rw [State.goto_call, update_of_ne hd]
    exact congrFun hcall d
  · rw [State.goto_call, update_self, hpc]
    obtain ⟨bch, bop⟩ := b
    refine ⟨?_, rfl, ?_, ?_⟩
    · intro o ho
      cases bop with
      | send v =>
        rw [mem_singleton.mp ho]
        constructor <;> rintro ⟨⟩
      | recv => cases ho
    · cases bop <;> rfl
    · intro v
      have hpark : CallPc.credit calls pyNone c v .parked = sends calls (.plain c) v := by
        rw [CallPc.credit_of_waiting rfl, sum_waitersOf_plain hop]
      rw [hpark]
      cases bop with
      | send u =>
        rw [sends_of_send hop]
        simp [parkRefs, RefOp.credit, CallPc.credit, CallPc.waiting]
      | recv =>
        rw [sends_of_recv hop]
        rfl

theorem Settled.plainOp (h : Records calls s) (hI : Inv calls cap s) (inFiber blocking : Bool)
    {op : Op V} (hpc : s.call c = .idle) (hop : opOf calls (.plain c) = some ⟨ch, op⟩)
    (hm : moved s.log c = []) :
    Settled calls pyNone s (s.plainOp cap inFiber c ch op blocking) c
      (s.plainRefs pyNone cap inFiber c ch op blocking) := by
  have hunl : ∀ w, ¬LinkedAt (s.call (Waiter.call (.plain c))) w := by
    rw [Waiter.call, hpc]
    exact not_linkedAt_idle
  obtain ⟨htried, hok⟩ := hI.opReady hop hunl hm
  have hrec := h.opReady hI ch op hunl
  have href := opRefs_eq pyNone cap s ch (.plain c) op
  unfold State.plainOp State.plainRefs
  rw [href]
  -- The section ends the call with the references it leaves, or the call goes on to park.
  cases heq : s.opReady cap ch (.plain c) op with
  | mk r u =>
    rw [heq] at htried hok hrec
    replace htried : Tried calls cap s u c := htried
    replace hrec : RecordsOn calls u (· ≠ c) := hrec
    cases r with
    | got got =>
      obtain ⟨hsound, hgiven, hcredit⟩ := tryRefs_pays pyNone hop hok
      refine .goto hrec htried.call rfl ?_
      rw [hpc]
      refine ⟨hsound, rfl, hgiven, fun v => ?_⟩
      rw [hcredit v]
      exact Int.zero_add _
    | sendClosed =>
      refine .goto hrec htried.call rfl ?_
      rw [hpc]
      exact .quiet rfl rfl fun _ => rfl
    | notReady =>
      have hquiet : ∀ out : Outcome C V, out.given pyNone = [] → (∀ v, out.credit calls pyNone c v = 0) →
          Settled calls pyNone s (u.goto c (.returned out)) c [] := by
        intro out hg hc
        refine .goto hrec htried.call rfl ?_
        rw [hpc]
        exact .quiet rfl hg fun v => (hc v).symm
      simp only
      split
      · exact hquiet .wouldBlock rfl fun _ => rfl
      · split
        · exact hquiet .noGoroutine rfl fun _ => rfl
        · exact .park (b := ⟨ch, op⟩) hrec htried.call hpc hop hok.1

theorem Settled.resumePlain (h : Records calls s) (hI : Inv calls cap s) (hpc : s.call c = .parked)
    (hop : opOf calls (.plain c) = some b) :
    Settled calls pyNone s (s.resumePlain c b.op.side) c (s.resumeRefs pyNone c b.op) := by
  have hown := (Own.of_plain hop).mp (hI.own c)
  rw [hpc] at hown
  unfold State.resumePlain State.resumeRefs
  by_cases hq : (s.slot (.plain c)).queued = true
  · simp only [if_pos hq]
    refine ⟨h, fun _ _ => rfl, ?_⟩
    exact .quiet (by rw [hpc]; rfl) (by rw [hpc]; rfl) fun _ => rfl
  simp only [if_neg hq]
  rcases hown with ⟨hq', -⟩ | ⟨-, hfill⟩
  · exact absurd hq' hq
  have hsum : ∀ v, CallPc.credit calls pyNone c v .parked = sends calls (.plain c) v := by
    intro v
    rw [CallPc.credit_of_waiting rfl, sum_waitersOf_plain hop]
  obtain ⟨bch, bop⟩ := b
  cases bop with
  | send u =>
    simp only [Op.side]
    split
    next hr =>
      refine .goto (h.on _) rfl rfl ?_
      rw [hpc]
      refine .quiet rfl rfl fun v => ?_
      rw [hsum]
      rfl
    next hr =>
      refine .goto (h.on _) rfl rfl ?_
      rw [hpc]
      refine ⟨?_, rfl, rfl, fun v => ?_⟩
      · intro o ho
        rw [mem_singleton.mp ho]
        constructor <;> rintro ⟨⟩
      · rw [hsum, sends_of_send hop]
        simp only [credit_cons, credit_nil, RefOp.credit, Option.some.injEq]
        split <;> rfl
  | recv =>
    have hzero : ∀ v, CallPc.credit calls pyNone c v .parked = 0 :=
      fun v => (hsum v).trans (sends_of_recv hop)
    simp only [Op.side]
    rcases hfill with ⟨⟨x, hx⟩, hok, -⟩ | ⟨-, hok, -, -⟩
    · rw [if_pos hok, if_pos hok, hx]
      refine .goto (h.on _) rfl rfl ?_
      rw [hpc]
      refine ⟨?_, rfl, rfl, fun v => ?_⟩
      · intro o ho
        rw [mem_singleton.mp ho]
        constructor <;> rintro ⟨⟩
      · rw [hzero]
        rfl
    · have hne : ¬(s.slot (.plain c)).ok = 1 := by
        rw [hok]
        decide
      rw [if_neg hne, if_neg hne]
      refine .goto (h.on _) rfl rfl ?_
      rw [hpc]
      refine ⟨?_, rfl, rfl, fun v => ?_⟩
      · intro o ho
        simp only [closedRefs, mem_cons, not_mem_nil, or_false] at ho
        rcases ho with rfl | rfl <;> constructor <;> rintro ⟨⟩
      · rw [hzero]
        simp [closedRefs, RefOp.credit, CallPc.credit, Outcome.credit, Got.credit]

end Plain

/-! ## Close -/

section Close

omit [DecidableEq C] in
theorem closeSlot_value {k : Slot C V} {r : Side} (h : r = .recv → k.value = none) :
    (State.closeSlot k r).value = k.value := by
  cases r with
  | send => rfl
  | recv => exact (h rfl).symm

/-- The loops of `close` take no value. -/
theorem closeWaiters_value (r : Side) (ws : List (Waiter C)) (s : State H C V)
    (h : r = .recv → ∀ w ∈ ws, claimable s.fired w = true → (s.slot w).value = none)
    (x : Waiter C) : ((State.closeWaiters r ws s).slot x).value = (s.slot x).value := by
  induction ws generalizing s with
  | nil => rfl
  | cons w ws ih =>
    have htail : r = .recv → ∀ y ∈ ws, claimable s.fired y = true → (s.slot y).value = none :=
      fun hr y hy => h hr y (mem_cons_of_mem w hy)
    unfold State.closeWaiters
    split
    next hw =>
      have hone : ∀ y, (Function.update s.slot w (State.closeSlot (s.slot w) r) y).value = (s.slot y).value := by
        intro y
        by_cases hy : y = w
        · subst hy
          rw [update_self]
          exact closeSlot_value fun hr => h hr y mem_cons_self hw
        · rw [update_of_ne hy]
      refine (ih ({ s with fired := claim s.fired w }.setSlot w (State.closeSlot (s.slot w) r)) ?_).trans (hone x)
      intro hr y hy hc
      exact (hone y).trans (htail hr y hy (claimable_of_claim hc))
    next => exact ih s htail

variable [DecidableEq H]

theorem closeSides_value (hI : Inv calls cap s) (ch : H) (x : Waiter C) :
    ((((s.setChan ch { s.chan ch with closed := true }).closeSide ch .send).closeSide ch
      .recv).slot x).value = (s.slot x).value := by
  let s₁ := s.setChan ch { s.chan ch with closed := true }
  let s₂ := s₁.closeSide ch .send
  obtain ⟨hchan₂, -, -, hkept₂⟩ :=
    closeWaiters_fields .send ((s₁.chan ch).waiters .send) (s₁.setQueue ch .send [])
  have hvalue₂ : ∀ y, (s₂.slot y).value = (s.slot y).value :=
    closeWaiters_value .send ((s₁.chan ch).waiters .send) (s₁.setQueue ch .send []) nofun
  have hqueue₂ : (s₂.chan ch).waiters .recv = (s.chan ch).waiters .recv := by
    rw [show s₂.chan = (s₁.setQueue ch .send []).chan from hchan₂]
    simp only [State.setQueue, State.setChan, s₁, update_self]
    rfl
  refine (closeWaiters_value .recv ((s₂.chan ch).waiters .recv) (s₂.setQueue ch .recv []) ?_ x).trans (hvalue₂ x)
  intro _ w hw hc
  have hclaim : claimable s.fired w = true := by
    cases w with
    | plain d => rfl
    | case d i =>
      rw [claimable_case] at hc ⊢
      cases hf : s.fired d with
      | none => rfl
      | some k =>
        have hkept : (s₂.setQueue ch .recv []).fired d = some k := hkept₂ d k hf
        rw [hkept] at hc
        cases hc
  rw [hqueue₂] at hw
  obtain ⟨b, hop, hbch, hside⟩ := hI.queue.op ch .recv w hw
  obtain rfl := eq_of_side hbch hside
  have hfresh := hI.queue.fresh ch .recv w _ hw hclaim hop
  exact (hvalue₂ w).trans (by rw [hfresh]; rfl)

theorem Settled.closeOp [DecidableEq V] (h : Records calls s) (hI : Inv calls cap s)
    (hpc : s.call c = .idle) : Settled calls pyNone s (s.closeOp c ch) c [] := by
  unfold State.closeOp
  split
  · refine .goto (h.on _) rfl rfl ?_
    rw [hpc]
    exact .quiet rfl rfl fun _ => rfl
  · obtain ⟨-, hcall, hlog, -⟩ := closeSides_fields s ch
    refine .goto ?_ hcall rfl ?_
    · refine (h.on _).congr (fun d _ hd => ?_) (fun w _ => closeSides_value hI ch w) fun d _ => ?_
      · rwa [hcall] at hd
      · rw [hlog]
    · rw [hpc]
      exact .quiet rfl rfl fun _ => rfl

end Close

end Runloom.Chan
