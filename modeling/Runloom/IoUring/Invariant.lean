import Mathlib.Data.List.Nodup
import Runloom.IoUring.Model

/-!
# Who may hold the address of a record

The invariant of the io_uring model, in four parts: what each call knows of its own record (`CallAt`), where its
completion is (`QueueOk`), who else has loaded its address from `g->iouring_op` (`RefsOk`), and which waiter nodes a
walker can come to (`MsOk`).
-/

namespace Runloom.IoUring

open Transition Linked List

variable {C D K H G M : Type*}

namespace CallPc

/-- `g->iouring_op` holds the address of the record. -/
def published : CallPc → Bool
  | .link => true
  | .parked => true
  | .test => true
  | .unlink => true
  | .clear => true
  | _ => false

/-- From the publication to the return: a canceller may have the address. -/
def inPark : CallPc → Bool
  | .link => true
  | .parked => true
  | .test => true
  | .unlink => true
  | .clear => true
  | .signal => true
  | .interrupt => true
  | .finish waited => waited
  | _ => false

def onWaiters : CallPc → Bool
  | .msLink => true
  | .msParked => true
  | .msResumed => true
  | .msRelock => true
  | _ => false

/-- In `ms_recv`, so that the node is on a live stack. -/
def inMs : CallPc → Bool
  | .msLock => true
  | .msLink => true
  | .msParked => true
  | .msResumed => true
  | .msRelock => true
  | .msReturn _ => true
  | _ => false

variable {pc : CallPc}

theorem ne_returned_of_inPark (h : pc.inPark = true) (out : Outcome) : pc ≠ .returned out := by
  rintro rfl
  cases h

theorem ne_returned_of_inMs (h : pc.inMs = true) (out : Outcome) : pc ≠ .returned out := by
  rintro rfl
  cases h

theorem inMs_of_onWaiters (h : pc.onWaiters = true) : pc.inMs = true := by
  cases pc <;> first | rfl | cases h

theorem inPark_of_published (h : pc.published = true) : pc.inPark = true := by
  cases pc <;> first | rfl | cases h

theorem inPark_of_inMs (h : pc.inMs = true) : pc.inPark = false := by
  cases pc <;> first | rfl | cases h

end CallPc

/-! ## A call and its record -/

def Phase.drainer : Phase D → Option D
  | .taken d _ => some d
  | .stored d _ => some d
  | .waking d _ => some d
  | _ => none

/-- `op.result` is the sentinel until the completion is stored. -/
def ResultOk (ph : Phase D) (posted : Option ℤ) (r : ℤ) : Prop :=
  match ph with
  | .unsubmitted => posted = none
  | .inflight => posted = none ∧ r = int32Min
  | .queued v => posted = some v ∧ r = int32Min ∧ int32Min < v
  | .taken _ v => posted = some v ∧ r = int32Min ∧ int32Min < v
  | .stored _ v => posted = some v ∧ r = v ∧ int32Min < v
  | .waking _ v => posted = some v ∧ r = v ∧ int32Min < v
  | .finished v => posted = some v ∧ r = v ∧ int32Min < v

/-- `op.wait` before the call has committed to park. -/
def Early (ph : Phase D) (w : WaitState) : Prop :=
  match ph with
  | .unsubmitted => False
  | .waking _ _ => False
  | .finished _ => w = .done
  | _ => w = .inflight

/-- `op.wait` after the commitment: the completing drainer wakes the fiber. -/
def Late (call : Call H G M) (ph : Phase D) (w : WaitState) (woken : Bool) : Prop :=
  match ph with
  | .unsubmitted => False
  | .waking _ _ => call.hub.isSome → w = .done
  | .finished _ => (call.hub.isSome → w = .done) ∧ (call.g.isSome → woken = true)
  | _ => call.hub.isSome → w = .parked

/-- What a call may return when its completion carried `v`. -/
def OutcomeOf (v : ℤ) (signaled : Bool) (out : Outcome) : Prop :=
  out = .ofResult v ∨ signaled = true ∧ v < 0 ∧ out = .interrupted

def CallOk (call : Call H G M) (pc : CallPc) (ph : Phase D) (w : WaitState) (r : ℤ)
    (signaled woken : Bool) : Prop :=
  match pc with
  | .idle => ph = .unsubmitted
  | .submit => call.isMsRecv = false ∧ ph = .unsubmitted ∧ w = .inflight ∧ r = int32Min
  | .load => call.hub.isSome ∧ call.isLoopIo = false ∧ Early ph w
  | .cas => call.hub.isSome ∧ Early ph w
  | .publish => call.hub.isSome ∧ call.isLoopIo = false ∧ Late call ph w woken
  | .link => call.isLoopIo = false ∧ Late call ph w woken
  | .parked => Late call ph w woken
  | .test => call.isLoopIo = false ∧ Late call ph w woken
  | .unlink => call.isLoopIo = false ∧ Late call ph w woken ∧ r ≠ int32Min
  | .clear => call.isLoopIo = false ∧ Late call ph w woken ∧ r ≠ int32Min
  | .signal => call.isLoopIo = false ∧ Late call ph w woken ∧ r ≠ int32Min
  | .interrupt => Late call ph w woken ∧ r ≠ int32Min ∧ r < 0 ∧ signaled = true
  | .threadTest => call = .iouringDo .thread ∧ Late call ph w woken
  | .enter => call = .iouringDo .thread ∧ Late call ph w woken
  | .finish true => Late call ph w woken ∧ (call.isLoopIo = false → r ≠ int32Min)
  | .finish false => ∃ v, ph = .finished v
  | .returned out =>
    ph = .unsubmitted ∧ (out = .failed ∨ call.isMsRecv = true) ∨ ∃ v, ph = .finished v ∧ OutcomeOf v signaled out
  | .msLock => ph = .unsubmitted ∧ call.isMsRecv = true
  | .msLink => ph = .unsubmitted ∧ call.isMsRecv = true
  | .msParked => ph = .unsubmitted ∧ call.isMsRecv = true
  | .msResumed => ph = .unsubmitted ∧ call.isMsRecv = true
  | .msRelock => ph = .unsubmitted ∧ call.isMsRecv = true
  | .msReturn _ => ph = .unsubmitted ∧ call.isMsRecv = true

def CallAt (calls : C → Call H G M) (s : State C D K H G M) (c : C) : Prop :=
  CallOk (calls c) (s.call c) (s.phase c) (s.wait c) (s.result c) (s.signaled c) (s.woken c) ∧
    ResultOk (s.phase c) (s.posted c) (s.result c)

theorem ResultOk.of_ne {ph : Phase D} {posted : Option ℤ} {r : ℤ} (h : ResultOk ph posted r) (hr : r ≠ int32Min) :
    ph = .unsubmitted ∨ (∃ d, ph.drainer = some d) ∨ ∃ v, ph = .finished v ∧ r = v := by
  cases ph with
  | unsubmitted => exact .inl rfl
  | inflight => exact absurd h.2 hr
  | queued v | taken d v => exact absurd h.2.1 hr
  | stored d v | waking d v => exact .inr (.inl ⟨d, rfl⟩)
  | finished v => exact .inr (.inr ⟨v, rfl, h.2.1⟩)

theorem Late.ne_unsubmitted {call : Call H G M} {ph : Phase D} {w : WaitState} {woken : Bool}
    (h : Late call ph w woken) : ph ≠ .unsubmitted := by
  rintro rfl
  exact h

/-! ## Completions -/

def Cqe.op : Cqe C M → Option C
  | .single c _ => some c
  | .multi _ _ _ _ => none

def DrainOk (phase : C → Phase D) (d : D) : DrainPc C H M → Prop
  | .taken _ c v => phase c = .taken d v
  | .stored _ c => ∃ v, phase c = .stored d v
  | .waking _ c => ∃ v, phase c = .waking d v
  | _ => True

theorem DrainOk.drainer_phase {phase : C → Phase D} {d : D} {pc : DrainPc C H M} {c : C}
    (h : DrainOk phase d pc) (hpc : pc.op = some c) : (phase c).drainer = some d := by
  cases pc with
  | taken r x v =>
    cases hpc
    change phase c = .taken d v at h
    rw [h]
    rfl
  | stored r x | waking r x =>
    cases hpc
    obtain ⟨v, hv⟩ := h
    rw [hv]
    rfl
  | _ => cases hpc

theorem DrainOk.congr {phase phase' : C → Phase D} {d : D} {pc : DrainPc C H M}
    (h : DrainOk phase d pc) (hph : ∀ x, pc.op = some x → phase' x = phase x) :
    DrainOk phase' d pc := by
  cases pc with
  | taken r x v => exact (hph x rfl).trans h
  | stored r x | waking r x =>
    obtain ⟨v, hv⟩ := h
    exact ⟨v, (hph x rfl).trans hv⟩
  | _ => trivial

theorem drainOk_of_op {phase : C → Phase D} {d : D} {pc : DrainPc C H M} (h : pc.op = none) :
    DrainOk phase d pc := by
  cases pc <;> trivial

structure QueueOk (calls : C → Call H G M) (cq : Ring H → List (Cqe C M)) (phase : C → Phase D)
    (drainer : D → DrainPc C H M) : Prop where
  queued : ∀ r c v, Cqe.single c v ∈ cq r → phase c = .queued v ∧ r = (calls c).cq
  once : ∀ r, ((cq r).filterMap Cqe.op).Nodup
  drains : ∀ d, DrainOk phase d (drainer d)
  holder : ∀ c d, (phase c).drainer = some d → (drainer d).op = some c

/-! ## Pointers from `g->iouring_op` -/

/-- A canceller, a mailbox or the hub that drains it has the address of the record. -/
def Held (canceller : K → CancelPc C G) (mailbox : H → Option C) (hub : H → MailPc C) (c : C) :
    Prop :=
  (∃ k, (canceller k).op = some c) ∨ (∃ h, mailbox h = some c) ∨ ∃ h, (hub h).op = some c

/-- `loop_io` keeps its record to itself. -/
def Call.publishes (call : Call H G M) : Bool :=
  call.hub.isSome && !call.isLoopIo

structure RefsOk (calls : C → Call H G M) (iouringOp : G → Option C) (call : C → CallPc)
    (canceller : K → CancelPc C G) (mailbox : H → Option C) (hub : H → MailPc C) : Prop where
  published : ∀ g c, iouringOp g = some c →
    (calls c).g = some g ∧ (calls c).publishes = true ∧ (call c).published = true
  held : ∀ c, Held canceller mailbox hub c → (call c).inPark = true

/-! ## Waiter nodes -/

structure MsOk (calls : C → Call H G M) (next : C → Option C) (onList : C → Bool)
    (handle : M → Handle C) (call : C → CallPc) (drainer : D → DrainPc C H M) : Prop where
  spells : ∀ m, Spells next (handle m).waiters
  nodup : ∀ m, (handle m).waiters.Nodup
  waiting : ∀ m c, c ∈ (handle m).waiters →
    onList c = true ∧ (∃ n, calls c = .msRecv m n) ∧ (call c).onWaiters = true
  walking : ∀ d r p c, drainer d = .msWalk r p → Visits next p c → (call c).inMs = true

structure Inv (calls : C → Call H G M) (s : State C D K H G M) : Prop where
  own : ∀ c, CallAt calls s c
  queue : QueueOk calls s.cq s.phase s.drainer
  refs : RefsOk calls s.iouringOp s.call s.canceller s.mailbox s.hub
  ms : MsOk calls s.next s.onList s.handle s.call s.drainer

variable {calls : C → Call H G M}

theorem Inv.init {s : State C D K H G M} (h : Init s) : Inv calls s where
  own c := by
    unfold CallAt
    rw [h.call, h.phase, h.posted]
    exact ⟨rfl, rfl⟩
  queue :=
    { queued := fun r c v hc => by
        rw [h.cq] at hc
        cases hc
      once := fun r => by
        rw [h.cq]
        exact nodup_nil
      drains := fun d => by
        rw [h.drainer]
        trivial
      holder := fun c d hd => by
        rw [h.phase] at hd
        cases hd }
  refs :=
    { published := fun g c hg => by
        rw [h.iouringOp] at hg
        cases hg
      held := fun c hc => by
        rcases hc with ⟨k, hk⟩ | ⟨x, hx⟩ | ⟨x, hx⟩
        · rw [h.canceller] at hk
          cases hk
        · rw [h.mailbox] at hx
          cases hx
        · rw [h.hub] at hx
          cases hx }
  ms :=
    { spells := fun m => by
        rw [h.waiters]
        trivial
      nodup := fun m => by
        rw [h.waiters]
        exact nodup_nil
      waiting := fun m c hc => by
        rw [h.waiters] at hc
        cases hc
      walking := fun d r p c hd => by
        rw [h.drainer] at hd
        cases hd }

/-! ## Frames -/

section Frames

variable {cq : Ring H → List (Cqe C M)} {phase : C → Phase D} {drainer : D → DrainPc C H M}
  {iouringOp : G → Option C} {call : C → CallPc} {canceller : K → CancelPc C G}
  {mailbox : H → Option C} {hub : H → MailPc C} {next : C → Option C} {onList : C → Bool}
  {handle : M → Handle C}

variable {c : C} {pc : CallPc}

section

variable (h : RefsOk calls iouringOp call canceller mailbox hub)
include h

theorem RefsOk.move [DecidableEq C] (hpub : ∀ g, iouringOp g = some c → pc.published = true)
    (hheld : Held canceller mailbox hub c → pc.inPark = true) :
    RefsOk calls iouringOp (update call c pc) canceller mailbox hub where
  published g x hg := by
    obtain ⟨hgx, hhub, hpc⟩ := h.published g x hg
    by_cases hx : x = c
    · subst hx
      rw [update_self]
      exact ⟨hgx, hhub, hpub g hg⟩
    · rw [update_of_ne hx]
      exact ⟨hgx, hhub, hpc⟩
  held x hx := by
    by_cases hxc : x = c
    · subst hxc
      rw [update_self]
      exact hheld hx
    · rw [update_of_ne hxc]
      exact h.held x hx

theorem RefsOk.follow [DecidableEq C] (hpub : (call c).published = true → pc.published = true)
    (hpark : (call c).inPark = true → pc.inPark = true) :
    RefsOk calls iouringOp (update call c pc) canceller mailbox hub :=
  h.move (fun g hg => hpub (h.published g c hg).2.2) fun hc => hpark (h.held c hc)

theorem RefsOk.hold {canceller' : K → CancelPc C G} {mailbox' : H → Option C} {hub' : H → MailPc C}
    (hheld : ∀ x, Held canceller' mailbox' hub' x → Held canceller mailbox hub x ∨ ∃ g, iouringOp g = some x) :
    RefsOk calls iouringOp call canceller' mailbox' hub' where
  published := h.published
  held x hx := by
    rcases hheld x hx with hx | ⟨g, hg⟩
    · exact h.held x hx
    · exact CallPc.inPark_of_published (h.published g x hg).2.2

end

section

variable (h : MsOk calls next onList handle call drainer)
include h

theorem MsOk.move [DecidableEq C] (hwait : ∀ m, c ∈ (handle m).waiters → pc.onWaiters = true)
    (hwalk : ∀ d r p, drainer d = .msWalk r p → Visits next p c → pc.inMs = true) :
    MsOk calls next onList handle (update call c pc) drainer where
  spells := h.spells
  nodup := h.nodup
  waiting m x hx := by
    obtain ⟨hon, hcall, hpc⟩ := h.waiting m x hx
    by_cases hxc : x = c
    · subst hxc
      rw [update_self]
      exact ⟨hon, hcall, hwait m hx⟩
    · rw [update_of_ne hxc]
      exact ⟨hon, hcall, hpc⟩
  walking d r p x hd hx := by
    by_cases hxc : x = c
    · subst hxc
      rw [update_self]
      exact hwalk d r p hd hx
    · rw [update_of_ne hxc]
      exact h.walking d r p x hd hx

theorem MsOk.follow [DecidableEq C] (hwait : (call c).onWaiters = true → pc.onWaiters = true)
    (hms : (call c).inMs = true → pc.inMs = true) :
    MsOk calls next onList handle (update call c pc) drainer :=
  h.move (fun m hm => hwait (h.waiting m c hm).2.2) fun d r p hd hx => hms (h.walking d r p c hd hx)

theorem MsOk.drain [DecidableEq D] {d : D} {pc : DrainPc C H M} (hpc : ∀ r p, pc ≠ .msWalk r p) :
    MsOk calls next onList handle call (update drainer d pc) where
  spells := h.spells
  nodup := h.nodup
  waiting := h.waiting
  walking e r p x he := by
    by_cases hed : e = d
    · subst hed
      rw [update_self] at he
      exact absurd he (hpc r p)
    · rw [update_of_ne hed] at he
      exact h.walking e r p x he

theorem MsOk.setHandle [DecidableEq M] {m : M} {hd : Handle C} (hw : hd.waiters = (handle m).waiters) :
    MsOk calls next onList (update handle m hd) call drainer := by
  have hsame : ∀ x, (update handle m hd x).waiters = (handle x).waiters := by
    intro x
    by_cases hx : x = m
    · subst hx
      rw [update_self, hw]
    · rw [update_of_ne hx]
  exact
    { spells := fun x => by rw [hsame]; exact h.spells x
      nodup := fun x => by rw [hsame]; exact h.nodup x
      waiting := fun x c hc => by rw [hsame] at hc; exact h.waiting x c hc
      walking := h.walking }

theorem MsOk.eq_of_mem {m m' : M} {n : ℕ} (hcall : calls c = .msRecv m n)
    (hc : c ∈ (handle m').waiters) : m' = m := by
  obtain ⟨n', hn⟩ := (h.waiting m' c hc).2.1
  rw [hcall] at hn
  cases hn
  rfl

end

theorem Inv.setHandle [DecidableEq M] {s : State C D K H G M} (hI : Inv calls s) {m : M}
    {h : Handle C} (hw : h.waiters = (s.handle m).waiters) : Inv calls (s.setHandle m h) where
  own := hI.own
  queue := hI.queue
  refs := hI.refs
  ms := hI.ms.setHandle hw

section

variable (h : QueueOk calls cq phase drainer)
include h

theorem QueueOk.setPhase [DecidableEq C] {ph : Phase D}
    (hold : ∀ v, phase c ≠ .queued v) (hnone : (phase c).drainer = none) (hph : ph.drainer = none) :
    QueueOk calls cq (update phase c ph) drainer where
  queued r x v hx := by
    obtain ⟨hxp, hr⟩ := h.queued r x v hx
    have hxc : x ≠ c := fun e => hold v (e ▸ hxp)
    rw [update_of_ne hxc]
    exact ⟨hxp, hr⟩
  once := h.once
  drains d := by
    apply (h.drains d).congr
    intro x hx
    have hxc : x ≠ c := by
      rintro rfl
      rw [(h.drains d).drainer_phase hx] at hnone
      cases hnone
    exact update_of_ne hxc _ _
  holder x d hd := by
    by_cases hxc : x = c
    · subst hxc
      rw [update_self, hph] at hd
      cases hd
    · rw [update_of_ne hxc] at hd
      exact h.holder x d hd

theorem QueueOk.drain [DecidableEq D] {d : D}
    {pc : DrainPc C H M} (hold : (drainer d).op = none) (hpc : pc.op = none) :
    QueueOk calls cq phase (update drainer d pc) where
  queued := h.queued
  once := h.once
  drains e := by
    by_cases hed : e = d
    · subst hed
      rw [update_self]
      exact drainOk_of_op hpc
    · rw [update_of_ne hed]
      exact h.drains e
  holder x e he := by
    have hne : e ≠ d := by
      rintro rfl
      rw [h.holder x e he] at hold
      cases hold
    rw [update_of_ne hne]
    exact h.holder x e he

theorem QueueOk.advance [DecidableEq C] [DecidableEq D] {d : D}
    {ph : Phase D} {pc : DrainPc C H M} (hop : (drainer d).op = some c)
    (hok : DrainOk (update phase c ph) d pc)
    (hnext : pc.op = some c ∧ ph.drainer = some d ∨ pc.op = none ∧ ph.drainer = none) :
    QueueOk calls cq (update phase c ph) (update drainer d pc) := by
  have hc : (phase c).drainer = some d := (h.drains d).drainer_phase hop
  refine ⟨?_, h.once, ?_, ?_⟩
  · intro r x v hx
    obtain ⟨hxp, hr⟩ := h.queued r x v hx
    have hxc : x ≠ c := by
      rintro rfl
      rw [hxp] at hc
      cases hc
    rw [update_of_ne hxc]
    exact ⟨hxp, hr⟩
  · intro e
    by_cases hed : e = d
    · subst hed
      rw [update_self]
      exact hok
    · rw [update_of_ne hed]
      apply (h.drains e).congr
      intro x hx
      have hxc : x ≠ c := by
        rintro rfl
        rw [(h.drains e).drainer_phase hx] at hc
        exact hed (Option.some.inj hc)
      exact update_of_ne hxc _ _
  · intro x e he
    by_cases hxc : x = c
    · subst hxc
      rw [update_self] at he
      rcases hnext with ⟨hpc, hph⟩ | ⟨-, hph⟩
      · rw [hph] at he
        cases he
        rw [update_self]
        exact hpc
      · rw [hph] at he
        cases he
    · rw [update_of_ne hxc] at he
      have hex := h.holder x e he
      have hed : e ≠ d := by
        rintro rfl
        rw [hex] at hop
        exact hxc (Option.some.inj hop)
      rw [update_of_ne hed]
      exact hex

theorem QueueOk.post [DecidableEq C] [DecidableEq H] {res : ℤ} (hc : phase c = .inflight) :
    QueueOk calls (update cq (calls c).cq (cq (calls c).cq ++ [Cqe.single c res]))
      (update phase c (.queued res)) drainer := by
  have hnew : ∀ r v, Cqe.single c v ∉ cq r := by
    intro r v hm
    have hq := (h.queued r c v hm).1
    rw [hc] at hq
    cases hq
  refine ⟨?_, ?_, ?_, ?_⟩
  · intro r x v hx
    have hold : Cqe.single x v ∈ cq r → _ := fun hm => h.queued r x v hm
    by_cases hxc : x = c
    · subst hxc
      rw [update_self]
      by_cases hr : r = (calls x).cq
      · subst hr
        rw [update_self, mem_append] at hx
        rcases hx with hx | hx
        · exact absurd hx (hnew _ v)
        · cases mem_singleton.mp hx
          exact ⟨rfl, rfl⟩
      · rw [update_of_ne hr] at hx
        exact absurd hx (hnew r v)
    · rw [update_of_ne hxc]
      by_cases hr : r = (calls c).cq
      · subst hr
        rw [update_self, mem_append] at hx
        rcases hx with hx | hx
        · exact hold hx
        · cases mem_singleton.mp hx
          exact absurd rfl hxc
      · rw [update_of_ne hr] at hx
        exact hold hx
  · intro r
    by_cases hr : r = (calls c).cq
    · subst hr
      rw [update_self, filterMap_append]
      apply List.Nodup.append (h.once _) (nodup_singleton c)
      intro x hx hxc
      cases mem_singleton.mp hxc
      obtain ⟨e, he, hex⟩ := mem_filterMap.mp hx
      cases e with
      | single y v =>
        cases hex
        exact hnew _ v he
      | multi m v b o => cases hex
    · rw [update_of_ne hr]
      exact h.once r
  · intro d
    apply (h.drains d).congr
    intro x hx
    have hxc : x ≠ c := by
      rintro rfl
      have hd := (h.drains d).drainer_phase hx
      rw [hc] at hd
      cases hd
    exact update_of_ne hxc _ _
  · intro x d hd
    by_cases hxc : x = c
    · subst hxc
      rw [update_self] at hd
      cases hd
    · rw [update_of_ne hxc] at hd
      exact h.holder x d hd

theorem QueueOk.take [DecidableEq C] [DecidableEq D] [DecidableEq H] {d : D} {r : Ring H} {res : ℤ}
    {rest : List (Cqe C M)} (hcq : cq r = .single c res :: rest) (hop : (drainer d).op = none) :
    QueueOk calls (update cq r rest) (update phase c (.taken d res)) (update drainer d (.taken r c res)) := by
  have hmem : Cqe.single c res ∈ cq r := hcq ▸ mem_cons_self
  obtain ⟨hc, hr⟩ := h.queued r c res hmem
  have honce := h.once r
  rw [hcq] at honce
  have hrest : ∀ v, Cqe.single c v ∉ rest := fun v hv =>
    (nodup_cons.mp honce).1 (mem_filterMap.mpr ⟨_, hv, rfl⟩)
  refine ⟨?_, ?_, ?_, ?_⟩
  · intro r' x v hx
    have hxold : Cqe.single x v ∈ cq r' ∧ x ≠ c := by
      by_cases hrr : r' = r
      · subst hrr
        rw [update_self] at hx
        refine ⟨hcq ▸ mem_cons_of_mem _ hx, ?_⟩
        rintro rfl
        exact hrest v hx
      · rw [update_of_ne hrr] at hx
        refine ⟨hx, ?_⟩
        -- A record is posted to one queue only.
        rintro rfl
        exact hrr ((h.queued r' x v hx).2.trans hr.symm)
    rw [update_of_ne hxold.2]
    exact h.queued r' x v hxold.1
  · intro r'
    by_cases hrr : r' = r
    · subst hrr
      rw [update_self]
      exact (nodup_cons.mp honce).2
    · rw [update_of_ne hrr]
      exact h.once r'
  · intro e
    by_cases hed : e = d
    · subst hed
      rw [update_self]
      exact update_self ..
    · rw [update_of_ne hed]
      apply (h.drains e).congr
      intro x hx
      have hxc : x ≠ c := by
        rintro rfl
        have he := (h.drains e).drainer_phase hx
        rw [hc] at he
        cases he
      exact update_of_ne hxc _ _
  · intro x e he
    by_cases hxc : x = c
    · subst hxc
      rw [update_self] at he
      cases he
      rw [update_self]
      rfl
    · rw [update_of_ne hxc] at he
      have hex := h.holder x e he
      have hed : e ≠ d := by
        rintro rfl
        rw [hop] at hex
        cases hex
      rw [update_of_ne hed]
      exact hex

theorem QueueOk.setCq [DecidableEq H] {r : Ring H}
    {l : List (Cqe C M)} (hmem : ∀ c v, Cqe.single c v ∈ l → Cqe.single c v ∈ cq r)
    (hop : l.filterMap Cqe.op = (cq r).filterMap Cqe.op) :
    QueueOk calls (update cq r l) phase drainer where
  queued r' c v hc := by
    by_cases hr : r' = r
    · subst hr
      rw [update_self] at hc
      exact h.queued r' c v (hmem c v hc)
    · rw [update_of_ne hr] at hc
      exact h.queued r' c v hc
  once r' := by
    by_cases hr : r' = r
    · subst hr
      rw [update_self, hop]
      exact h.once r'
    · rw [update_of_ne hr]
      exact h.once r'
  drains := h.drains
  holder := h.holder

end

end Frames

end Runloom.IoUring
