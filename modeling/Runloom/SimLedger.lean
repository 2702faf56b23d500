import Mathlib.Data.List.Sort
import Runloom.Transition.System

/-!
# The ready ledger of the simulation

Model of `runloom_sim_deliver_ready` and `runloom_sim_dispatch_due_plane`.  A step is a section under
`runloom_sim_ledger_lock`.  What a dispatch takes out goes to a scratch of its own thread, and is dispatched from
there in that order once the lock is given up; its allocation succeeds.
-/

namespace Runloom.SimLedger

open Transition List

/-- The consumers: the pump of a single-thread run, and the census of the hubs. -/
inductive Plane where
  | legacy
  | mn
deriving DecidableEq

/-- `runloom_sim_ready_ent_t`. -/
structure Entry where
  deliverAt : ℤ
  connId : ℤ
  seq : ℕ
  fd : ℤ
  dir : ℤ
  plane : Plane
deriving DecidableEq

/-- `runloom_sim_ready_cmp`. -/
def readyCmp (a b : Entry) : ℤ :=
  if a.deliverAt ≠ b.deliverAt then if a.deliverAt < b.deliverAt then -1 else 1
  else if a.connId ≠ b.connId then if a.connId < b.connId then -1 else 1
  else if a.dir ≠ b.dir then if a.dir < b.dir then -1 else 1
  else if a.seq ≠ b.seq then if a.seq < b.seq then -1 else 1
  else 0

/-- What one dispatch did. -/
structure Dispatch where
  now : ℤ
  plane : Plane
  before : List Entry
  after : List Entry
  dispatched : List Entry

/-- `appended` and `dispatches` are history. -/
structure State where
  ready : List Entry
  seq : ℕ
  appended : List Entry
  dispatches : List Dispatch

/-- `memory` is whether the ledger could grow, if it had to. -/
inductive Action where
  | deliver (plane : Plane) (connId fd dir deliverAt : ℤ) (memory : Bool)
  | dispatch (now : ℤ) (plane : Plane)

def Entry.Due (now : ℤ) (plane : Plane) (e : Entry) : Prop := e.deliverAt ≤ now ∧ e.plane = plane

instance (now : ℤ) (plane : Plane) : DecidablePred (Entry.Due now plane) :=
  fun _ => inferInstanceAs (Decidable (_ ∧ _))

/-- `qsort`: the order is strict, so any sort gives the same list. -/
def qsort (l : List Entry) : List Entry := l.insertionSort fun a b => readyCmp a b ≤ 0

/-- `runloom_sim_dispatch_due_plane`: what is dispatched, and the ledger after it. -/
def dispatchDuePlane (ready : List Entry) (now : ℤ) (plane : Plane) : List Entry × List Entry :=
  (qsort ready).partition (Entry.Due now plane ·)

namespace State

/-- `runloom_sim_deliver_ready`. -/
def deliverReady (s : State) (plane : Plane) (connId fd dir deliverAt : ℤ) : State :=
  let e : Entry := ⟨deliverAt, connId, s.seq, fd, dir, plane⟩
  { s with ready := s.ready ++ [e], seq := s.seq + 1, appended := s.appended ++ [e] }

def dispatch (s : State) (now : ℤ) (plane : Plane) : State :=
  let (due, keep) := dispatchDuePlane s.ready now plane
  { s with ready := keep, dispatches := s.dispatches ++ [⟨now, plane, s.ready, keep, due⟩] }

end State

def simLedger : System State Action where
  init s := s = ⟨[], 0, [], []⟩
  step s
    | .deliver plane connId fd dir deliverAt memory =>
      some (if memory then s.deliverReady plane connId fd dir deliverAt else s)
    | .dispatch now plane => some (s.dispatch now plane)

/-! ## Every entry is dispatched once -/

theorem readyCmp_nonpos_iff (a b : Entry) : readyCmp a b ≤ 0 ↔
    a.deliverAt < b.deliverAt ∨ a.deliverAt = b.deliverAt ∧ (a.connId < b.connId ∨ a.connId = b.connId ∧
      (a.dir < b.dir ∨ a.dir = b.dir ∧ a.seq ≤ b.seq)) := by
  unfold readyCmp
  split_ifs <;> omega

/-- The order of a dispatch: by time, connection, direction, and the order of the appends. -/
def Earlier (a b : Entry) : Prop := readyCmp a b < 0

theorem earlier_of_le {a b : Entry} (h : readyCmp a b ≤ 0) (hne : a.seq ≠ b.seq) : Earlier a b := by
  unfold Earlier readyCmp at *
  split_ifs at * <;> omega

theorem perm_qsort (l : List Entry) : qsort l ~ l := perm_insertionSort _ l

theorem pairwise_qsort (l : List Entry) : (qsort l).Pairwise fun a b => readyCmp a b ≤ 0 := by
  have : Std.Total fun a b : Entry => readyCmp a b ≤ 0 := ⟨fun a b => by simp only [readyCmp_nonpos_iff]; omega⟩
  have : IsTrans Entry fun a b => readyCmp a b ≤ 0 := ⟨fun a b c => by simp only [readyCmp_nonpos_iff]; omega⟩
  exact pairwise_insertionSort _ l

/-- What a dispatch takes out is due for its plane, in order, and the rest stays. -/
structure Dispatch.Exact (d : Dispatch) : Prop where
  due : d.dispatched ~ d.before.filter (Entry.Due d.now d.plane ·)
  kept : d.after ~ d.before.filter (¬Entry.Due d.now d.plane ·)
  order : d.dispatched.Pairwise Earlier

def State.dispatched (s : State) : List Entry := s.dispatches.flatMap (·.dispatched)

structure Inv (s : State) : Prop where
  seq : ∀ e ∈ s.appended, e.seq < s.seq
  appendOrder : s.appended.Pairwise fun a b => a.seq < b.seq
  account : s.appended ~ s.ready ++ s.dispatched
  exact : ∀ d ∈ s.dispatches, d.Exact

variable {s : State}

theorem exact_dispatch {now : ℤ} {plane : Plane} (h : s.ready.Pairwise fun a b => a.seq ≠ b.seq) :
    Dispatch.Exact ⟨now, plane, s.ready, (dispatchDuePlane s.ready now plane).2,
      (dispatchDuePlane s.ready now plane).1⟩ := by
  simp only [dispatchDuePlane, partition_eq_filter_filter]
  have hne : (qsort s.ready).Pairwise fun a b => a.seq ≠ b.seq :=
    (perm_qsort s.ready).symm.pairwise h fun hab => hab.symm
  refine ⟨(perm_qsort _).filter _, ?_, ?_⟩
  · simpa [Function.comp_def] using (perm_qsort s.ready).filter fun e => !decide (Entry.Due now plane e)
  · exact (((pairwise_qsort s.ready).and hne).imp fun hab => earlier_of_le hab.1 hab.2).filter _

theorem perm_dispatchDuePlane (ready : List Entry) (now : ℤ) (plane : Plane) :
    (dispatchDuePlane ready now plane).2 ++ (dispatchDuePlane ready now plane).1 ~ ready := by
  simp only [dispatchDuePlane, partition_eq_filter_filter]
  exact perm_append_comm.trans ((filter_append_perm _ _).trans (perm_qsort ready))

theorem Inv.ready_seq_ne (hI : Inv s) : s.ready.Pairwise fun a b => a.seq ≠ b.seq := by
  have h := hI.account.pairwise (hI.appendOrder.imp fun hab => Nat.ne_of_lt hab) fun hab => hab.symm
  exact (pairwise_append.mp h).1

theorem Inv.deliverReady (hI : Inv s) (plane : Plane) (connId fd dir deliverAt : ℤ) :
    Inv (s.deliverReady plane connId fd dir deliverAt) where
  seq e he := by
    rcases mem_append.mp he with he | he
    · exact Nat.lt_succ_of_lt (hI.seq e he)
    · rw [mem_singleton.mp he]
      exact Nat.lt_succ_self _
  appendOrder := pairwise_append.mpr ⟨hI.appendOrder, pairwise_singleton _ _, fun a ha b hb => by
    rw [mem_singleton.mp hb]
    exact hI.seq a ha⟩
  account := by
    show s.appended ++ _ ~ s.ready ++ _ ++ s.dispatched
    rw [append_assoc]
    exact (hI.account.append_right _).trans (by
      rw [append_assoc]
      exact perm_append_comm.append_left _)
  exact := hI.exact

theorem Inv.dispatch (hI : Inv s) (now : ℤ) (plane : Plane) : Inv (s.dispatch now plane) where
  seq := hI.seq
  appendOrder := hI.appendOrder
  account := by
    show s.appended ~ (dispatchDuePlane s.ready now plane).2 ++ (s.dispatches ++ _).flatMap _
    rw [flatMap_append, flatMap_singleton]
    refine hI.account.trans (((perm_dispatchDuePlane s.ready now plane).symm.append_right _).trans ?_)
    rw [append_assoc]
    exact perm_append_comm.append_left _
  exact d hd := by
    rcases mem_append.mp hd with hd | hd
    · exact hI.exact d hd
    · rw [mem_singleton.mp hd]
      exact exact_dispatch hI.ready_seq_ne

/-- Every entry is in the ledger or was dispatched, once, and a dispatch takes what is due for its plane, in order. -/
theorem ledger_dispatches_once (h : simLedger.Reachable s) :
    s.appended.Nodup ∧ s.appended ~ s.ready ++ s.dispatched ∧
    s.appended.Pairwise (fun a b => a.seq < b.seq) ∧ ∀ d ∈ s.dispatches, d.Exact := by
  have hI : Inv s := by
    refine h.invariant (P := Inv) ?_ ?_
    · rintro s rfl
      exact ⟨nofun, .nil, .refl _, nofun⟩
    · rintro s a t hI - hs
      cases a with
      | deliver plane connId fd dir deliverAt memory =>
        cases hs
        cases memory with
        | true => exact hI.deliverReady plane connId fd dir deliverAt
        | false => exact hI
      | dispatch now plane =>
        cases hs
        exact hI.dispatch now plane
  exact ⟨hI.appendOrder.imp fun hab heq => absurd (congrArg Entry.seq heq) (Nat.ne_of_lt hab), hI.account,
    hI.appendOrder, hI.exact⟩

/-- Of three deliveries the pump takes the two of its plane, the earlier one first. -/
theorem ledger_dispatches_once_twoPlanes :
    ∃ s, simLedger.Reachable s ∧ s.ready.map Entry.seq = [2] ∧ s.dispatched.map Entry.seq = [1, 0] ∧
      s.appended ~ s.ready ++ s.dispatched := by
  obtain ⟨s, hr, hready, hdispatched⟩ := simLedger.reaches
    (fun s => s.ready.map Entry.seq = [2] ∧ s.dispatched.map Entry.seq = [1, 0])
    [.deliver .legacy 0 4 1 20 true, .deliver .legacy 1 5 1 10 true, .deliver .mn 0 6 1 5 true, .dispatch 20 .legacy]
    (s := ⟨[], 0, [], []⟩) rfl (by decide +kernel)
  exact ⟨s, hr, hready, hdispatched, (ledger_dispatches_once hr).2.1⟩

end Runloom.SimLedger
