import Runloom.ParkerPool.DeadlineOrder
import Runloom.ParkerPool.ExpiryModel
import Runloom.ParkerPool.Safety

/-!
# What the expiry sweep does to a pool

`PoolInv` is the invariant of a pool between the steps of the sweep: its views agree, its heap is ordered by the
deadlines and has room for the parkers in it, and a parker without a pending probe is keyed by its own deadline.
-/

namespace Runloom.ParkerPool

open Transition Heap

variable {cfg : Config} {s : State} {P : Pool} {p q : Parker} {h : Parker → Made} {l hl : List Parker}
  {b : ℕ → List Parker}

/-! ### Room in the heap -/

theorem siftUp_cap (less : Parker → Parker → Bool) (H : DeadlineHeap) (i : ℕ) : (H.siftUp less i).cap = H.cap := by
  induction H, i using DeadlineHeap.siftUp.induct less with
  | case1 H i hpos parent hc ih =>
    rw [DeadlineHeap.siftUp, if_pos hpos, if_pos hc]
    exact ih
  | case2 H i hpos parent hc => rw [DeadlineHeap.siftUp, if_pos hpos, if_neg hc]
  | case3 H i hpos => rw [DeadlineHeap.siftUp, if_neg hpos]

theorem siftDown_cap (less : Parker → Parker → Bool) (H : DeadlineHeap) (i : ℕ) :
    (H.siftDown less i).cap = H.cap := by
  induction H, i using DeadlineHeap.siftDown.induct less with
  | case1 H i hbest => rw [DeadlineHeap.siftDown, if_pos hbest]
  | case2 H i hbest ih =>
    rw [DeadlineHeap.siftDown, if_neg hbest]
    exact ih

theorem insert_size_le_cap {H : DeadlineHeap} (hH : H.size ≤ H.cap) (less : Parker → Parker → Bool) (p : Parker)
    (d : ℤ) (r : Bool) : (H.insert less p d r).size ≤ (H.insert less p d r).cap := by
  unfold DeadlineHeap.insert
  split
  · exact hH
  · split
    next => exact hH
    next K hroom =>
      dsimp only
      rw [siftUp_size, siftUp_cap]
      show K.size + 1 ≤ K.cap
      unfold DeadlineHeap.room DeadlineHeap.grow at hroom
      split at hroom
      · cases r with
        | false => cases hroom
        | true =>
          cases hroom
          show H.size + 1 ≤ if H.cap = 0 then 64 else H.cap * 2
          split <;> omega
      · cases hroom
        omega

theorem remove_size_cap (H : DeadlineHeap) (less : Parker → Parker → Bool) (p : Parker) :
    (H.remove less p).size ≤ H.size ∧ (H.remove less p).cap = H.cap ∧
      (∀ i, H.heapIndex p = some i → i < H.size → (H.remove less p).size < H.size) := by
  unfold DeadlineHeap.remove
  split
  next hnone => exact ⟨le_rfl, rfl, fun i hi => absurd (hnone.symm.trans hi) nofun⟩
  next i hsome =>
    split
    next hle =>
      refine ⟨le_rfl, rfl, fun j hj hlt => ?_⟩
      cases hsome.symm.trans hj
      omega
    next hlt =>
      dsimp only
      split
      · exact ⟨Nat.sub_le _ _, rfl, fun _ _ _ => by show H.size - 1 < H.size; omega⟩
      · rw [siftDown_size, siftUp_size, siftDown_cap, siftUp_cap]
        exact ⟨Nat.sub_le _ _, rfl, fun _ _ _ => by show H.size - 1 < H.size; omega⟩

/-! ### The fields of a link and of an unlink -/

theorem parkerUnlink_request (s : State) (p : Parker) : (s.parkerUnlink cfg p).1.request = s.request := by
  simp only [State.parkerUnlink]
  split <;> rfl

theorem parkerUnlink_dh (s : State) (p : Parker) :
    (s.parkerUnlink cfg p).1.dh = s.dh.remove (dhLess cfg s.request) p := by
  have hremove : (if (s.dh.heapIndex p).isSome then s.dh.remove (dhLess cfg s.request) p else s.dh) =
      s.dh.remove (dhLess cfg s.request) p := by
    split
    next => rfl
    next hnone =>
      unfold DeadlineHeap.remove
      rw [Option.not_isSome_iff_eq_none.mp hnone]
  rw [← hremove]
  simp only [State.parkerUnlink]
  split <;> rfl

theorem parkerLink_request (s : State) (p : Parker) (o : Answers) :
    (s.parkerLink cfg p o).request = s.request := by
  simp only [State.parkerLink, State.dhInsert, State.pushBucket, State.clearStale]
  split <;> rfl

theorem parkerLink_dh (s : State) (p : Parker) (o : Answers) :
    (s.parkerLink cfg p o).dh = s.dh.insert (dhLess cfg s.request) p (s.request p).deadlineNs o.dhRealloc := by
  simp only [State.parkerLink, State.dhInsert, State.pushBucket, State.clearStale]
  split <;> rfl

theorem Timing.deadline_eq {o : Timing} {sim : Bool} (h : (o.deadline sim).2 = false) :
    (o.deadline sim).1 = o.userDeadlineNs := by
  have hif : ∀ (c : Prop) [Decidable c] (d u : ℤ), (if c then (d, true) else (u, false)).2 = false →
      (if c then (d, true) else (u, false)).1 = u := by
    intro c _ d u hc
    split at hc
    next => cases hc
    next hn => rw [if_neg hn]
  obtain ⟨backend, _⟩ := o
  cases backend with
  | epoll | kqueue => exact hif _ _ _ h
  | other => rfl

/-! ### The invariant -/

structure PoolInv (cfg : Config) (P : Pool) (h : Parker → Made) (l : List Parker) (b : ℕ → List Parker)
    (hl : List Parker) : Prop where
  base : Inv cfg P.base h l b
  heap : HeapInv cfg ⟨P.base.request, P.base.dh⟩ hl
  cap : P.base.dh.size ≤ P.base.dh.cap
  timed {p : Parker} (hp : p ∈ l) (hn : (P.waiting p).probePending = false) :
    (P.base.request p).deadlineNs = (P.waiting p).userDeadlineNs

namespace PoolInv

section

variable (hI : PoolInv cfg P h l b hl)
include hI

theorem mem_heap_iff : p ∈ hl ↔ p ∈ l ∧ 0 ≤ (P.base.request p).deadlineNs ∧ (h p).heaped = true := by
  rw [← hI.heap.members]
  exact hI.base.heaped

theorem congr_waiting {w : Parker → Waiting} (hw : ∀ q, (w q).probePending = (P.waiting q).probePending ∧
      (w q).userDeadlineNs = (P.waiting q).userDeadlineNs) :
    PoolInv cfg { P with waiting := w } h l b hl where
  base := hI.base
  heap := hI.heap
  cap := hI.cap
  timed hp hn := by
    rw [(hw _).1] at hn
    rw [(hw _).2]
    exact hI.timed hp hn

theorem drop (hp : p ∈ l) : PoolInv cfg (P.drop cfg p) h (l.erase p) (fun fd => (b fd).erase p) (hl.erase p) where
  base := hI.base.unlink hp
  heap := by
    have hheap := hI.heap.remove (p := p)
    simp only [Pool.drop, parkerUnlink_request, parkerUnlink_dh]
    exact hheap
  cap := by
    obtain ⟨hsize, hcap, -⟩ := remove_size_cap P.base.dh (dhLess cfg P.base.request) p
    simp only [Pool.drop, parkerUnlink_dh, hcap]
    exact hsize.trans hI.cap
  timed {q} hq hn := by
    simp only [Pool.drop, parkerUnlink_request] at hn ⊢
    exact hI.timed (List.mem_of_mem_erase hq) hn

theorem claim (hp : p ∈ l) (ready : ℕ) :
    PoolInv cfg (P.claim cfg p ready) h (l.erase p) (fun fd => (b fd).erase p) (hl.erase p) := by
  refine (hI.drop hp).congr_waiting fun q => ?_
  show (update P.waiting p _ q).probePending = _ ∧ (update P.waiting p _ q).userDeadlineNs = _
  by_cases hq : q = p
  · subst hq
    rw [update_self]
    exact ⟨rfl, rfl⟩
  · rw [update_of_ne hq]
    exact ⟨rfl, rfl⟩

end

def rekeyed (P : Pool) (hl : List Parker) (p : Parker) : List Parker :=
  if 0 ≤ (P.waiting p).userDeadlineNs then p :: hl.erase p else hl.erase p

theorem rekey_request (cfg : Config) (P : Pool) (p q : Parker) (r : Bool) :
    ((P.rekey cfg p r).base.request q).fd = (P.base.request q).fd ∧
      ((P.rekey cfg p r).base.request q).g = (P.base.request q).g ∧
      ((P.rekey cfg p r).base.request q).hub = (P.base.request q).hub := by
  show (update P.base.request p _ q).fd = _ ∧ (update P.base.request p _ q).g = _ ∧
    (update P.base.request p _ q).hub = _
  by_cases hq : q = p
  · subst hq
    rw [update_self]
    exact ⟨rfl, rfl, rfl⟩
  · rw [update_of_ne hq]
    exact ⟨rfl, rfl, rfl⟩

section

variable (hI : PoolInv cfg P h l b hl)
include hI

theorem rekey_heap (hp : p ∈ hl) (r : Bool) :
    HeapInv cfg ⟨(P.rekey cfg p r).base.request, (P.rekey cfg p r).base.dh⟩ (rekeyed P hl p) ∧
      (P.rekey cfg p r).base.dh.size ≤ (P.rekey cfg p r).base.dh.cap := by
  obtain ⟨i, hi⟩ := Option.isSome_iff_exists.mp (hI.heap.members.mpr hp)
  obtain ⟨-, hcap, hlt⟩ := remove_size_cap P.base.dh (dhLess cfg P.base.request) p
  have hroom := hlt i hi (hI.heap.view.entry hi).1
  have hle := hI.cap
  have hnot : p ∉ hl.erase p := fun hm => (hI.heap.nodup.mem_erase_iff.mp hm).1 rfl
  have hrem := hI.heap.remove (p := p)
  have hset := hrem.setRequest (r := { P.base.request p with deadlineNs := (P.waiting p).userDeadlineNs })
    (hrem.heapIndex_none hnot)
  have hins := hset.insert (p := p) (r := r)
  have hspace : (P.base.dh.remove (dhLess cfg P.base.request) p).room r =
      some (P.base.dh.remove (dhLess cfg P.base.request) p) := if_neg (by omega)
  simp only [noteMembers, update_self, hspace, Option.isSome_some, hnot, not_false_eq_true, true_and,
    and_true] at hins
  refine ⟨hins, insert_size_le_cap ?_ _ _ _ _⟩
  omega

theorem rekey (hp : p ∈ hl) (r : Bool) : PoolInv cfg (P.rekey cfg p r) h l b (rekeyed P hl p) := by
  obtain ⟨hheap, hcap⟩ := hI.rekey_heap hp r
  obtain ⟨hpl, -, hheaped⟩ := hI.mem_heap_iff.mp hp
  have hfield := fun q => rekey_request cfg P p q r
  have hdead : ((P.rekey cfg p r).base.request p).deadlineNs = (P.waiting p).userDeadlineNs := by
    show (update P.base.request p _ p).deadlineNs = _
    rw [update_self]
  have hother : ∀ q, q ≠ p → (P.rekey cfg p r).base.request q = P.base.request q := fun q hq =>
    update_of_ne hq _ _
  refine ⟨⟨hI.base.list, hI.base.index, hheap.view, hI.base.mask, fun {q fd} => ?_, fun {q} => ?_, hI.base.total,
    fun w => ?_⟩, hheap, hcap, fun {q} hq hn => ?_⟩
  · rw [(hfield q).1]
    exact hI.base.bucketed
  · show ((P.rekey cfg p r).base.dh.heapIndex q).isSome = true ↔ _
    rw [hheap.members, rekeyed]
    by_cases hqp : q = p
    · subst hqp
      rw [hdead]
      have hnot : q ∉ hl.erase q := fun hm => (hI.heap.nodup.mem_erase_iff.mp hm).1 rfl
      split
      next hpos => simp [hpl, hpos, hheaped]
      next hneg => simp [hnot, hneg]
    · rw [hother q hqp, ← hI.mem_heap_iff]
      have herase : q ∈ hl.erase p ↔ q ∈ hl := by
        rw [hI.heap.nodup.mem_erase_iff]
        exact and_iff_right hqp
      split <;> simp [hqp, herase]
  · have hcount : counted cfg (P.rekey cfg p r).base.request l w = counted cfg P.base.request l w := by
      apply List.countP_congr
      intro q _
      have howner : countedOwner cfg ((P.rekey cfg p r).base.request q) = countedOwner cfg (P.base.request q) := by
        unfold countedOwner
        rw [(hfield q).2.1, (hfield q).2.2]
      rw [howner]
    exact (hI.base.parked w).trans (congrArg Nat.cast hcount.symm)
  · by_cases hqp : q = p
    · subst hqp
      rw [hdead]
      show _ = (update P.waiting q _ q).userDeadlineNs
      rw [update_self]
    · have hsame : (P.rekey cfg p r).waiting q = P.waiting q := update_of_ne hqp _ _
      rw [hsame] at hn ⊢
      rw [hother q hqp]
      exact hI.timed hq hn

theorem link {o : Answers} {r : Request} {w : Waiting} (hp : p ∉ l) (i : Bool)
    (hw : w.probePending = false → r.deadlineNs = w.userDeadlineNs) :
    ∃ b' hl', PoolInv cfg ⟨i, (P.base.prepare p r).parkerLink cfg p o, update P.waiting p w⟩
      (note h P.base (.link p r o) P.base) (p :: l) b' hl' := by
  have hset := hI.heap.setRequest (r := r) (hI.base.heapIndex_none hp)
  have hins := hset.insert (p := p) (r := o.dhRealloc)
  refine ⟨_, noteMembers hl ⟨update P.base.request p r, P.base.dh⟩ (.insert p o.dhRealloc)
    ⟨update P.base.request p r, P.base.dh⟩, hI.base.link hp, ?_, ?_, fun {q} hq hn => ?_⟩
  · simp only [parkerLink_request, parkerLink_dh]
    exact hins
  · simp only [parkerLink_dh]
    exact insert_size_le_cap hI.cap _ _ _ _
  · simp only [parkerLink_request] at hn ⊢
    show (update P.base.request p r q).deadlineNs = _
    by_cases hqp : q = p
    · subst hqp
      simp only [update_self] at hn ⊢
      exact hw hn
    · simp only [update_of_ne hqp] at hn ⊢
      exact hI.timed ((List.mem_cons.mp hq).resolve_left hqp) hn

end

end PoolInv

end Runloom.ParkerPool
