import Mathlib.Data.Prod.Lex
import Runloom.Heap.Binary
import Runloom.Transition.History
import Runloom.ParkerPool.Views

/-!
# The deadline heap is ordered by the deadlines

`HeapView` says that the array and the back indices hold the same parkers.  Here is what their order is: no parker is
before its parent, so that the first one has the least deadline.  Between two calls the fields of a parker may change
while it is not in the heap.
-/

namespace Runloom.ParkerPool

open Transition Heap List

variable {cfg : Config} {request : Parker → Request}

/-- What `runloom_dh_less` compares. -/
def dhKey (cfg : Config) (request : Parker → Request) (p : Parker) : ℤ ×ₗ ℤ :=
  toLex ((request p).deadlineNs, if cfg.sim then (request p).g.elim 0 cfg.goid else 0)

theorem dhLess_iff (cfg : Config) (request : Parker → Request) (a b : Parker) :
    dhLess cfg request a b = true ↔ dhKey cfg request a < dhKey cfg request b := by
  unfold dhLess dhKey
  rw [Prod.Lex.toLex_lt_toLex]
  by_cases hd : (request a).deadlineNs = (request b).deadlineNs
  · rw [if_neg (not_not.mpr hd)]
    cases cfg.sim <;> simp [hd]
  · rw [if_pos hd]
    simp [hd]

theorem deadlineNs_le {a b : Parker} (h : dhKey cfg request a ≤ dhKey cfg request b) :
    (request a).deadlineNs ≤ (request b).deadlineNs := by
  rcases Prod.Lex.toLex_le_toLex.mp h with h | ⟨h, -⟩ <;> exact h.le

/-! ### The order through the sifts -/

theorem siftUp_size (less : Parker → Parker → Bool) (H : DeadlineHeap) (i : ℕ) : (H.siftUp less i).size = H.size := by
  induction H, i using DeadlineHeap.siftUp.induct less with
  | case1 H i hpos parent hc ih =>
    rw [DeadlineHeap.siftUp, if_pos hpos, if_pos hc]
    exact ih
  | case2 H i hpos parent hc => rw [DeadlineHeap.siftUp, if_pos hpos, if_neg hc]
  | case3 H i hpos => rw [DeadlineHeap.siftUp, if_neg hpos]

theorem siftDown_size (less : Parker → Parker → Bool) (H : DeadlineHeap) (i : ℕ) :
    (H.siftDown less i).size = H.size := by
  induction H, i using DeadlineHeap.siftDown.induct less with
  | case1 H i hbest => rw [DeadlineHeap.siftDown, if_pos hbest]
  | case2 H i hbest ih =>
    rw [DeadlineHeap.siftDown, if_neg hbest]
    exact ih

section Sift

variable {κ : Type*} [LinearOrder κ] {key : Parker → κ} {less : Parker → Parker → Bool}
  (hless : ∀ a b, less a b = true ↔ key a < key b) {H : DeadlineHeap} {i : ℕ}

include hless

theorem siftUp_ordered (h : UpReady zeroBased key H.arr H.size i) (hi : i < H.size) :
    Ordered zeroBased key (H.siftUp less i).arr H.size := by
  induction H, i using DeadlineHeap.siftUp.induct less with
  | case1 H i hpos parent hc ih =>
    rw [DeadlineHeap.siftUp, if_pos hpos, if_pos hc]
    have hp : parent < i := zeroBased.parent_lt hpos
    exact ih (h.swap hpos hi ((hless _ _).mp hc)) (hp.trans hi)
  | case2 H i hpos parent hc =>
    rw [DeadlineHeap.siftUp, if_pos hpos, if_neg hc]
    exact h.ordered fun _ => not_lt.mp fun hlt => hc ((hless _ _).mpr hlt)
  | case3 H i hpos =>
    rw [DeadlineHeap.siftUp, if_neg hpos]
    exact h.ordered fun hr => absurd hr hpos

theorem best_least (H : DeadlineHeap) (i : ℕ) :
    (∀ j, 0 < j → j < H.size → (j - 1) / 2 = i → key (H.arr (H.best less i)) ≤ key (H.arr j)) ∧
    (H.best less i ≠ i → (H.best less i - 1) / 2 = i ∧ key (H.arr (H.best less i)) < key (H.arr i)) := by
  have hchild : ∀ j, 0 < j → (j - 1) / 2 = i → j = 2 * i + 1 ∨ j = 2 * i + 2 := by omega
  unfold DeadlineHeap.best
  simp only [hless]
  by_cases hl : 2 * i + 1 < H.size ∧ key (H.arr (2 * i + 1)) < key (H.arr i)
  · rw [if_pos hl]
    by_cases hr : 2 * i + 2 < H.size ∧ key (H.arr (2 * i + 2)) < key (H.arr (2 * i + 1))
    · rw [if_pos hr]
      refine ⟨fun j hj hn hp => ?_, fun _ => ⟨by omega, hr.2.trans hl.2⟩⟩
      rcases hchild j hj hp with rfl | rfl
      · exact hr.2.le
      · exact le_rfl
    · rw [if_neg hr]
      refine ⟨fun j hj hn hp => ?_, fun _ => ⟨by omega, hl.2⟩⟩
      rcases hchild j hj hp with rfl | rfl
      · exact le_rfl
      · exact not_lt.mp fun hlt => hr ⟨hn, hlt⟩
  · rw [if_neg hl]
    by_cases hr : 2 * i + 2 < H.size ∧ key (H.arr (2 * i + 2)) < key (H.arr i)
    · rw [if_pos hr]
      refine ⟨fun j hj hn hp => ?_, fun _ => ⟨by omega, hr.2⟩⟩
      rcases hchild j hj hp with rfl | rfl
      · exact hr.2.le.trans (not_lt.mp fun hlt => hl ⟨hn, hlt⟩)
      · exact le_rfl
    · rw [if_neg hr]
      refine ⟨fun j hj hn hp => ?_, fun hne => absurd rfl hne⟩
      rcases hchild j hj hp with rfl | rfl
      · exact not_lt.mp fun hlt => hl ⟨hn, hlt⟩
      · exact not_lt.mp fun hlt => hr ⟨hn, hlt⟩

theorem siftDown_ordered (h : DownReady zeroBased key H.arr H.size i) :
    Ordered zeroBased key (H.siftDown less i).arr H.size := by
  induction H, i using DeadlineHeap.siftDown.induct less with
  | case1 H i hbest =>
    rw [DeadlineHeap.siftDown, if_pos hbest]
    have hleast := (best_least hless H i).1
    rw [hbest] at hleast
    exact h.ordered hleast
  | case2 H i hbest ih =>
    rw [DeadlineHeap.siftDown, if_neg hbest]
    obtain ⟨hleast, hchild⟩ := best_least hless H i
    obtain ⟨hp, hlt⟩ := hchild hbest
    obtain ⟨hgt, hsize⟩ := (H.best_spec less i).resolve_left hbest
    exact ih (h.swap (Nat.zero_lt_of_lt hgt) hsize hp hlt hleast)

theorem sift_ordered (h : Loose zeroBased key H.arr H.size i) (hi : i < H.size) :
    Ordered zeroBased key ((H.siftUp less i).siftDown less i).arr H.size := by
  rw [← siftUp_size less H i]
  apply siftDown_ordered hless
  rw [siftUp_size]
  by_cases hc : 0 < i ∧ less (H.arr i) (H.arr ((i - 1) / 2)) = true
  · exact (siftUp_ordered hless (h.up hc.1 ((hless _ _).mp hc.2)) hi).downReady hi
  · have hstay : H.siftUp less i = H := by
      rw [DeadlineHeap.siftUp]
      split
      next hpos => exact if_neg fun hlt => hc ⟨hpos, hlt⟩
      next => rfl
    rw [hstay]
    exact h.down fun hpos => not_lt.mp fun hlt => hc ⟨hpos, (hless _ _).mpr hlt⟩

theorem insert_ordered (h : Ordered zeroBased key H.arr H.size) (p : Parker) (d : ℤ) (r : Bool) :
    Ordered zeroBased key (H.insert less p d r).arr (H.insert less p d r).size := by
  unfold DeadlineHeap.insert
  split
  · exact h
  · split
    next => exact h
    next K hroom =>
      obtain ⟨cap, rfl⟩ := DeadlineHeap.room_eq hroom
      dsimp only
      rw [siftUp_size]
      apply siftUp_ordered hless
      · exact h.push p
      · exact Nat.lt_succ_self _

theorem remove_ordered (h : Ordered zeroBased key H.arr H.size) (p : Parker) :
    Ordered zeroBased key (H.remove less p).arr (H.remove less p).size := by
  unfold DeadlineHeap.remove
  split
  next => exact h
  next i _ =>
    split
    next => exact h
    next hi =>
      have hshrink : Ordered zeroBased key H.arr (H.size - 1) := h.shrink (Nat.sub_le _ _)
      dsimp only
      split
      next => exact hshrink
      next htail =>
        have hi' : i < H.size - 1 := by omega
        rw [siftDown_size, siftUp_size]
        apply sift_ordered hless
        · exact hshrink.loose hi' _
        · exact hi'

end Sift

/-! ### Sequences of calls -/

/-- The heap of a pool with the fields of its parkers. -/
structure HeapState where
  request : Parker → Request
  dh : DeadlineHeap

/-- `runloom_dh_peek_deadline`. -/
def HeapState.peekDeadline (s : HeapState) : ℤ := if s.dh.size = 0 then -1 else (s.request (s.dh.arr 0)).deadlineNs

/-- `setRequest` is what the caller of an insert writes before it. -/
inductive HeapCall where
  | setRequest (p : Parker) (r : Request)
  | insert (p : Parker) ( realloc : Bool)
  | remove (p : Parker)

def heapStep (cfg : Config) (s : HeapState) : HeapCall → Option HeapState
  | .setRequest p r =>
    if s.dh.heapIndex p = none then some { s with request := Function.update s.request p r } else none
  | .insert p r => some { s with dh := s.dh.insert (dhLess cfg s.request) p (s.request p).deadlineNs r }
  | .remove p => some { s with dh := s.dh.remove (dhLess cfg s.request) p }

def heapSystem (cfg : Config) : System HeapState HeapCall where
  init s := s.dh.size = 0 ∧ ∀ p, s.dh.heapIndex p = none
  step := heapStep cfg

/-- The parkers inserted and not removed: an insert needs a deadline and memory. -/
def noteMembers (l : List Parker) (s : HeapState) : HeapCall → HeapState → List Parker
  | .setRequest _ _, _ => l
  | .insert p r, _ =>
    if p ∉ l ∧ 0 ≤ (s.request p).deadlineNs ∧ (s.dh.room r).isSome = true then p :: l else l
  | .remove p, _ => l.erase p

def notedHeap (cfg : Config) : System (HeapState × List Parker) HeapCall :=
  (heapSystem cfg).withHistory [] noteMembers

structure HeapInv (cfg : Config) (s : HeapState) (l : List Parker) : Prop where
  view : HeapView s.dh
  ordered : Ordered zeroBased (dhKey cfg s.request) s.dh.arr s.dh.size
  members {p : Parker} : (s.dh.heapIndex p).isSome = true ↔ p ∈ l
  nodup : l.Nodup

variable {s t : HeapState} {l : List Parker} {p : Parker}

theorem HeapInv.heapIndex_none (hI : HeapInv cfg s l) (hp : p ∉ l) : s.dh.heapIndex p = none := by
  rw [← Option.not_isSome_iff_eq_none]
  exact fun h => hp (hI.members.mp h)

theorem HeapInv.setRequest {r : Request} (hI : HeapInv cfg s l) (hp : s.dh.heapIndex p = none) :
    HeapInv cfg { s with request := Function.update s.request p r } l := by
  refine ⟨hI.view, hI.ordered.congr_key fun q hq => ?_, hI.members, hI.nodup⟩
  obtain ⟨i, -, hi, rfl⟩ := mem_entries.mp hq
  have hne : s.dh.arr i ≠ p := by
    intro e
    have := hI.view.index hi
    rw [e, hp] at this
    cases this
  unfold dhKey
  dsimp only
  rw [Function.update_of_ne hne]

theorem insert_of_isSome {less : Parker → Parker → Bool} {H : DeadlineHeap} {d : ℤ} {r : Bool}
    (h : (H.heapIndex p).isSome = true) : H.insert less p d r = H := by
  unfold DeadlineHeap.insert
  exact if_pos (.inr h)

theorem HeapInv.insert {r : Bool} (hI : HeapInv cfg s l) :
    HeapInv cfg { s with dh := s.dh.insert (dhLess cfg s.request) p (s.request p).deadlineNs r }
      (noteMembers l s (.insert p r) s) := by
  have hord := insert_ordered (dhLess_iff cfg s.request) hI.ordered p (s.request p).deadlineNs r
  simp only [noteMembers]
  by_cases hp : p ∈ l
  · rw [if_neg fun h => h.1 hp, insert_of_isSome (hI.members.mpr hp)]
    exact hI
  · obtain ⟨hview, hmem⟩ := hI.view.insert (dhLess cfg s.request) (hI.heapIndex_none hp) (s.request p).deadlineNs r
    by_cases hroom : 0 ≤ (s.request p).deadlineNs ∧ (s.dh.room r).isSome = true
    · rw [if_pos ⟨hp, hroom⟩]
      refine ⟨hview, hord, fun {q} => ?_, nodup_cons.mpr ⟨hp, hI.nodup⟩⟩
      rw [hmem, hI.members, mem_cons, or_comm]
      exact or_congr_left ⟨And.left, fun e => ⟨e, hroom⟩⟩
    · rw [if_neg fun h => hroom h.2]
      refine ⟨hview, hord, fun {q} => ?_, hI.nodup⟩
      rw [hmem, hI.members]
      exact or_iff_left fun h => hroom h.2

theorem HeapInv.remove (hI : HeapInv cfg s l) :
    HeapInv cfg { s with dh := s.dh.remove (dhLess cfg s.request) p } (l.erase p) := by
  obtain ⟨hview, hmem⟩ := hI.view.remove (dhLess cfg s.request) (p := p)
  refine ⟨hview, remove_ordered (dhLess_iff cfg s.request) hI.ordered p, fun {q} => ?_, hI.nodup.erase p⟩
  rw [hmem, hI.members, hI.nodup.mem_erase_iff, and_comm]

theorem HeapInv.step {c : HeapCall} (hI : HeapInv cfg s l) (hs : (heapSystem cfg).step s c = some t) :
    HeapInv cfg t (noteMembers l s c t) := by
  cases c with
  | setRequest p r =>
    simp only [heapSystem, heapStep, Option.ite_none_right_eq_some, Option.some.injEq] at hs
    obtain ⟨hp, rfl⟩ := hs
    exact hI.setRequest hp
  | insert p r =>
    cases hs
    exact hI.insert
  | remove p =>
    cases hs
    exact hI.remove

theorem heapInv_of_reachable {x : HeapState × List Parker} (hx : (notedHeap cfg).Reachable x) :
    HeapInv cfg x.1 x.2 := by
  refine hx.invariant (P := fun x => HeapInv cfg x.1 x.2) (fun x hi => ?_) ?_
  · obtain ⟨⟨hsize, hnone⟩, hl⟩ := hi
    rw [hl]
    refine ⟨⟨fun hlt => absurd (hsize ▸ hlt) (Nat.not_lt_zero _), fun h => absurd ((hnone _).symm.trans h) nofun⟩,
      fun i _ hlt => absurd (hsize ▸ hlt) (Nat.not_lt_zero _), fun {p} => ?_, .nil⟩
    rw [hnone]
    exact iff_of_false nofun not_mem_nil
  · rintro x c y hI - hstep
    obtain ⟨hs, hnote⟩ := System.withHistory_step hstep
    rw [hnote]
    exact hI.step hs

/-- The heap of the parkers `l`. -/
structure HeapExact (cfg : Config) (s : HeapState) (l : List Parker) : Prop where
  minHeap (i : ℕ) (hi : 0 < i) (hn : i < s.dh.size) :
    (s.request (s.dh.arr ((i - 1) / 2))).deadlineNs ≤ (s.request (s.dh.arr i)).deadlineNs
  position (i : ℕ) (hn : i < s.dh.size) : s.dh.heapIndex (s.dh.arr i) = some i
  nonmember (p : Parker) (hp : p ∉ l) : s.dh.heapIndex p = none
  members : ((List.range s.dh.size).map s.dh.arr).Perm l ∧ l.Nodup
  peek_empty (hl : l = []) : s.peekDeadline = -1
  peek_least (hl : l ≠ []) :
    (∃ p ∈ l, (s.request p).deadlineNs = s.peekDeadline) ∧ ∀ p ∈ l, s.peekDeadline ≤ (s.request p).deadlineNs
  insert_none (p : Parker) (r : Bool) (hd : (s.request p).deadlineNs < 0) :
    s.dh.insert (dhLess cfg s.request) p (s.request p).deadlineNs r = s.dh
  remove_none (p : Parker) (hp : p ∉ l) : s.dh.remove (dhLess cfg s.request) p = s.dh

theorem HeapInv.perm (hI : HeapInv cfg s l) : ((List.range s.dh.size).map s.dh.arr).Perm l := by
  refine (perm_ext_iff_of_nodup ?_ hI.nodup).mpr fun p => ?_
  · refine nodup_range.map_on fun i hi j hj => hI.view.arr_inj ?_ ?_
    · exact mem_range.mp hi
    · exact mem_range.mp hj
  · rw [← hI.members, Option.isSome_iff_exists, mem_map]
    constructor
    · rintro ⟨i, hi, rfl⟩
      exact ⟨i, hI.view.index (mem_range.mp hi)⟩
    · rintro ⟨i, hi⟩
      exact ⟨i, mem_range.mpr (hI.view.entry hi).1, (hI.view.entry hi).2⟩

theorem HeapInv.exact (hI : HeapInv cfg s l) : HeapExact cfg s l where
  minHeap i hi hn := deadlineNs_le (hI.ordered i hi hn)
  position _ hn := hI.view.index hn
  nonmember _ hp := hI.heapIndex_none hp
  members := ⟨hI.perm, hI.nodup⟩
  peek_empty hl := by
    have hlen := hI.perm.length_eq
    rw [length_map, length_range, hl] at hlen
    exact if_pos hlen
  peek_least hl := by
    have hlen := hI.perm.length_eq
    rw [length_map, length_range] at hlen
    have hpos : 0 < s.dh.size := hlen ▸ length_pos_of_ne_nil hl
    have hpeek : s.peekDeadline = (s.request (s.dh.arr 0)).deadlineNs := if_neg hpos.ne'
    rw [hpeek]
    refine ⟨⟨s.dh.arr 0, ?_, rfl⟩, fun p hp => ?_⟩
    · exact hI.perm.mem_iff.mp (mem_map_of_mem (mem_range.mpr hpos))
    · obtain ⟨i, hi, rfl⟩ := mem_map.mp (hI.perm.mem_iff.mpr hp)
      exact deadlineNs_le (hI.ordered.root_le (Nat.zero_le i) (mem_range.mp hi))
  insert_none _ _ hd := by
    unfold DeadlineHeap.insert
    exact if_pos (.inl hd)
  remove_none p hp := by
    unfold DeadlineHeap.remove
    rw [hI.heapIndex_none hp]

/-- After every sequence of calls the array is a heap by deadline, and the back indices are right. -/
theorem deadline_heap_exact (cfg : Config) (x : HeapState × List Parker) (hx : (notedHeap cfg).Reachable x) :
    HeapExact cfg x.1 x.2 :=
  (heapInv_of_reachable hx).exact

def noDeadlines : HeapState := ⟨fun _ => ⟨-1, -1, none, none⟩, ⟨fun _ => 0, 0, 0, fun _ => none⟩⟩

/-- The second of three parkers has the earliest deadline. -/
def threeDeadlines : List HeapCall :=
  [.setRequest 1 ⟨3, 30, none, none⟩, .insert 1 true, .setRequest 2 ⟨4, 10, none, none⟩, .insert 2 true,
    .setRequest 3 ⟨5, 20, none, none⟩, .insert 3 true, .remove 1, .remove 1]

theorem deadline_heap_exact_threeDeadlines :
    ∃ x, (notedHeap ⟨0, fun _ => none, fun _ => 0, false⟩).Reachable x ∧ x.2 = [3, 2] ∧ x.1.peekDeadline = 10 ∧
      HeapExact ⟨0, fun _ => none, fun _ => 0, false⟩ x.1 x.2 := by
  obtain ⟨x, hx, hl, hpeek⟩ := (notedHeap ⟨0, fun _ => none, fun _ => 0, false⟩).reaches
    (fun x => x.2 = [3, 2] ∧ x.1.peekDeadline = 10) threeDeadlines (s := (noDeadlines, []))
    ⟨⟨rfl, fun _ => rfl⟩, rfl⟩ (by decide +kernel)
  exact ⟨x, hx, hl, hpeek, deadline_heap_exact _ x hx⟩

/-- Without memory for the array, a parker is not in the heap. -/
theorem insert_dropped_without_memory : ∃ s, (heapSystem ⟨0, fun _ => none, fun _ => 0, false⟩).run noDeadlines
        [.setRequest 1 ⟨3, 30, none, none⟩, .insert 1 false] = some s ∧
      0 ≤ (s.request 1).deadlineNs ∧ s.dh.heapIndex 1 = none ∧ s.dh.size = 0 ∧ s.peekDeadline = -1 := by
  obtain ⟨s, hr, -, hp⟩ := System.exists_reachable_of_run (M := heapSystem ⟨0, fun _ => none, fun _ => 0, false⟩)
    (p := fun s => decide (0 ≤ (s.request 1).deadlineNs ∧ s.dh.heapIndex 1 = none ∧ s.dh.size = 0 ∧
      s.peekDeadline = -1))
    [.setRequest 1 ⟨3, 30, none, none⟩, .insert 1 false] (s := noDeadlines) ⟨rfl, fun _ => rfl⟩ (by decide +kernel)
  exact ⟨s, hr, of_decide_eq_true hp⟩

end Runloom.ParkerPool
