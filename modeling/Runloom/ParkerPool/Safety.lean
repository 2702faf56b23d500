import Runloom.Transition.History
import Runloom.ParkerPool.Views

/-!
# The views of the pool agree

After any sequence of links and unlinks, the list, the buckets, the heap, the mask and the counters hold the same
parkers, but for what a link had to leave out: a parker without a descriptor, or without memory for the index, is in
no bucket, and one without memory for the heap is not in the heap.
-/

namespace Runloom.ParkerPool

open Transition Linked List

/-- Whether the last link of a parker found room in the index and in the heap. -/
structure Made where
  indexed : Bool
  heaped : Bool

/-- `indexed` is a `runloom_parker_fd_index_ensure` that returned 0. -/
def note (h : Parker → Made) (s : State) : Call → State → Parker → Made
  | .link p r o, _ =>
    update h p ⟨(s.index.ensure r.fd o.fdRealloc).isSome, (s.dh.room o.dhRealloc).isSome⟩
  | .unlink _, _ => h

def noted (cfg : Config) : System (State × (Parker → Made)) Call :=
  (system cfg).withHistory (fun _ => ⟨false, false⟩) note

variable {cfg : Config} {s t : State} {h : Parker → Made} {l : List Parker} {b : ℕ → List Parker} {p : Parker}
  {r : Request} {o : Answers}

/-- The parkers of `l` that are counted for the scheduler `w`. -/
def counted (cfg : Config) (request : Parker → Request) (l : List Parker) (w : ℕ) : ℕ :=
  l.countP fun p => decide (countedOwner cfg (request p) = some w)

structure Inv (cfg : Config) (s : State) (h : Parker → Made) (l : List Parker) (b : ℕ → List Parker) : Prop where
  list : ListView s.list l
  index : IndexView s.index b
  heap : HeapView s.dh
  mask (hp : cfg.pidx < 64) : MaskView s.mask cfg.pidx b
  bucketed {p : Parker} {fd : ℕ} : p ∈ b fd ↔ p ∈ l ∧ (s.request p).fd = fd ∧ (h p).indexed = true
  heaped {p : Parker} :
    (s.dh.heapIndex p).isSome = true ↔ p ∈ l ∧ 0 ≤ (s.request p).deadlineNs ∧ (h p).heaped = true
  total : s.total = l.length
  parked (w : ℕ) : s.parked w = counted cfg s.request l w

theorem Inv.of_init (hi : Init cfg s) : Inv cfg s h [] fun _ => [] where
  list := ⟨trivial, hi.head, .nil, fun _ => hi.slot _, fun _ => hi.next _⟩
  index := ⟨fun _ => trivial, hi.byFd, fun _ => .nil, nofun, nofun, fun _ => hi.nextByFd _, fun _ => hi.prevByFd _⟩
  heap := ⟨fun hlt => absurd (hi.size ▸ hlt) (Nat.not_lt_zero _),
    fun hx => absurd ((hi.heapIndex _).symm.trans hx) nofun⟩
  mask _ := ⟨fun hm _ => by simp [hi.bit _ hm], fun _ _ _ => rfl⟩
  bucketed := by simp
  heaped := by simp [hi.heapIndex]
  total := hi.total
  parked := hi.parked

theorem addParked_apply (parked : ℕ → ℤ) (n : ℤ) (w : ℕ) :
    addParked cfg parked r n w = parked w + if countedOwner cfg r = some w then n else 0 := by
  unfold addParked
  cases countedOwner cfg r with
  | none => simp
  | some w' =>
    simp only [Option.some.injEq, update_apply, eq_comm (a := w')]
    split
    next e => rw [e]
    next => rw [add_zero]

def pushed (b : ℕ → List Parker) (indexed : Bool) (fd : ℤ) (p : Parker) : ℕ → List Parker :=
  if indexed then update b fd.toNat (p :: b fd.toNat) else b

theorem pushBucket_spec (hi : IndexView s.index b) (hm : cfg.pidx < 64 → MaskView s.mask cfg.pidx b)
    (hp : ∀ fd, p ∉ b fd) :
    ∃ I M, s.pushBucket cfg p o = { s with index := I, mask := M } ∧
      IndexView I (pushed b (s.index.ensure (s.request p).fd o.fdRealloc).isSome (s.request p).fd p) ∧
      (cfg.pidx < 64 → MaskView M cfg.pidx
        (pushed b (s.index.ensure (s.request p).fd o.fdRealloc).isSome (s.request p).fd p)) := by
  unfold State.pushBucket
  dsimp only
  rw [hi.reset_eq hp]
  cases he : s.index.ensure (s.request p).fd o.fdRealloc with
  | none => exact ⟨_, _, rfl, hi, hm⟩
  | some I =>
    obtain ⟨hI, hfd, hlt⟩ := hi.ensure he
    exact ⟨_, _, rfl, hI.push hp hlt, fun hp => (hm hp).set hp hfd o (cons_ne_nil _ _)⟩

theorem mem_pushed {q : Parker} {fd : ℤ} {f : ℕ} {indexed : Bool} (hfd : indexed = true → 0 ≤ fd) :
    q ∈ pushed b indexed fd p f ↔ q ∈ b f ∨ q = p ∧ fd = f ∧ indexed = true := by
  cases indexed with
  | false => simp [pushed]
  | true =>
    have hnn := hfd rfl
    simp only [pushed, if_true, update_apply]
    split
    next hf =>
      have he : fd = f := by omega
      rw [← hf, mem_cons, or_comm]
      exact or_congr_right ⟨fun e => ⟨e, he, trivial⟩, And.left⟩
    next hf =>
      have he : fd ≠ f := by omega
      simp [he]

theorem ensure_nonneg {I : FdIndex} {fd : ℤ} {c : Bool} (h : (I.ensure fd c).isSome = true) : 0 ≤ fd := by
  unfold FdIndex.ensure at h
  split at h
  next => cases h
  next hfd => exact not_lt.mp hfd

namespace Inv

section

variable (hv : Inv cfg s h l b)
include hv

theorem notMem_bucket (hp : p ∉ l) (fd : ℕ) : p ∉ b fd :=
  fun hb => hp (hv.bucketed.mp hb).1

theorem heapIndex_none (hp : p ∉ l) : s.dh.heapIndex p = none := by
  rw [← Option.not_isSome_iff_eq_none]
  exact fun hs => hp (hv.heaped.mp hs).1

theorem link (hp : p ∉ l) : Inv cfg ((s.prepare p r).parkerLink cfg p o) (note h s (.link p r o) s) (p :: l)
      (pushed b (s.index.ensure r.fd o.fdRealloc).isSome r.fd p) := by
  have hpb := hv.notMem_bucket hp
  have hr : (s.prepare p r).request p = r := update_self ..
  have hother : ∀ {q}, q ≠ p → (s.prepare p r).request q = s.request q := fun hq => update_of_ne hq _ _
  have hne : ∀ q ∈ l, q ≠ p := fun q hq e => hp (e ▸ hq)
  have hstale : (s.prepare p r).clearStale p = s.prepare p r := by
    unfold State.clearStale
    rw [show (s.prepare p r).list.clearStale p = s.list from hv.list.clearStale_eq hp,
      show (s.prepare p r).index.clearStale _ p = s.index from hv.index.clearStale_eq hpb]
    rfl
  obtain ⟨I, M, heq, hI, hM⟩ :=
    pushBucket_spec (s := { s.prepare p r with list := s.list.push p }) (o := o) hv.index hv.mask hpb
  obtain ⟨hH, hheaped⟩ := hv.heap.insert (dhLess cfg (s.prepare p r).request) (hv.heapIndex_none hp) r.deadlineNs
    o.dhRealloc
  have hlink : (s.prepare p r).parkerLink cfg p o = { s.prepare p r with
        list := s.list.push p
        index := I
        mask := M
        dh := s.dh.insert (dhLess cfg (s.prepare p r).request) p r.deadlineNs o.dhRealloc
        total := s.total + 1
        parked := addParked cfg s.parked r 1
        linkCount := s.linkCount + 1 } := by
    unfold State.parkerLink
    rw [hstale]
    dsimp only
    rw [show (s.prepare p r).list = s.list from rfl, heq]
    simp only [State.dhInsert, hr]
    rfl
  rw [hlink]
  simp only [hr] at hI hM
  refine ⟨hv.list.push hp, hI, hH, hM, fun {q fd} => ?_, fun {q} => ?_, ?_, fun w => ?_⟩
  · rw [mem_pushed ensure_nonneg, hv.bucketed]
    by_cases hq : q = p
    · subst hq
      simp [hp, hr, note]
    · simp [hq, hother hq, note]
  · show (DeadlineHeap.heapIndex _ q).isSome = true ↔ _
    rw [hheaped, hv.heaped]
    by_cases hq : q = p
    · subst hq
      simp [hp, hr, note]
    · simp [hq, hother hq, note]
  · simp [hv.total]
  · show addParked cfg s.parked r 1 w = (List.countP _ (p :: l) : ℤ)
    rw [addParked_apply, hv.parked, countP_cons]
    have hl : List.countP (fun q => decide (countedOwner cfg ((s.prepare p r).request q) = some w)) l =
        counted cfg s.request l w := by
      apply countP_congr
      intro q hq
      rw [hother (hne q hq)]
    simp only [hr]
    rw [hl]
    split <;> simp_all

theorem unlink_of_notMem (hp : p ∉ l) : s.parkerUnlink cfg p = (s, false) := by
  have hpb := hv.notMem_bucket hp
  unfold State.parkerUnlink
  simp only [hv.list.unlink_of_notMem hp, hv.index.unlink_of_notMem hpb, hv.heapIndex_none hp, Option.isSome_none,
    Bool.false_eq_true, if_false, Bool.or_false]
  split
  next he =>
    rw [MaskView.clear_eq hv.mask (hv.index.isEmpty_iff.mp he.2)]
  next => rfl

theorem unlink (hp : p ∈ l) : Inv cfg (s.parkerUnlink cfg p).1 h (l.erase p) fun fd => (b fd).erase p := by
  have hfd : ∀ f : ℕ, p ∈ b f → (f : ℤ) = (s.request p).fd := fun f hf => (hv.bucketed.mp hf).2.1.symm
  obtain ⟨hI, -⟩ := hv.index.unlink_erase hfd
  obtain ⟨hH, hheaped⟩ := hv.heap.remove (dhLess cfg s.request) (p := p)
  have htouched := hv.list.unlink_touched hp
  have hunlink : (s.parkerUnlink cfg p).1 = { s with
        list := (s.list.unlink p).1
        index := (s.index.unlink (s.request p).fd p).1
        mask := if 0 ≤ (s.request p).fd ∧ (s.index.unlink (s.request p).fd p).1.IsEmpty (s.request p).fd then
          s.mask.clear cfg.pidx (s.request p).fd else s.mask
        dh := s.dh.remove (dhLess cfg s.request) p
        total := s.total - 1
        parked := addParked cfg s.parked (s.request p) (-1)
        netpollParker := dropParker s.netpollParker (s.request p) p } := by
    have hskip : (if (s.dh.heapIndex p).isSome = true then s.dh.remove (dhLess cfg s.request) p else s.dh) =
        s.dh.remove (dhLess cfg s.request) p := by
      -- A removal of a parker that is not in the heap does nothing.
      split
      next => rfl
      next hx =>
        rw [Option.not_isSome_iff_eq_none] at hx
        unfold DeadlineHeap.remove
        rw [hx]
    unfold State.parkerUnlink
    simp only [htouched, hskip, Bool.true_or, if_true]
    rfl
  rw [hunlink]
  refine ⟨hv.list.unlink hp, hI, hH, fun hlt => ?_, fun {q fd} => ?_, fun {q} => ?_, ?_, fun w => ?_⟩
  · dsimp only
    split
    next he =>
      -- The bucket is empty now: its bit is cleared, and the other buckets lose nothing.
      refine ((hv.mask hlt).clear hlt he.1).congr fun f => ?_
      have hempty := hI.isEmpty_iff.mp he.2
      by_cases hf : f = (s.request p).fd.toNat
      · subst hf
        rw [update_self]
        exact iff_of_true rfl hempty
      · rw [update_of_ne hf, erase_of_not_mem]
        intro hpf
        have := (hv.bucketed.mp hpf).2.1
        omega
    next he =>
      refine (hv.mask hlt).congr fun f => ?_
      refine ⟨fun hb => by rw [hb]; rfl, fun hb => ?_⟩
      by_cases hpf : p ∈ b f
      · -- The bucket of `p` has another parker, or its bit would have been cleared.
        have hfd := (hv.bucketed.mp hpf).2.1
        refine absurd ⟨by omega, hI.isEmpty_iff.mpr ?_⟩ he
        rwa [hfd]
      · rwa [erase_of_not_mem hpf] at hb
  · rw [hv.index.nodup fd |>.mem_erase_iff, hv.list.nodup.mem_erase_iff, hv.bucketed]
    exact ⟨fun h => ⟨⟨h.1, h.2.1⟩, h.2.2⟩, fun h => ⟨h.1.1, h.1.2, h.2⟩⟩
  · show (DeadlineHeap.heapIndex _ q).isSome = true ↔ _
    rw [hheaped, hv.heaped, hv.list.nodup.mem_erase_iff]
    exact ⟨fun h => ⟨⟨h.2, h.1.1⟩, h.1.2⟩, fun h => ⟨⟨h.1.2, h.2⟩, h.1.1⟩⟩
  · have hpos := length_pos_of_mem hp
    show s.total - 1 = ((l.erase p).length : ℤ)
    rw [hv.total, length_erase_of_mem hp]
    omega
  · show addParked cfg s.parked (s.request p) (-1) w = (counted cfg s.request (l.erase p) w : ℤ)
    have hc := (perm_cons_erase hp).countP_eq fun q => decide (countedOwner cfg (s.request q) = some w)
    rw [countP_cons] at hc
    rw [addParked_apply, hv.parked]
    unfold counted
    rw [hc]
    split <;> simp_all

end

end Inv

def State.isLinked (s : State) (p : Parker) : Bool := (s.list.slot p).isSome

theorem Inv.isLinked_iff (hv : Inv cfg s h l b) : s.isLinked p = true ↔ p ∈ l := by
  rw [State.isLinked, Option.isSome_iff_ne_none, ne_eq, hv.list.slot_eq_none_iff, not_not]

theorem Inv.step {a : Call} (hv : Inv cfg s h l b) (hs : (system cfg).step s a = some t) :
    ∃ l b, Inv cfg t (note h s a t) l b := by
  cases a with
  | link p r o =>
    simp only [system, ParkerPool.step, Option.ite_none_right_eq_some, Option.some.injEq] at hs
    obtain ⟨hslot, rfl⟩ := hs
    exact ⟨_, _, hv.link (hv.list.slot_eq_none_iff.mp hslot)⟩
  | unlink p =>
    cases hs
    by_cases hp : p ∈ l
    · exact ⟨_, _, hv.unlink hp⟩
    · rw [hv.unlink_of_notMem hp]
      exact ⟨l, b, hv⟩

theorem exists_inv {x : State × (Parker → Made)} (hx : (noted cfg).Reachable x) : ∃ l b, Inv cfg x.1 x.2 l b := by
  refine hx.invariant (P := fun x => ∃ l b, Inv cfg x.1 x.2 l b) (fun x hi => ?_) ?_
  · exact ⟨_, _, .of_init hi.1⟩
  · rintro x a y ⟨l, b, hv⟩ - hstep
    obtain ⟨hs, hnote⟩ := System.withHistory_step hstep
    rw [hnote]
    exact hv.step hs

/-- The structures of the pool as their readers see them: `l` is the list, `b fd` a bucket. -/
structure ViewsAgree (cfg : Config) (s : State) (h : Parker → Made) (l : List Parker) (b : ℕ → List Parker) :
    Prop where
  list : s.list.head = l.head? ∧ Spells s.list.next l ∧ l.Nodup
  linked (p : Parker) : s.list.slot p ≠ none ↔ p ∈ l
  unlinked (p : Parker) (hp : p ∉ l) :
    s.list.next p = none ∧ s.index.nextByFd p = none ∧ s.index.prevByFd p = none ∧ s.dh.heapIndex p = none
  bucket (fd : ℕ) : s.index.byFd fd = (b fd).head? ∧ Spells s.index.nextByFd (b fd) ∧ (b fd).Nodup
  bucketed (p : Parker) (fd : ℕ) : p ∈ b fd ↔ p ∈ l ∧ (s.request p).fd = fd ∧ (h p).indexed = true
  heap : ((List.range s.dh.size).map s.dh.arr).Nodup
  heaped (p : Parker) :
    p ∈ (List.range s.dh.size).map s.dh.arr ↔ p ∈ l ∧ 0 ≤ (s.request p).deadlineNs ∧ (h p).heaped = true
  total : s.total = l.length
  parked (w : ℕ) : s.parked w = counted cfg s.request l w
  mask (hp : cfg.pidx < 64) (m : Poolmask) (hm : s.mask.table = some m) (fd : ℕ) (hfd : fd < m.cap) :
    (m.words fd).getLsbD cfg.pidx = true ↔ b fd ≠ []
  unlink (p : Parker) (hp : p ∉ l) : s.parkerUnlink cfg p = (s, false)

theorem Inv.viewsAgree (hv : Inv cfg s h l b) : ViewsAgree cfg s h l b where
  list := ⟨hv.list.head, hv.list.linked.spells, hv.list.nodup⟩
  linked p := by
    rw [ne_eq, hv.list.slot_eq_none_iff, not_not]
  unlinked p hp :=
    ⟨hv.list.next_none hp, hv.index.next_none (hv.notMem_bucket hp), hv.index.prev_none (hv.notMem_bucket hp),
      hv.heapIndex_none hp⟩
  bucket fd := ⟨hv.index.first fd, (hv.index.linked fd).spells, hv.index.nodup fd⟩
  bucketed _ _ := hv.bucketed
  heap := by
    refine nodup_range.map_on fun i hi j hj => hv.heap.arr_inj ?_ ?_
    · exact mem_range.mp hi
    · exact mem_range.mp hj
  heaped p := by
    rw [← hv.heaped, Option.isSome_iff_exists, mem_map]
    constructor
    · rintro ⟨i, hi, rfl⟩
      exact ⟨i, hv.heap.index (mem_range.mp hi)⟩
    · rintro ⟨i, hi⟩
      exact ⟨i, mem_range.mpr (hv.heap.entry hi).1, (hv.heap.entry hi).2⟩
  total := hv.total
  parked := hv.parked
  mask hp _ hm _ hfd := (hv.mask hp).bit hm hfd
  unlink _ hp := hv.unlink_of_notMem hp

/-- After every sequence of links and unlinks the structures of the pool agree. -/
theorem parker_views_agree (cfg : Config) (x : State × (Parker → Made)) (hx : (noted cfg).Reachable x) :
    ∃ l b, ViewsAgree cfg x.1 x.2 l b := by
  obtain ⟨l, b, hv⟩ := exists_inv hx
  exact ⟨l, b, hv.viewsAgree⟩

def hubPool : Config where
  pidx := 0
  owner := fun _ => some 0
  goid := fun g => g
  sim := false

def emptyPool : State where
  request := fun _ => ⟨-1, -1, none, none⟩
  list := ⟨none, fun _ => none, fun _ => none⟩
  index := ⟨fun _ => none, 0, fun _ => none, fun _ => none⟩
  dh := ⟨fun _ => 0, 0, 0, fun _ => none⟩
  mask := ⟨none, false⟩
  total := 0
  linkCount := 0
  parked := fun _ => 0
  netpollParker := fun _ => none

theorem emptyPool_init : Init hubPool emptyPool where
  head := rfl
  next _ := rfl
  slot _ := rfl
  byFd _ := rfl
  nextByFd _ := rfl
  prevByFd _ := rfl
  size := rfl
  heapIndex _ := rfl
  bit := nofun
  total := rfl
  parked _ := rfl

/-- The first of two parkers on one descriptor is unlinked twice. -/
def twoParkers : List Call :=
  [.link 0 ⟨3, 20, some 0, none⟩ ⟨true, true, true, some 1024⟩,
    .link 1 ⟨3, 10, some 1, none⟩ ⟨true, true, true, some 1024⟩, .unlink 0, .unlink 0]

theorem parker_views_agree_twoParkers :
    ∃ x, (noted hubPool).Reachable x ∧ x.1.index.byFd 3 = some 1 ∧ x.1.dh.arr 0 = 1 ∧ x.1.parked 0 = 1 ∧
      ∃ l b, ViewsAgree hubPool x.1 x.2 l b := by
  obtain ⟨x, hx, hfd, harr, hparked⟩ := (noted hubPool).reaches
    (fun x => x.1.index.byFd 3 = some 1 ∧ x.1.dh.arr 0 = 1 ∧ x.1.parked 0 = 1) twoParkers
    (s := (emptyPool, fun _ => ⟨false, false⟩)) ⟨emptyPool_init, rfl⟩ (by decide +kernel)
  exact ⟨x, hx, hfd, harr, hparked, parker_views_agree hubPool x hx⟩

/-- A parker without a descriptor, for which the heap has no memory; then one for which the mask has none. -/
def leftOut : List Call :=
  [.link 0 ⟨-1, 20, some 0, some 0⟩ ⟨false, false, false, none⟩,
    .link 1 ⟨3, -1, some 1, some 0⟩ ⟨true, false, false, none⟩]

/-- Parker 0 is linked, and in no bucket, heap or count; and the bit of the bucket of parker 1 is not set. -/
theorem linked_parker_left_out : ∃ t, (system hubPool).Reachable t ∧
      t.list.head = some 1 ∧ t.list.next 1 = some 0 ∧ t.list.slot 0 = some (.next 1) ∧
      (∀ fd ∈ List.range t.index.cap, t.index.byFd fd ≠ some 0) ∧ t.index.prevByFd 0 = none ∧
      0 ≤ (t.request 0).deadlineNs ∧ t.dh.size = 0 ∧ t.parked 0 = 0 ∧
      t.index.byFd 3 = some 1 ∧ t.mask.table.isNone = true := by
  exact (system hubPool).reaches
    (fun t => t.list.head = some 1 ∧ t.list.next 1 = some 0 ∧ t.list.slot 0 = some (.next 1) ∧
      (∀ fd ∈ List.range t.index.cap, t.index.byFd fd ≠ some 0) ∧ t.index.prevByFd 0 = none ∧
      0 ≤ (t.request 0).deadlineNs ∧ t.dh.size = 0 ∧ t.parked 0 = 0 ∧
      t.index.byFd 3 = some 1 ∧ t.mask.table.isNone = true) leftOut emptyPool_init (by decide +kernel)

end Runloom.ParkerPool
