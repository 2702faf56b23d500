import Runloom.HandleTable.Invariant
import Runloom.HandleTable.SlotModel
import Runloom.Linked.Chain

/-!
# Every slot has one place

A slot is on the freelist, in the hands of one thread inside `register` or `reclaim`, or live, and in one of these at
a time.  The counter follows the live slots, off by the threads that are on their way to it.
-/

namespace Runloom.HandleTable.Slots

open Transition Linked List

variable {α φ T : Type*} {cfg : Config} {s u : State α φ T} {i j b : ℕ} {l : List ℕ} {x : Slot α φ}

/-! ## The memory -/

theorem segSlots_pos (cfg : Config) : 0 < segSlots cfg := Nat.two_pow_pos _

theorem seg_lt_of_lt_size (h : i < s.size cfg) : i / segSlots cfg < s.nsegs :=
  Nat.div_lt_of_lt_mul (by rwa [Nat.mul_comm] )

theorem lt_size_of_seg_lt (h : i / segSlots cfg < s.nsegs) : i < s.size cfg :=
  (Nat.div_lt_iff_lt_mul (segSlots_pos cfg)).1 h

theorem lookup_eq_some {x : Slot α φ} (h : s.lookup cfg i = some x) : i < s.size cfg := by
  unfold State.lookup at h
  split at h
  next => cases h
  next hseg => exact lt_size_of_seg_lt (not_le.1 hseg)

def Separate (s : State α φ T) : Prop :=
  ∀ m < s.nsegs, ∀ n < s.nsegs, s.segs m = s.segs n → m = n

theorem addr_injective (hs : Separate s) (hi : i < s.size cfg) (hj : j < s.size cfg)
    (h : s.addr cfg i = s.addr cfg j) : i = j := by
  obtain ⟨hseg, hoff⟩ := Prod.mk.inj h
  have hdiv := hs _ (seg_lt_of_lt_size hi) _ (seg_lt_of_lt_size hj) hseg
  rw [← Nat.div_add_mod i (segSlots cfg), ← Nat.div_add_mod j (segSlots cfg), hdiv, hoff]

@[simp] theorem slot_setSlot_self : (s.setSlot cfg i x).slot cfg i = x := by
  simp [State.slot, State.setSlot, State.addr]

theorem slot_setSlot_of_ne (hs : Separate s) (hi : i < s.size cfg) (hj : j < s.size cfg) (hne : j ≠ i) :
    (s.setSlot cfg i x).slot cfg j = s.slot cfg j := by
  show update s.mem _ _ (s.addr cfg j).1 (s.addr cfg j).2 = s.mem (s.addr cfg j).1 (s.addr cfg j).2
  by_cases hseg : (s.addr cfg j).1 = (s.addr cfg i).1
  · rw [hseg, update_self, update_of_ne]
    intro hoff
    exact hne (addr_injective hs hj hi (Prod.ext hseg hoff))
  · rw [update_of_ne hseg]

theorem slot_setSlot (hs : Separate s) (hi : i < s.size cfg) (hj : j < s.size cfg) :
    (s.setSlot cfg i x).slot cfg j = update (s.slot cfg) i x j := by
  by_cases hne : j = i
  · subst hne
    rw [slot_setSlot_self, update_self]
  · rw [slot_setSlot_of_ne hs hi hj hne, update_of_ne hne]

/-! ## The freelist -/

/-- A slot index as a pointer: `RL_SLOT_NONE` is null. -/
def link (idx : ℕ) : Option ℕ := if idx = slotNone then none else some idx

theorem link_of_ne (h : i ≠ 0) : link i = some i := if_neg h

/-- The walk along `next_free` from `rl_handle_free_head` reads `l` and ends. -/
def FreeList (cfg : Config) (s : State α φ T) (l : List ℕ) : Prop :=
  link s.freeHead = l.head? ∧ Spells (fun idx => link (s.slot cfg idx).nextFree) l

theorem FreeList.congr (h : FreeList cfg s l) (hhead : u.freeHead = s.freeHead)
    (hnext : ∀ i ∈ l, (u.slot cfg i).nextFree = (s.slot cfg i).nextFree) : FreeList cfg u l := by
  refine ⟨by rw [hhead]; exact h.1, h.2.congr fun i hi => ?_⟩
  rw [hnext i hi]

theorem FreeList.push (h : FreeList cfg s l) (hs : Separate s) (hl : ∀ j ∈ l, j < s.size cfg)
    (hi : i < s.size cfg) (hne : i ≠ 0) (hmem : i ∉ l) : FreeList cfg (s.pushFree cfg i) (i :: l) := by
  refine ⟨link_of_ne hne, ?_, ?_⟩
  · show link ((s.setSlot cfg i _).slot cfg i).nextFree = l.head?
    rw [slot_setSlot_self]
    exact h.1
  · refine h.2.congr fun j hj => ?_
    show link ((s.setSlot cfg i _).slot cfg j).nextFree = _
    rw [slot_setSlot_of_ne hs hi (hl j hj) fun hji => hmem (hji ▸ hj)]

theorem FreeList.pop (h : FreeList cfg s l) (hne : s.freeHead ≠ slotNone) :
    ∃ rest, l = s.freeHead :: rest ∧ FreeList cfg { s with freeHead := (s.slot cfg s.freeHead).nextFree } rest := by
  obtain ⟨hhead, hl⟩ := h
  rw [link_of_ne hne] at hhead
  cases l with
  | nil => cases hhead
  | cons j rest =>
    cases hhead
    exact ⟨rest, rfl, hl.1, hl.2⟩

/-- `u` has the slots of `s` but for their links. -/
structure Kept (cfg : Config) (s u : State α φ T) : Prop where
  segs : u.segs = s.segs
  nsegs : u.nsegs = s.nsegs
  live : u.live = s.live
  pc : u.pc = s.pc
  slot : ∀ j < s.size cfg, ∃ n, u.slot cfg j = { s.slot cfg j with nextFree := n }

theorem Kept.refl (s : State α φ T) : Kept cfg s s := ⟨rfl, rfl, rfl, rfl, fun _ _ => ⟨_, rfl⟩⟩

theorem Kept.size (h : Kept cfg s u) : u.size cfg = s.size cfg := by rw [State.size, State.size, h.nsegs]

theorem Kept.trans {v : State α φ T} (h : Kept cfg s u) (h' : Kept cfg u v) : Kept cfg s v := by
  refine ⟨h'.segs.trans h.segs, h'.nsegs.trans h.nsegs, h'.live.trans h.live, h'.pc.trans h.pc, fun j hj => ?_⟩
  obtain ⟨m, hm⟩ := h.slot j hj
  obtain ⟨n, hn⟩ := h'.slot j (by rw [h.size]; exact hj)
  exact ⟨n, by rw [hn, hm]⟩

theorem Kept.separate (h : Kept cfg s u) (hs : Separate s) : Separate u := by
  intro m hm n hn heq
  rw [h.nsegs] at hm hn
  rw [h.segs] at heq
  exact hs m hm n hn heq

theorem pushFree_kept (hs : Separate s) (hi : i < s.size cfg) : Kept cfg s (s.pushFree cfg i) := by
  refine ⟨rfl, rfl, rfl, rfl, fun j hj => ?_⟩
  show ∃ n, (s.setSlot cfg i _).slot cfg j = _
  rw [slot_setSlot hs hi hj]
  by_cases hji : j = i
  · subst hji
    exact ⟨s.freeHead, update_self ..⟩
  · rw [update_of_ne hji]
    exact ⟨_, rfl⟩

theorem foldl_pushFree (hs : Separate s) {k : List ℕ} (hl : ∀ j ∈ l, j < s.size cfg)
    (hk : ∀ i ∈ k, i < s.size cfg ∧ i ≠ 0) (hd : k.Nodup) (hdisj : ∀ i ∈ k, i ∉ l) (h : FreeList cfg s l) :
    FreeList cfg (k.foldl (State.pushFree cfg) s) (k.reverse ++ l) ∧
      Kept cfg s (k.foldl (State.pushFree cfg) s) := by
  induction k generalizing s l with
  | nil => exact ⟨h, Kept.refl s⟩
  | cons i k ih =>
    obtain ⟨⟨hi, hne⟩, hrest⟩ := forall_mem_cons.1 hk
    obtain ⟨hil, hdisj⟩ := forall_mem_cons.1 hdisj
    obtain ⟨hmem, hd⟩ := nodup_cons.1 hd
    have hpush := pushFree_kept hs hi
    have hlist := h.push hs hl hi hne hil
    obtain ⟨hfree, hkept⟩ := ih (hpush.separate hs) (l := i :: l) (fun j hj => by
        rw [hpush.size]
        rcases mem_cons.1 hj with rfl | hj
        · exact hi
        · exact hl j hj)
      (fun j hj => by rw [hpush.size]; exact hrest j hj) hd
      (fun j hj hjl => by
        rcases mem_cons.1 hjl with rfl | hjl
        · exact hmem hj
        · exact hdisj j hj hjl) hlist
    refine ⟨?_, hpush.trans hkept⟩
    rw [reverse_cons, append_assoc]
    exact hfree

/-! ## The growth -/

theorem addSegment_size : (s.addSegment b).size cfg = s.size cfg + segSlots cfg := Nat.succ_mul ..

theorem addSegment_separate (hs : Separate s) (hf : ∀ seg < s.nsegs, s.segs seg ≠ b) :
    Separate (s.addSegment b) := by
  have hseg : ∀ m < s.nsegs, (s.addSegment b).segs m = s.segs m :=
    fun m hm => update_of_ne hm.ne ..
  have hlast : (s.addSegment b).segs s.nsegs = b := update_self ..
  intro m hm n hn h
  rcases Nat.lt_succ_iff_lt_or_eq.1 hm with hm | rfl <;> rcases Nat.lt_succ_iff_lt_or_eq.1 hn with hn | rfl
  · rw [hseg m hm, hseg n hn] at h
    exact hs m hm n hn h
  · rw [hseg m hm, hlast] at h
    exact absurd h (hf m hm)
  · rw [hseg n hn, hlast] at h
    exact absurd h.symm (hf n hn)
  · rfl

theorem addSegment_slot (hf : ∀ seg < s.nsegs, s.segs seg ≠ b) (hi : i < s.size cfg) :
    (s.addSegment b).addr cfg i = s.addr cfg i ∧ (s.addSegment b).slot cfg i = s.slot cfg i := by
  have hseg := seg_lt_of_lt_size hi
  have haddr : (s.addSegment b).addr cfg i = s.addr cfg i :=
    Prod.ext (update_of_ne hseg.ne ..) rfl
  refine ⟨haddr, ?_⟩
  rw [State.slot, haddr]
  show update s.mem b _ (s.addr cfg i).1 (s.addr cfg i).2 = _
  rw [update_of_ne (show (s.addr cfg i).1 ≠ b from hf _ hseg)]
  rfl

theorem addSegment_slot_new (hi : s.size cfg ≤ i) (hi' : i < s.size cfg + segSlots cfg) :
    (s.addSegment b).slot cfg i = Slot.zero α φ := by
  have hseg : i / segSlots cfg = s.nsegs :=
    Nat.div_eq_of_lt_le hi (by rw [Nat.succ_mul]; exact hi')
  have haddr : (s.addSegment b).addr cfg i = (b, i % segSlots cfg) := by
    rw [State.addr, hseg]
    exact congrArg (·, _) (update_self ..)
  rw [State.slot, haddr]
  show update s.mem b _ b _ = _
  rw [update_self]

theorem mem_freshSlots : i ∈ s.freshSlots cfg ↔ i ≠ 0 ∧ s.size cfg ≤ i ∧ i < s.size cfg + segSlots cfg := by
  have hpos := segSlots_pos cfg
  have hbase : s.nsegs = 0 → s.size cfg = 0 := fun h0 => by rw [State.size, h0, Nat.zero_mul]
  have hbase' : s.nsegs ≠ 0 → 0 < s.size cfg := fun h0 => Nat.mul_pos (Nat.pos_of_ne_zero h0) hpos
  simp only [State.freshSlots, mem_range'_1]
  show s.size cfg + _ ≤ i ∧ i < s.size cfg + _ + _ ↔ _
  by_cases h0 : s.nsegs = 0
  · have := hbase h0
    simp only [h0, if_true]
    omega
  · have := hbase' h0
    simp only [h0, if_false]
    omega

theorem freshSlots_ne_nil : s.freshSlots cfg ≠ [] := by
  have htwo : 2 ^ 1 ≤ segSlots cfg := Nat.pow_le_pow_right Nat.two_pos cfg.one_le_segBits
  apply ne_nil_of_mem (a := s.size cfg + 1)
  rw [mem_freshSlots]
  omega

/-! ## The invariant -/

/-- Whether a thread has slot `i` to itself. -/
def Pc.excl (i : ℕ) : Pc α φ → ℤ
  | .regGot idx _ _ | .regGen idx _ _ _ | .regSet idx _ => if idx = i then 1 else 0
  | .recRead h | .recStore h _ _ | .recFree h _ _ | .recLive h | .recPush h => if h.idx = i then 1 else 0
  | _ => 0

/-- What a thread has still to add to the counter. -/
def Pc.owed : Pc α φ → ℤ
  | .regLive _ _ => -1
  | .recRead _ | .recStore _ _ _ | .recFree _ _ _ | .recLive _ => 1
  | _ => 0

theorem Pc.excl_nonneg (i : ℕ) (c : Pc α φ) : 0 ≤ c.excl i := by
  unfold excl
  split <;> first | split | skip
  all_goals decide

def PcOk (cfg : Config) (s : State α φ T) : Pc α φ → Prop
  | .regGen _ gen _ _ => gen < 2 ^ 32
  | .regSet idx gen => gen < 2 ^ 32 ∧ (s.slot cfg idx).ptr ≠ none
  | .regLive idx gen => gen < 2 ^ 32 ∧ idx ≠ 0 ∧ idx < s.size cfg
  | .regDone h => h.gen < 2 ^ 32 ∧ h.idx ≠ 0 ∧ h.idx < s.size cfg
  | .pinTest h _ | .derefTest h _ => h.idx < s.size cfg
  | _ => True

structure SlotOk (x : Slot α φ) : Prop where
  gen_lt : x.genref.gen < 2 ^ 32
  rc_lt : x.genref.rc < 2 ^ 32
  ptr : 0 < x.genref.rc → x.ptr ≠ none

def liveAt (cfg : Config) (s : State α φ T) (i : ℕ) : ℤ := if i < s.size cfg then (s.slot cfg i).genref.live else 0

/-- Whether `i` is the index of a slot that exists and is not the reserved one. -/
def inTable (cfg : Config) (s : State α φ T) (i : ℕ) : ℤ := if i ≠ 0 ∧ i < s.size cfg then 1 else 0

theorem liveAt_nonneg (cfg : Config) (s : State α φ T) (i : ℕ) : 0 ≤ liveAt cfg s i := by
  unfold liveAt
  split
  · exact Genref.live_nonneg _
  · exact le_rfl

theorem inTable_le_one (cfg : Config) (s : State α φ T) (i : ℕ) : inTable cfg s i ≤ 1 := by
  unfold inTable
  split <;> decide

theorem inTable_pos (h : 0 < inTable cfg s i) : i ≠ 0 ∧ i < s.size cfg := by
  unfold inTable at h
  split at h
  next hi => exact hi
  next => cases h

variable {c : Pc α φ}

theorem PcOk.congr (h : PcOk cfg s c) (hsize : s.size cfg ≤ u.size cfg)
    (hptr : ∀ i, c.excl i = 1 → (u.slot cfg i).ptr = (s.slot cfg i).ptr) : PcOk cfg u c := by
  cases c with
  | regGen idx gen p fn => exact h
  | regSet idx gen =>
    refine ⟨h.1, ?_⟩
    rw [hptr idx (if_pos rfl)]
    exact h.2
  | regLive idx gen | regDone h' => exact ⟨h.1, h.2.1, h.2.2.trans_le hsize⟩
  | pinTest h' gr | derefTest h' gr => exact (show h'.idx < s.size cfg from h).trans_le hsize
  | _ => trivial

/-- `u` is `s` with one segment more. -/
structure Grown (cfg : Config) (s u : State α φ T) : Prop where
  size : u.size cfg = s.size cfg + segSlots cfg
  live : u.live = s.live
  pc : u.pc = s.pc
  addr : ∀ j < s.size cfg, u.addr cfg j = s.addr cfg j
  slot : ∀ j < s.size cfg, ∃ n, u.slot cfg j = { s.slot cfg j with nextFree := n }
  new : ∀ j, s.size cfg ≤ j → j < u.size cfg → ∃ n, u.slot cfg j = { Slot.zero α φ with nextFree := n }

theorem Kept.grown (hf : ∀ seg < s.nsegs, s.segs seg ≠ b) (hk : Kept cfg (s.addSegment b) u) : Grown cfg s u := by
  have hsize : u.size cfg = s.size cfg + segSlots cfg := hk.size.trans addSegment_size
  refine ⟨hsize, hk.live, hk.pc, fun j hj => ?_, fun j hj => ?_, fun j hj hj' => ?_⟩
  · rw [State.addr, hk.segs]
    exact (addSegment_slot hf hj).1
  · obtain ⟨n, hn⟩ := hk.slot j (by rw [addSegment_size]; exact Nat.lt_add_right _ hj)
    exact ⟨n, by rw [hn, (addSegment_slot hf hj).2]⟩
  · obtain ⟨n, hn⟩ := hk.slot j (by rw [← hk.size]; exact hj')
    exact ⟨n, by rw [hn, addSegment_slot_new hj (hsize ▸ hj')]⟩

theorem Grown.liveAt_eq (hg : Grown cfg s u) (j : ℕ) : liveAt cfg u j = liveAt cfg s j := by
  unfold liveAt
  by_cases hj : j < s.size cfg
  · obtain ⟨n, hn⟩ := hg.slot j hj
    rw [if_pos hj, if_pos (by rw [hg.size]; exact Nat.lt_add_right _ hj), hn]
  · rw [if_neg hj]
    split
    next hj' =>
      obtain ⟨n, hn⟩ := hg.new j (not_lt.1 hj) hj'
      rw [hn]
      rfl
    next => rfl

theorem Grown.sum_live (hg : Grown cfg s u) : ∑ j ∈ Finset.range (u.size cfg), (u.slot cfg j).genref.live =
      ∑ j ∈ Finset.range (s.size cfg), (s.slot cfg j).genref.live := by
  have hzero : ∑ x ∈ Finset.range (segSlots cfg), (u.slot cfg (s.size cfg + x)).genref.live = 0 := by
    refine Finset.sum_eq_zero fun x hx => ?_
    obtain ⟨n, hn⟩ := hg.new (s.size cfg + x) (Nat.le_add_right ..)
      (by rw [hg.size]; exact Nat.add_lt_add_left (Finset.mem_range.1 hx) _)
    rw [hn]
    rfl
  rw [hg.size, Finset.sum_range_add, hzero, add_zero]
  refine Finset.sum_congr rfl fun j hj => ?_
  obtain ⟨n, hn⟩ := hg.slot j (Finset.mem_range.1 hj)
  rw [hn]

theorem Grown.inTable_eq (hg : Grown cfg s u) (j : ℕ) :
    inTable cfg u j = inTable cfg s j + (s.freshSlots cfg).reverse.count j := by
  have hcount : (s.freshSlots cfg).reverse.count j = if j ∈ s.freshSlots cfg then 1 else 0 := by
    rw [count_reverse]
    split
    next hj => exact count_eq_one_of_mem (nodup_range' ..) hj
    next hj => exact count_eq_zero.2 hj
  have hsize := hg.size
  rw [hcount, inTable, inTable]
  simp only [mem_freshSlots]
  split_ifs <;> omega

variable [Fintype T]

/-- `l` is the freelist. -/
structure Inv (cfg : Config) (s : State α φ T) (l : List ℕ) : Prop where
  free : FreeList cfg s l
  own : ∀ i, ∑ t, (s.pc t).excl i + l.count i + liveAt cfg s i = inTable cfg s i
  live : s.live = ∑ i ∈ Finset.range (s.size cfg), (s.slot cfg i).genref.live + ∑ t, (s.pc t).owed
  pcOk : ∀ t, PcOk cfg s (s.pc t)
  slotOk : ∀ i < s.size cfg, SlotOk (s.slot cfg i)
  separate : Separate s
  nsegs_le : s.nsegs ≤ cfg.maxSegs

theorem Inv.init (h : Init s) : Inv cfg s [] where
  free := ⟨by rw [h.freeHead]; rfl, trivial⟩
  own i := by simp [h.pc, Pc.excl, liveAt, inTable, State.size, h.nsegs]
  live := by simp [h.pc, h.live, State.size, h.nsegs, Pc.owed]
  pcOk t := by
    rw [h.pc]
    trivial
  slotOk i hi := by
    rw [State.size, h.nsegs, Nat.zero_mul] at hi
    exact absurd hi (Nat.not_lt_zero i)
  separate m hm := by
    rw [h.nsegs] at hm
    exact absurd hm (Nat.not_lt_zero m)
  nsegs_le := by
    rw [h.nsegs]
    exact Nat.zero_le _

theorem Inv.sum_excl_nonneg (i : ℕ) : 0 ≤ ∑ t, (s.pc t).excl i :=
  Finset.sum_nonneg fun t _ => Pc.excl_nonneg i (s.pc t)

theorem Inv.of_mem (hI : Inv cfg s l) (hi : i ∈ l) :
    (i ≠ 0 ∧ i < s.size cfg) ∧ liveAt cfg s i = 0 ∧ ∑ t, (s.pc t).excl i = 0 ∧ l.count i = 1 := by
  have hown := hI.own i
  have hcount := count_pos_iff.2 hi
  have hsum := Inv.sum_excl_nonneg (s := s) i
  have hlive := liveAt_nonneg cfg s i
  have hle := inTable_le_one cfg s i
  exact ⟨inTable_pos (show 0 < inTable cfg s i by omega), by omega, by omega, by omega⟩

theorem Inv.nodup (hI : Inv cfg s l) : l.Nodup :=
  nodup_iff_count_eq_one.2 fun _ hi => (hI.of_mem hi).2.2.2

variable {t : T}

theorem Inv.of_excl (hI : Inv cfg s l) (ht : (s.pc t).excl i = 1) :
    (i ≠ 0 ∧ i < s.size cfg) ∧ liveAt cfg s i = 0 ∧ i ∉ l ∧ ∀ t', t' ≠ t → (s.pc t').excl i = 0 := by
  classical
  have hown := hI.own i
  have hle := inTable_le_one cfg s i
  have hlive := liveAt_nonneg cfg s i
  have hpos : (s.pc t).excl i ≤ ∑ t, (s.pc t).excl i :=
    Finset.single_le_sum (fun t _ => Pc.excl_nonneg i (s.pc t)) (Finset.mem_univ t)
  refine ⟨inTable_pos (show 0 < inTable cfg s i by omega), by omega, count_eq_zero.1 (by omega), fun t' hne => ?_⟩
  have htwo := add_le_sum_of_nonneg (Finset.mem_univ t) (Finset.mem_univ t') hne.symm
    (f := fun t => (s.pc t).excl i) fun t => Pc.excl_nonneg i (s.pc t)
  have := Pc.excl_nonneg i (s.pc t')
  omega

theorem Inv.excl_of_not_lt (hI : Inv cfg s l) (hi : ¬i < s.size cfg) (t : T) : (s.pc t).excl i = 0 := by
  have hown := hI.own i
  have hle : (s.pc t).excl i ≤ ∑ t, (s.pc t).excl i :=
    Finset.single_le_sum (fun t _ => Pc.excl_nonneg i (s.pc t)) (Finset.mem_univ t)
  have hin : inTable cfg s i = 0 := if_neg fun h => hi h.2
  have hlive := liveAt_nonneg cfg s i
  have hnn := Pc.excl_nonneg i (s.pc t)
  omega

theorem Inv.rc_of_excl (hI : Inv cfg s l) (ht : (s.pc t).excl i = 1) : (s.slot cfg i).genref.rc = 0 := by
  obtain ⟨⟨-, hi⟩, hlive, -⟩ := hI.of_excl ht
  rw [liveAt, if_pos hi, Genref.live] at hlive
  split at hlive
  · cases hlive
  · omega

/-! ## One thread moves -/

variable [DecidableEq T]

section

variable (hI : Inv cfg s l)
include hI

theorem Inv.advance {l' : List ℕ}
    (hpc : u.pc = update s.pc t c) (hsegs : u.segs = s.segs) (hnsegs : u.nsegs = s.nsegs)
    (hfree : FreeList cfg u l')
    (hown : ∀ j, c.excl j + l'.count j + liveAt cfg u j = (s.pc t).excl j + l.count j + liveAt cfg s j)
    (hlive : u.live - ∑ j ∈ Finset.range (s.size cfg), (u.slot cfg j).genref.live - c.owed =
      s.live - ∑ j ∈ Finset.range (s.size cfg), (s.slot cfg j).genref.live - (s.pc t).owed)
    (hptr : ∀ j, (∀ t', t' ≠ t → (s.pc t').excl j = 0) ∨ (u.slot cfg j).ptr = (s.slot cfg j).ptr)
    (hok : PcOk cfg u c) (hslot : ∀ j < s.size cfg, SlotOk (u.slot cfg j)) : Inv cfg u l' := by
  have hsize : u.size cfg = s.size cfg := by rw [State.size, State.size, hnsegs]
  refine ⟨hfree, fun j => ?_, ?_, fun t' => ?_, ?_, ?_, ?_⟩
  · have hold := hI.own j
    have hin : inTable cfg u j = inTable cfg s j := by rw [inTable, inTable, hsize]
    have := hown j
    rw [hpc, sum_comp_update (Finset.mem_univ t) (Pc.excl j), hin]
    omega
  · have hold := hI.live
    rw [hpc, sum_comp_update (Finset.mem_univ t) Pc.owed, hsize]
    omega
  · rw [hpc]
    by_cases htt : t' = t
    · subst htt
      rw [update_self]
      exact hok
    · rw [update_of_ne htt]
      refine (hI.pcOk t').congr hsize.ge fun j hj => (hptr j).resolve_left fun hno => ?_
      rw [hno t' htt] at hj
      cases hj
  · rw [hsize]
    exact hslot
  · intro m hm n hn h
    rw [hnsegs] at hm hn
    rw [hsegs] at h
    exact hI.separate m hm n hn h
  · rw [hnsegs]
    exact hI.nsegs_le

theorem Inv.move {v : ℤ} (hexcl : ∀ j, c.excl j = (s.pc t).excl j)
    (hlive : v - c.owed = s.live - (s.pc t).owed) (hok : PcOk cfg s c) :
    Inv cfg ({ s with live := v }.goto t c) l := by
  refine hI.advance (t := t) (c := c) rfl rfl rfl (hI.free.congr rfl fun _ _ => rfl) (fun j => ?_) ?_
    (fun _ => .inr rfl) (hok.congr le_rfl fun _ _ => rfl) hI.slotOk
  · rw [hexcl]
    rfl
  · show v - ∑ j ∈ Finset.range (s.size cfg), (s.slot cfg j).genref.live - _ = _
    omega

theorem Inv.goto (hexcl : ∀ j, c.excl j = (s.pc t).excl j)
    (howed : c.owed = (s.pc t).owed) (hok : PcOk cfg s c) : Inv cfg (s.goto t c) l :=
  hI.move (v := s.live) hexcl (by rw [howed]) hok

theorem Inv.setSlot (hi : i < s.size cfg)
    (hnext : x.nextFree = (s.slot cfg i).nextFree) (hexcl : ∀ j, j ≠ i → c.excl j = (s.pc t).excl j)
    (hown : c.excl i + x.genref.live = (s.pc t).excl i + (s.slot cfg i).genref.live)
    (howed : x.genref.live + c.owed = (s.slot cfg i).genref.live + (s.pc t).owed)
    (hptr : (s.pc t).excl i = 1 ∨ x.ptr = (s.slot cfg i).ptr) (hok : PcOk cfg (s.setSlot cfg i x) c)
    (hslot : SlotOk x) : Inv cfg ((s.setSlot cfg i x).goto t c) l := by
  have hview : ∀ j < s.size cfg, (s.setSlot cfg i x).slot cfg j = update (s.slot cfg) i x j :=
    fun j hj => slot_setSlot hI.separate hi hj
  refine hI.advance (t := t) (c := c) rfl rfl rfl (hI.free.congr rfl fun j hj => ?_) (fun j => ?_) ?_ (fun j => ?_)
    (hok.congr le_rfl fun _ _ => rfl) fun j hj => ?_
  · show ((s.setSlot cfg i x).slot cfg j).nextFree = _
    rw [hview j (hI.of_mem hj).1.2]
    by_cases hj : j = i
    · subst hj
      rw [update_self, hnext]
    · rw [update_of_ne hj]
  · show c.excl j + l.count j + liveAt cfg (s.setSlot cfg i x) j = _
    by_cases hji : j = i
    · subst hji
      rw [liveAt, liveAt, if_pos hi, if_pos (show j < (s.setSlot cfg j x).size cfg from hi), slot_setSlot_self]
      omega
    · rw [hexcl j hji, liveAt, liveAt]
      show _ + (if j < s.size cfg then _ else _) = _
      by_cases hj : j < s.size cfg
      · rw [if_pos hj, if_pos hj, hview j hj, update_of_ne hji]
      · rw [if_neg hj, if_neg hj]
  · show s.live - ∑ j ∈ Finset.range (s.size cfg), ((s.setSlot cfg i x).slot cfg j).genref.live - _ = _
    rw [Finset.sum_congr rfl fun j hj => by rw [hview j (Finset.mem_range.1 hj)],
      sum_comp_update (Finset.mem_range.2 hi) (fun x : Slot α φ => x.genref.live)]
    omega
  · by_cases hji : j = i
    · subst hji
      rcases hptr with hex | hp
      · exact .inl (hI.of_excl hex).2.2.2
      · right
        show ((s.setSlot cfg j x).slot cfg j).ptr = _
        rw [slot_setSlot_self, hp]
    · by_cases hj : j < s.size cfg
      · right
        show ((s.setSlot cfg i x).slot cfg j).ptr = _
        rw [slot_setSlot_of_ne hI.separate hi hj hji]
      · left
        intro t' _
        exact hI.excl_of_not_lt hj t'
  · show SlotOk ((s.setSlot cfg i x).slot cfg j)
    rw [hview j hj]
    by_cases hji : j = i
    · subst hji
      rw [update_self]
      exact hslot
    · rw [update_of_ne hji]
      exact hI.slotOk j hj

end

/-! ## The freelist changes -/

theorem Inv.push (hI : Inv cfg s l) {h : Handle} (hpc : s.pc t = .recPush h) :
    Inv cfg ((s.pushFree cfg h.idx).goto t .idle) (h.idx :: l) := by
  have hex : (s.pc t).excl h.idx = 1 := by rw [hpc]; exact if_pos rfl
  obtain ⟨⟨hne, hi⟩, -, hmem, -⟩ := hI.of_excl hex
  have hk := pushFree_kept hI.separate hi
  have hgenref : ∀ j < s.size cfg, ((s.pushFree cfg h.idx).slot cfg j).genref = (s.slot cfg j).genref := by
    intro j hj
    obtain ⟨n, hn⟩ := hk.slot j hj
    rw [hn]
  refine hI.advance (t := t) (c := .idle) rfl rfl rfl
    (hI.free.push hI.separate (fun j hj => (hI.of_mem hj).1.2) hi hne hmem) (fun j => ?_) ?_ (fun j => ?_) trivial
    fun j hj => ?_
  · have hlive : liveAt cfg ((s.pushFree cfg h.idx).goto t .idle) j = liveAt cfg s j := by
      show (if j < s.size cfg then ((s.pushFree cfg h.idx).slot cfg j).genref.live else 0) = _
      rw [liveAt]
      split
      next hj => rw [hgenref j hj]
      next => rfl
    rw [hlive, hpc, count_cons]
    show (0 : ℤ) + ((l.count j + if (h.idx == j) = true then 1 else 0 : ℕ) : ℤ) + _ =
      (if h.idx = j then 1 else 0) + _ + _
    by_cases hj : h.idx = j
    · simp only [hj, beq_self_eq_true, if_true]
      omega
    · simp only [beq_iff_eq, hj, if_false]
      omega
  · show s.live - ∑ j ∈ Finset.range (s.size cfg), ((s.pushFree cfg h.idx).slot cfg j).genref.live - _ = _
    rw [Finset.sum_congr rfl fun j hj => by rw [hgenref j (Finset.mem_range.1 hj)], hpc]
    rfl
  · by_cases hj : j < s.size cfg
    · obtain ⟨n, hn⟩ := hk.slot j hj
      right
      show ((s.pushFree cfg h.idx).slot cfg j).ptr = _
      rw [hn]
    · exact .inl fun t' _ => hI.excl_of_not_lt hj t'
  · obtain ⟨n, hn⟩ := hk.slot j hj
    show SlotOk ((s.pushFree cfg h.idx).slot cfg j)
    rw [hn]
    exact ⟨(hI.slotOk j hj).gen_lt, (hI.slotOk j hj).rc_lt, (hI.slotOk j hj).ptr⟩

theorem Inv.take (hI : Inv cfg s l) {p : α} {fn : Option φ} (hpc : s.pc t = .idle) (hne : s.freeHead ≠ slotNone) :
    ∃ rest, Inv cfg ({ s with freeHead := (s.slot cfg s.freeHead).nextFree }.goto t (.regGot s.freeHead p fn))
      rest := by
  obtain ⟨rest, rfl, hrest⟩ := hI.free.pop hne
  refine ⟨rest, hI.advance (t := t) (c := .regGot s.freeHead p fn) rfl rfl rfl
    (hrest.congr rfl fun _ _ => rfl) (fun j => ?_) ?_ (fun _ => .inr rfl) trivial hI.slotOk⟩
  · rw [hpc, count_cons]
    show (if s.freeHead = j then 1 else 0) + (rest.count j : ℤ) + liveAt cfg s j = 0 + (((rest.count j : ℕ) +
      if (s.freeHead == j) = true then 1 else 0 : ℕ) : ℤ) + _
    by_cases hj : s.freeHead = j
    · simp only [hj, beq_self_eq_true, if_true]
      omega
    · simp only [beq_iff_eq, hj, if_false]
      omega
  · rw [hpc]
    rfl

omit [DecidableEq T] in
theorem Inv.grow (hI : Inv cfg s l) (hf : ∀ seg < s.nsegs, s.segs seg ≠ b) (hn : s.nsegs < cfg.maxSegs) :
    ∃ l', Inv cfg ((s.freshSlots cfg).foldl (State.pushFree cfg) (s.addSegment b)) l' ∧ l' ≠ [] ∧
      Grown cfg s ((s.freshSlots cfg).foldl (State.pushFree cfg) (s.addSegment b)) := by
  have hsep := addSegment_separate hI.separate hf
  have hin : ∀ j ∈ l, j < s.size cfg := fun j hj => (hI.of_mem hj).1.2
  have hold : FreeList cfg (s.addSegment b) l :=
    hI.free.congr rfl fun j hj => by rw [(addSegment_slot hf (hin j hj)).2]
  obtain ⟨hfree, hk⟩ := foldl_pushFree hsep (k := s.freshSlots cfg) (l := l) (fun j hj => by
      rw [addSegment_size]
      exact Nat.lt_add_right _ (hin j hj))
    (fun j hj => by
      rw [addSegment_size]
      exact ⟨(mem_freshSlots.1 hj).2.2, (mem_freshSlots.1 hj).1⟩)
    (nodup_range' ..) (fun j hj hjl => absurd (hin j hjl) (not_lt.2 (mem_freshSlots.1 hj).2.1)) hold
  have hg := hk.grown hf
  refine ⟨_, ⟨hfree, fun j => ?_, ?_, fun t => ?_, fun j hj => ?_, hk.separate hsep, ?_⟩, ?_, hg⟩
  · have hown := hI.own j
    rw [hg.pc, count_append, hg.inTable_eq, hg.liveAt_eq]
    push_cast
    omega
  · rw [hg.live, hI.live, hg.pc, hg.sum_live]
  · rw [hg.pc]
    refine (hI.pcOk t).congr (by rw [hg.size]; exact Nat.le_add_right ..) fun j hj => ?_
    obtain ⟨n, hn⟩ := hg.slot j (hI.of_excl hj).1.2
    rw [hn]
  · by_cases hj' : j < s.size cfg
    · obtain ⟨n, hn⟩ := hg.slot j hj'
      rw [hn]
      exact ⟨(hI.slotOk j hj').gen_lt, (hI.slotOk j hj').rc_lt, (hI.slotOk j hj').ptr⟩
    · obtain ⟨n, hn⟩ := hg.new j (not_lt.1 hj') hj
      rw [hn]
      exact ⟨Nat.two_pow_pos 32, Nat.two_pow_pos 32, nofun⟩
  · rw [hk.nsegs]
    exact hn
  · rw [ne_eq, append_eq_nil_iff, reverse_eq_nil_iff]
    exact fun h => freshSlots_ne_nil h.1

end Runloom.HandleTable.Slots
