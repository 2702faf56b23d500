import Mathlib.Algebra.BigOperators.Ring.Finset
import Runloom.HandleTable.Safety
import Runloom.HandleTable.SlotInvariant

/-!
# The partition of the slots

With no thread inside an operation, every slot but the reserved one is on the freelist or live, and not both.  The
generation of a slot may wrap as often as it likes: the freelist and the counter do not depend on it.  The reference
count may not, since a slot whose count has wrapped to zero is neither live nor ever reclaimed.
-/

namespace Runloom.HandleTable.Slots

open Transition

variable {α φ T : Type*} {cfg : Config} {s u : State α φ T} {i : ℕ} {l : List ℕ} [Fintype T]

variable {gr : Genref}

theorem live_eq_zero (h : gr.rc = 0) : gr.live = 0 := by
  rw [Genref.live, h]
  rfl

theorem live_eq_one (h : gr.rc ≠ 0) : gr.live = 1 := if_pos (Nat.pos_of_ne_zero h)

/-! ## The self check -/

omit [Fintype T] in
theorem mem_eq_slot (s : State α φ T) {seg : ℕ} (hi : i < segSlots cfg) :
    s.mem (s.segs seg) i = s.slot cfg (seg * segSlots cfg + i) := by
  have hdiv : (seg * segSlots cfg + i) / segSlots cfg = seg := by
    rw [Nat.mul_comm, Nat.mul_add_div (segSlots_pos cfg), Nat.div_eq_of_lt hi, Nat.add_zero]
  have hmod : (seg * segSlots cfg + i) % segSlots cfg = i := by
    rw [Nat.mul_comm, Nat.mul_add_mod, Nat.mod_eq_of_lt hi]
  rw [State.slot, State.addr, hdiv, hmod]

omit [Fintype T] in
theorem walk_eq (s : State α φ T) (p : Slot α φ → Bool) :
    walk cfg s p = ∑ i ∈ Finset.range (s.size cfg), if i ≠ 0 ∧ p (s.slot cfg i) then 1 else 0 := by
  have hseg : ∀ n, (∑ seg ∈ Finset.range n, ∑ i ∈ Finset.range (segSlots cfg),
      if seg = 0 ∧ i = 0 then 0 else if p (s.mem (s.segs seg) i) then 1 else 0) =
      ∑ i ∈ Finset.range (n * segSlots cfg), if i ≠ 0 ∧ p (s.slot cfg i) then 1 else 0 := by
    intro n
    induction n with
    | zero => rw [Nat.zero_mul, Finset.sum_range_zero, Finset.sum_range_zero]
    | succ n ih =>
      rw [Finset.sum_range_succ, ih, Nat.succ_mul, Finset.sum_range_add]
      congr 1
      refine Finset.sum_congr rfl fun i hi => ?_
      have hi := Finset.mem_range.1 hi
      have hzero : n * segSlots cfg + i = 0 ↔ n = 0 ∧ i = 0 := by
        rw [Nat.add_eq_zero_iff, Nat.mul_eq_zero]
        have := segSlots_pos cfg
        omega
      rw [mem_eq_slot s hi]
      by_cases h0 : n = 0 ∧ i = 0
      · rw [if_pos h0, if_neg fun h => h.1 (hzero.2 h0)]
      · simp only [ne_eq, hzero, h0, not_false_eq_true, true_and, if_false]
  exact hseg s.nsegs

/-! ## With no thread inside an operation -/

theorem Inv.mem_iff_of_idle (hI : Inv cfg s l) (hq : ∀ t, s.pc t = .idle) (h0 : i ≠ 0) (hi : i < s.size cfg) :
    i ∈ l ↔ (s.slot cfg i).genref.rc = 0 := by
  have hown := hI.own i
  have hsum : ∑ t, (s.pc t).excl i = 0 := Finset.sum_eq_zero fun t _ => by rw [hq t]; rfl
  rw [hsum, liveAt, if_pos hi, inTable, if_pos ⟨h0, hi⟩] at hown
  constructor
  · intro hmem
    by_contra hrc
    rw [live_eq_one hrc, (hI.of_mem hmem).2.2.2] at hown
    omega
  · intro hrc
    rw [live_eq_zero hrc] at hown
    exact List.count_pos_iff.1 (by omega)

def liveSlots (cfg : Config) (s : State α φ T) : Finset ℕ :=
  (Finset.range (s.size cfg)).filter fun i => 0 < (s.slot cfg i).genref.rc

section

variable (hI : Inv cfg s l)
include hI

theorem Inv.rc_zero (h : 0 < s.size cfg) : (s.slot cfg 0).genref.rc = 0 := by
  have hown := hI.own 0
  have hsum := Inv.sum_excl_nonneg (s := s) 0
  rw [liveAt, if_pos h, inTable, if_neg fun h => h.1 rfl] at hown
  by_contra hrc
  rw [live_eq_one hrc] at hown
  omega

theorem Inv.live_of_idle (hq : ∀ t, s.pc t = .idle) : s.live = (liveSlots cfg s).card := by
  have hsum : ∑ t, (s.pc t).owed = 0 := Finset.sum_eq_zero fun t _ => by rw [hq t]; rfl
  rw [hI.live, hsum, add_zero, liveSlots, Finset.natCast_card_filter]
  rfl

theorem Inv.walk_live : (walk cfg s fun x => 0 < x.genref.rc) = (liveSlots cfg s).card := by
  rw [walk_eq, liveSlots, Finset.card_filter]
  refine Finset.sum_congr rfl fun i hi => ?_
  by_cases h0 : i = 0
  · subst h0
    rw [if_neg fun h => h.1 rfl, if_neg]
    rw [hI.rc_zero (Finset.mem_range.1 hi)]
    exact Nat.lt_irrefl 0
  · simp only [ne_eq, h0, not_false_eq_true, true_and, decide_eq_true_eq]

theorem Inv.walk_dangling : (walk cfg s fun x => 0 < x.genref.rc ∧ x.ptr.isNone) = 0 := by
  rw [walk_eq]
  refine Finset.sum_eq_zero fun i hi => if_neg ?_
  rintro ⟨-, h⟩
  obtain ⟨hrc, hptr⟩ := of_decide_eq_true h
  exact (hI.slotOk i (Finset.mem_range.1 hi)).ptr hrc (Option.isNone_iff_eq_none.1 hptr)

theorem Inv.selfCheck_of_idle (hq : ∀ t, s.pc t = .idle) : selfCheck cfg s = 0 := by
  unfold selfCheck
  rw [hI.walk_live, hI.walk_dangling, hI.live_of_idle hq]
  simp

end

/-! ## Every step keeps the invariant -/

variable [DecidableEq T]

variable {t : T}

section

variable (hI : Inv cfg s l)
include hI

theorem Inv.setGenref {c : Pc α φ} (hi : i < s.size cfg) (hexcl : ∀ j, j ≠ i → c.excl j = (s.pc t).excl j)
    (hown : c.excl i + gr.live = (s.pc t).excl i + (s.slot cfg i).genref.live)
    (howed : gr.live + c.owed = (s.slot cfg i).genref.live + (s.pc t).owed)
    (hgen : gr.gen < 2 ^ 32) (hrc : gr.rc < 2 ^ 32) (hptr : 0 < gr.rc → (s.slot cfg i).ptr ≠ none)
    (hok : PcOk cfg (s.setGenref cfg i gr) c) : Inv cfg ((s.setGenref cfg i gr).goto t c) l :=
  hI.setSlot hi rfl hexcl hown howed (.inr rfl) hok ⟨hgen, hrc, hptr⟩

theorem Inv.pinTest {h : Handle} (hpc : s.pc t = .pinTest h gr)
    (hC : gr.rc + 1 < 2 ^ 32 ∨ (s.slot cfg h.idx).genref ≠ gr) : Inv cfg (s.pinTest cfg t h gr) l := by
  have hi : h.idx < s.size cfg := by
    have := hI.pcOk t
    rw [hpc] at this
    exact this
  unfold State.pinTest
  split
  next => exact hI.goto (fun j => by rw [hpc]; rfl) (by rw [hpc]; rfl) trivial
  next hstale =>
    push Not at hstale
    split
    next heq =>
      have hlt := hC.resolve_right fun hne => hne heq
      have hnew : (pack h.gen (gr.rc + 1)).rc ≠ 0 := by
        show (gr.rc + 1) % 2 ^ 32 ≠ 0
        rw [Nat.mod_eq_of_lt hlt]
        exact Nat.succ_ne_zero _
      have hlive : (pack h.gen (gr.rc + 1)).live = (s.slot cfg h.idx).genref.live := by
        rw [live_eq_one hnew, heq, live_eq_one hstale.2]
      refine hI.setGenref hi (fun j _ => by rw [hpc]; rfl) ?_ ?_ (Nat.mod_lt _ (Nat.two_pow_pos 32))
        (Nat.mod_lt _ (Nat.two_pow_pos 32)) (fun _ => ?_) trivial
      · rw [hpc, hlive]
        rfl
      · rw [hpc, hlive]
        rfl
      · exact (hI.slotOk h.idx hi).ptr (by rw [heq]; exact Nat.pos_of_ne_zero hstale.2)
    next => exact hI.goto (fun j => by rw [hpc]; rfl) (by rw [hpc]; rfl) hi

theorem Inv.derefTest {h : Handle} (hpc : s.pc t = .derefTest h gr) : Inv cfg (s.derefTest cfg t h gr) l := by
  have hi : h.idx < s.size cfg := by
    have := hI.pcOk t
    rw [hpc] at this
    exact this
  unfold State.derefTest
  split
  next => exact hI.goto (fun j => by rw [hpc]; rfl) (by rw [hpc]; rfl) trivial
  next hstale =>
    push Not at hstale
    split
    next heq =>
      have hlt : gr.rc < 2 ^ 32 := heq ▸ (hI.slotOk h.idx hi).rc_lt
      have hold : (s.slot cfg h.idx).genref.live = 1 := by
        rw [heq]
        exact live_eq_one hstale.2
      have hrc : (pack h.gen (gr.rc - 1)).rc = gr.rc - 1 := Nat.mod_eq_of_lt (by omega)
      have hptr : (s.slot cfg h.idx).ptr ≠ none :=
        (hI.slotOk h.idx hi).ptr (by rw [heq]; exact Nat.pos_of_ne_zero hstale.2)
      split
      next hz =>
        have hlive : (pack h.gen (gr.rc - 1)).live = 0 := live_eq_zero (hrc.trans hz)
        refine hI.setGenref hi (fun j hj => ?_) ?_ ?_ (Nat.mod_lt _ (Nat.two_pow_pos 32))
          (Nat.mod_lt _ (Nat.two_pow_pos 32)) (fun _ => hptr) trivial
        · rw [hpc]
          exact if_neg (Ne.symm hj)
        · rw [hpc, hlive, hold]
          exact congrArg (· + (0 : ℤ)) (if_pos rfl)
        · rw [hpc, hlive, hold]
          rfl
      next hnz =>
        have hlive : (pack h.gen (gr.rc - 1)).live = 1 := live_eq_one (by rw [hrc]; exact hnz)
        refine hI.setGenref hi (fun j _ => by rw [hpc]; rfl) ?_ ?_ (Nat.mod_lt _ (Nat.two_pow_pos 32))
          (Nat.mod_lt _ (Nat.two_pow_pos 32)) (fun _ => hptr) trivial
        · rw [hpc, hlive, hold]
          rfl
        · rw [hpc, hlive, hold]
          rfl
    next => exact hI.goto (fun j => by rw [hpc]; rfl) (by rw [hpc]; rfl) hi

theorem Inv.write {c : Pc α φ} {x : Slot α φ} (hex : (s.pc t).excl i = 1)
    (hnext : x.nextFree = (s.slot cfg i).nextFree) (hgen : x.genref.gen < 2 ^ 32) (hrc : x.genref.rc = 0)
    (hexcl : ∀ j, c.excl j = (s.pc t).excl j) (howed : c.owed = (s.pc t).owed)
    (hok : PcOk cfg (s.setSlot cfg i x) c) : Inv cfg ((s.setSlot cfg i x).goto t c) l := by
  have hlive : x.genref.live = (s.slot cfg i).genref.live := by
    rw [live_eq_zero hrc, live_eq_zero (hI.rc_of_excl hex)]
  refine hI.setSlot (hI.of_excl hex).1.2 hnext (fun j _ => hexcl j) (by rw [hexcl, hlive]) (by rw [howed, hlive])
    (.inl hex) hok ⟨hgen, ?_, fun hpos => ?_⟩
  · rw [hrc]
    exact Nat.two_pow_pos 32
  · rw [hrc] at hpos
    exact absurd hpos (Nat.lt_irrefl 0)

theorem Inv.next (hC : RcInRange cfg s (.step t)) (h : s.next cfg t = some u) : ∃ l', Inv cfg u l' := by
  have hok := hI.pcOk t
  unfold State.next at h
  cases hpc : s.pc t with
  | idle =>
    rw [hpc] at h
    cases h
  | regGot idx p fn =>
    rw [hpc] at h
    cases h
    have hin := (hI.of_excl (t := t) (i := idx) (by rw [hpc]; exact if_pos rfl)).1.2
    exact ⟨l, hI.goto (fun j => by rw [hpc]; rfl) (by rw [hpc]; rfl) (hI.slotOk idx hin).gen_lt⟩
  | regGen idx gen p fn =>
    rw [hpc] at h hok
    cases h
    have hex : (s.pc t).excl idx = 1 := by rw [hpc]; exact if_pos rfl
    refine ⟨l, hI.write hex rfl (hI.slotOk idx (hI.of_excl hex).1.2).gen_lt (hI.rc_of_excl hex)
      (fun j => by rw [hpc]; rfl) (by rw [hpc]; rfl) ⟨hok, ?_⟩⟩
    rw [slot_setSlot_self]
    exact nofun
  | regSet idx gen =>
    rw [hpc] at h hok
    cases h
    have hex : (s.pc t).excl idx = 1 := by rw [hpc]; exact if_pos rfl
    obtain ⟨⟨hne, hin⟩, -⟩ := hI.of_excl hex
    have hold := live_eq_zero (hI.rc_of_excl hex)
    refine ⟨l, hI.setGenref hin (fun j hj => ?_) ?_ ?_ (Nat.mod_lt _ (Nat.two_pow_pos 32))
      (Nat.mod_lt _ (Nat.two_pow_pos 32)) (fun _ => hok.2) ⟨hok.1, hne, hin⟩⟩
    · rw [hpc]
      exact (if_neg (Ne.symm hj)).symm
    · rw [hex, hold]
      rfl
    · rw [hpc, hold]
      rfl
  | regLive idx gen =>
    rw [hpc] at h hok
    cases h
    refine ⟨l, hI.move (fun j => by rw [hpc]; rfl) ?_ hok⟩
    rw [hpc]
    show s.live + 1 - 0 = s.live - -1
    omega
  | regDone h' | regFail | pinRead h' | pinDone r | recFree h' p fn =>
    rw [hpc] at h
    cases h
    exact ⟨l, hI.goto (fun j => by rw [hpc]; rfl) (by rw [hpc]; rfl) trivial⟩
  | pinLoad h' | derefLoad h' =>
    rw [hpc] at h
    simp only at h
    split at h
    · cases h
      exact ⟨l, hI.goto (fun j => by rw [hpc]; rfl) (by rw [hpc]; rfl) trivial⟩
    · split at h <;> cases h
      next => exact ⟨l, hI.goto (fun j => by rw [hpc]; rfl) (by rw [hpc]; rfl) trivial⟩
      next x hx => exact ⟨l, hI.goto (fun j => by rw [hpc]; rfl) (by rw [hpc]; rfl) (lookup_eq_some hx)⟩
  | pinTest h' gr =>
    rw [hpc] at h
    cases h
    refine ⟨l, hI.pinTest hpc ?_⟩
    rw [RcInRange, hpc] at hC
    exact hC
  | derefTest h' gr =>
    rw [hpc] at h
    cases h
    exact ⟨l, hI.derefTest hpc⟩
  | recRead h' =>
    rw [hpc] at h
    cases h
    have hex : (s.pc t).excl h'.idx = 1 := by rw [hpc]; exact if_pos rfl
    exact ⟨l, hI.write hex rfl (hI.slotOk h'.idx (hI.of_excl hex).1.2).gen_lt (hI.rc_of_excl hex)
      (fun j => by rw [hpc]; rfl) (by rw [hpc]; rfl) trivial⟩
  | recStore h' p fn =>
    rw [hpc] at h
    cases h
    have hex : (s.pc t).excl h'.idx = 1 := by rw [hpc]; exact if_pos rfl
    exact ⟨l, hI.write hex rfl (Nat.mod_lt _ (Nat.two_pow_pos 32)) rfl (fun j => by rw [hpc]; rfl)
      (by rw [hpc]; rfl) trivial⟩
  | recLive h' =>
    rw [hpc] at h
    cases h
    refine ⟨l, hI.move (fun j => by rw [hpc]; rfl) ?_ trivial⟩
    rw [hpc]
    show s.live - 1 - 0 = s.live - 1
    omega
  | recPush h' =>
    rw [hpc] at h
    cases h
    exact ⟨_, hI.push hpc⟩

omit [DecidableEq T] in
theorem Inv.lockReady : Inv cfg { s with lockReady := true } l :=
  ⟨hI.free, hI.own, hI.live, fun t => (hI.pcOk t).congr le_rfl fun _ _ => rfl, hI.slotOk, hI.separate, hI.nsegs_le⟩

theorem Inv.takeSlot {p : Option α} {fn : Option φ} {calloc : Option ℕ}
    (hpc : s.pc t = .idle) (hf : Fresh s calloc) : ∃ l', Inv cfg (s.takeSlot cfg t p fn calloc) l' := by
  unfold State.takeSlot
  split
  next => exact ⟨l, hI.goto (fun j => by rw [hpc]; rfl) (by rw [hpc]; rfl) trivial⟩
  next p =>
    have hI' := hI.lockReady
    simp only
    split
    next => exact ⟨l, hI'.goto (fun j => by rw [hpc]; rfl) (by rw [hpc]; rfl) trivial⟩
    next u hu =>
      split at hu
      next =>
        unfold State.grow at hu
        split at hu
        next => cases hu
        next hn =>
          obtain ⟨b, rfl, rfl⟩ := Option.map_eq_some_iff.1 hu
          obtain ⟨l', hgrow, hne, hg⟩ := hI'.grow (b := b) (fun seg hseg => hf b rfl seg hseg) (not_le.1 hn)
          refine hgrow.take (by rw [hg.pc]; exact hpc) fun h0 => hne ?_
          have := hgrow.free.1
          rw [h0] at this
          exact List.head?_eq_none_iff.1 this.symm
      next hhead =>
        cases hu
        exact hI'.take hpc hhead

theorem Inv.step {a : Action α φ T} (hC : RcInRange cfg s a)
    (h : Slots.step cfg s a = some u) : ∃ l', Inv cfg u l' := by
  have hcall : ∀ {t : T} {c : Pc α φ}, s.pc t = .idle → (∀ j, c.excl j = 0) → c.owed = 0 → PcOk cfg s c →
      ∃ l', Inv cfg (s.goto t c) l' :=
    fun hpc hexcl howed hok =>
      ⟨l, hI.goto (fun j => by rw [hpc, hexcl]; rfl) (by rw [hpc, howed]; rfl) hok⟩
  cases a with
  | register t p fn calloc =>
    simp only [Slots.step] at h
    split at h
    next hpc =>
      split at h <;> cases h
      next hf => exact hI.takeSlot hpc hf
    next => cases h
  | pin t h' | unpin t h' | release t h' =>
    simp only [Slots.step] at h
    split at h <;> cases h
    next hpc => exact hcall hpc (fun _ => rfl) rfl trivial
  | step t => exact hI.next hC h

end

theorem exists_inv_of_reachable (h : (slotTable α φ T cfg).ReachableWith (RcInRange cfg) s) : ∃ l, Inv cfg s l :=
  h.invariant (P := fun s => ∃ l, Inv cfg s l) (fun _ hs => ⟨[], Inv.init hs⟩)
    fun _ _ _ ⟨_, hI⟩ hC ha => hI.step hC ha

/-! ## The partition -/

theorem takeSlot_kept {p : Option α} {fn : Option φ} {calloc : Option ℕ} (hI : Inv cfg s l)
    (hf : Fresh s calloc) (hi : i < s.size cfg) :
    (s.takeSlot cfg t p fn calloc).addr cfg i = s.addr cfg i ∧
      ∃ n, (s.takeSlot cfg t p fn calloc).slot cfg i = { s.slot cfg i with nextFree := n } := by
  unfold State.takeSlot
  split
  next => exact ⟨rfl, _, rfl⟩
  next p =>
    simp only
    split
    next => exact ⟨rfl, _, rfl⟩
    next u hu =>
      split at hu
      · unfold State.grow at hu
        split at hu
        next => cases hu
        next hn =>
          obtain ⟨b, rfl, rfl⟩ := Option.map_eq_some_iff.1 hu
          obtain ⟨-, -, -, hg⟩ := hI.lockReady.grow (b := b) (fun seg hseg => hf b rfl seg hseg) (not_le.1 hn)
          exact ⟨hg.addr i hi, hg.slot i hi⟩
      · cases hu
        exact ⟨rfl, _, rfl⟩

/-- As long as no slot has `2 ^ 32` references, the freelist and the live slots make up the table, and a
registration moves no slot. -/
theorem slots_partitioned (h : (slotTable α φ T cfg).ReachableWith (RcInRange cfg) s) : ((∀ t, s.pc t = .idle) →
      (∃ l, FreeList cfg s l ∧ l.Nodup ∧ (∀ i ∈ l, i ≠ 0 ∧ i < s.size cfg) ∧
        ∀ i, i ≠ 0 → i < s.size cfg → (i ∈ l ↔ i ∉ liveSlots cfg s)) ∧
      s.live = (liveSlots cfg s).card ∧ selfCheck cfg s = 0) ∧
    (∀ t p fn calloc u, (slotTable α φ T cfg).step s (.register t p fn calloc) = some u →
      ∀ i < s.size cfg, u.addr cfg i = s.addr cfg i ∧ ∃ n, u.slot cfg i = { s.slot cfg i with nextFree := n }) ∧
    ∀ t hd, s.pc t = .regDone hd → hd ≠ handleNull ∧ hd.gen < 2 ^ 32 ∧ hd.idx < 2 ^ 32 := by
  obtain ⟨l, hI⟩ := exists_inv_of_reachable h
  refine ⟨fun hq => ⟨⟨l, hI.free, hI.nodup, fun i hi => (hI.of_mem hi).1, fun i h0 hi => ?_⟩, hI.live_of_idle hq,
    hI.selfCheck_of_idle hq⟩, fun t p fn calloc u hu i hi => ?_, fun t hd hpc => ?_⟩
  · rw [hI.mem_iff_of_idle hq h0 hi, liveSlots, Finset.mem_filter, Finset.mem_range, not_and, Nat.not_lt,
      Nat.le_zero]
    exact ⟨fun hrc _ => hrc, fun hrc => hrc hi⟩
  · simp only [slotTable, Slots.step] at hu
    split at hu
    · split at hu <;> cases hu
      next hf => exact takeSlot_kept hI hf hi
    · cases hu
  · have hok := hI.pcOk t
    rw [hpc] at hok
    obtain ⟨hgen, hne, hlt⟩ := hok
    have hsize : s.size cfg ≤ 2 ^ 32 := (Nat.mul_le_mul_right _ hI.nsegs_le).trans cfg.index_fits
    refine ⟨?_, hgen, hlt.trans_le hsize⟩
    rintro rfl
    exact hne rfl

/-! ## A table with sixteen slots in a segment -/

def sixteen : Config := smallSegs

def unused (T : Type) : State ℕ ℕ T := ⟨fun _ _ => Slot.zero ℕ ℕ, fun _ => 0, 0, slotNone, 0, false, fun _ => .idle⟩

theorem unused_init (T : Type) [DecidableEq T] : (slotTable ℕ ℕ T sixteen).init (unused T) :=
  ⟨rfl, rfl, rfl, fun _ => rfl⟩

/-- A second thread releases the same handle during the last reclaim, and once more after it. -/
theorem slots_partitioned_doubleRelease :
    ∃ s, (slotTable ℕ ℕ (Fin 2) sixteen).ReachableWith (RcInRange sixteen) s ∧ s.live = 0 ∧ s.freeHead = 15 ∧
      (∃ l, FreeList sixteen s l ∧ l.Nodup ∧ ∀ i, i ≠ 0 → i < s.size sixteen → (i ∈ l ↔ i ∉ liveSlots sixteen s)) ∧
      selfCheck sixteen s = 0 := by
  obtain ⟨s, hr, hlive, hhead, hq⟩ := (slotTable ℕ ℕ (Fin 2) sixteen).reachesWith (RcInRange sixteen)
    (fun s => s.live = 0 ∧ s.freeHead = 15 ∧ ∀ t, s.pc t = .idle)
    [.register 0 (some 7) none (some 0), .step 0, .step 0, .step 0, .step 0, .step 0,
      .release 0 ⟨0, 15⟩, .release 1 ⟨0, 15⟩, .step 0, .step 1, .step 0, .step 0, .step 1, .step 1, .step 0, .step 0,
      .step 0, .step 0, .release 1 ⟨0, 15⟩, .step 1, .step 1]
    (s := unused (Fin 2)) (unused_init _) (by decide +kernel)
  obtain ⟨⟨l, hl, hd, -, hmem⟩, -, hcheck⟩ := (slots_partitioned hr).1 hq
  exact ⟨s, hr, hlive, hhead, ⟨l, hl, hd, hmem⟩, hcheck⟩

theorem goto_self (s : State ℕ ℕ Unit) (pc : Pc ℕ ℕ) : (s.goto () pc).pc () = pc := by
  simp [State.goto]

/-- One registration, with the count `n` on its slot. -/
structure Pinned (n : ℕ) (s : State ℕ ℕ Unit) : Prop where
  reachable : (slotTable ℕ ℕ Unit sixteen).Reachable s
  pc : s.pc () = .idle
  nsegs : s.nsegs = 1
  live : s.live = 1
  lockReady : s.lockReady = true
  slot : (s.slot sixteen 15).genref = ⟨0, n⟩
  rest : ∀ i < 15, (s.slot sixteen i).genref.rc = 0

theorem exists_pinned_one : ∃ s, Pinned 1 s := by
  obtain ⟨s, hr, hpc, hnsegs, hlive, hready, hslot, hrest⟩ := (slotTable ℕ ℕ Unit sixteen).reaches
    (fun s => s.pc () = .idle ∧ s.nsegs = 1 ∧ s.live = 1 ∧ s.lockReady = true ∧
      (s.slot sixteen 15).genref = ⟨0, 1⟩ ∧ ∀ i ∈ List.range 15, (s.slot sixteen i).genref.rc = 0)
    [.register () (some 7) none (some 0), .step (), .step (), .step (), .step (), .step ()]
    (s := unused Unit) (unused_init _) (by decide +kernel)
  exact ⟨s, hr, hpc, hnsegs, hlive, hready, hslot, fun i hi => hrest i (List.mem_range.2 hi)⟩

theorem Pinned.pin {n : ℕ} {s : State ℕ ℕ Unit} (h : Pinned n s) (hn : n ≠ 0) :
    ∃ u, Pinned ((n + 1) % 2 ^ 32) u := by
  have hlookup : s.lookup sixteen 15 = some (s.slot sixteen 15) := by
    rw [State.lookup, h.nsegs]
    rfl
  set s1 := s.goto () (.pinLoad ⟨0, 15⟩) with hs1
  set s2 := s1.goto () (.pinTest ⟨0, 15⟩ ⟨0, n⟩) with hs2
  set s3 := (s2.setGenref sixteen 15 (pack 0 (n + 1))).goto () (.pinRead ⟨0, 15⟩) with hs3
  set s4 := s3.goto () (.pinDone (s3.slot sixteen 15).ptr) with hs4
  have r1 : (slotTable ℕ ℕ Unit sixteen).Reachable s1 := by
    apply h.reachable.step (a := .pin () ⟨0, 15⟩) trivial
    simp only [slotTable, Slots.step, h.pc, hs1]
  have r2 : (slotTable ℕ ℕ Unit sixteen).Reachable s2 := by
    apply r1.step (a := .step ()) trivial
    have hpc : s1.pc () = .pinLoad ⟨0, 15⟩ := goto_self ..
    have hl : s1.lookup sixteen 15 = some (s.slot sixteen 15) := hlookup
    simp only [slotTable, Slots.step, State.next, hpc, hl, h.slot]
    rfl
  have r3 : (slotTable ℕ ℕ Unit sixteen).Reachable s3 := by
    apply r2.step (a := .step ()) trivial
    have hpc : s2.pc () = .pinTest ⟨0, 15⟩ ⟨0, n⟩ := goto_self ..
    have hslot : (s2.slot sixteen 15).genref = ⟨0, n⟩ := h.slot
    simp only [slotTable, Slots.step, State.next, hpc, State.pinTest, hslot]
    rw [if_neg (by simp [hn]), if_pos trivial]
  have r4 : (slotTable ℕ ℕ Unit sixteen).Reachable s4 := by
    apply r3.step (a := .step ()) trivial
    have hpc : s3.pc () = .pinRead ⟨0, 15⟩ := goto_self ..
    simp only [slotTable, Slots.step, State.next, hpc, hs4]
  refine ⟨s4.goto () .idle, ?_, goto_self .., h.nsegs, h.live, h.lockReady, ?_, fun i hi => ?_⟩
  · apply r4.step (a := .step ()) trivial
    have hpc : s4.pc () = .pinDone (s3.slot sixteen 15).ptr := goto_self ..
    simp only [slotTable, Slots.step, State.next, hpc]
  · show ((s2.setSlot sixteen 15 _).slot sixteen 15).genref = _
    rw [slot_setSlot_self]
    rfl
  · have hsep : Separate s2 := by
      intro m hm k hk _
      have hone : s2.nsegs = 1 := h.nsegs
      rw [hone] at hm hk
      omega
    have hsize : s2.size sixteen = 16 := by
      rw [State.size, show s2.nsegs = 1 from h.nsegs]
      rfl
    show ((s2.setSlot sixteen 15 _).slot sixteen i).genref.rc = 0
    rw [slot_setSlot_of_ne hsep (by rw [hsize]; decide) (by rw [hsize]; exact hi.trans (by decide)) hi.ne]
    exact h.rest i hi

theorem exists_pinned (n : ℕ) (hn : n + 1 < 2 ^ 32) : ∃ s, Pinned (n + 1) s := by
  induction n with
  | zero => exact exists_pinned_one
  | succ n ih =>
    obtain ⟨s, hs⟩ := ih (Nat.lt_of_succ_lt hn)
    obtain ⟨u, hu⟩ := hs.pin (Nat.succ_ne_zero n)
    rw [Nat.mod_eq_of_lt hn] at hu
    exact ⟨u, hu⟩

/-- `2 ^ 32 - 1` pins bring the count back to zero: the slot is counted and not live, and the self check says so. -/
theorem wrapped_count_fails_selfCheck :
    ∃ s, (slotTable ℕ ℕ Unit sixteen).Reachable s ∧ (∀ t, s.pc t = .idle) ∧ s.live = 1 ∧
      liveSlots sixteen s = ∅ ∧ selfCheck sixteen s = 1 := by
  obtain ⟨s, hs⟩ := exists_pinned (2 ^ 32 - 2) (by decide)
  obtain ⟨u, hu⟩ := hs.pin (Nat.succ_ne_zero _)
  have hrc : ∀ i < 16, (u.slot sixteen i).genref.rc = 0 := by
    intro i hi
    rcases Nat.lt_succ_iff_lt_or_eq.1 hi with hi | rfl
    · exact hu.rest i hi
    · rw [hu.slot]
      decide
  have hsize : u.size sixteen = 16 := by
    rw [State.size, hu.nsegs]
    rfl
  have hwalk : ∀ p : Slot ℕ ℕ → Bool, (∀ x, p x = true → 0 < x.genref.rc) → walk sixteen u p = 0 := by
    intro p hp
    rw [walk_eq, hsize]
    refine Finset.sum_eq_zero fun i hi => if_neg fun h => ?_
    have := hp _ h.2
    rw [hrc i (Finset.mem_range.1 hi)] at this
    exact Nat.lt_irrefl 0 this
  refine ⟨u, hu.reachable, fun _ => hu.pc, hu.live, ?_, ?_⟩
  · refine Finset.filter_eq_empty_iff.2 fun i hi => ?_
    rw [hsize] at hi
    rw [hrc i (Finset.mem_range.1 hi)]
    exact Nat.lt_irrefl 0
  · rw [selfCheck, if_pos hu.lockReady, hwalk _ fun x h => of_decide_eq_true h,
      hwalk _ fun x h => (of_decide_eq_true h).1, hu.live]
    rfl

end Runloom.HandleTable.Slots
