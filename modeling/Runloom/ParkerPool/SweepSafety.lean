import Runloom.ParkerPool.SweepModel
import Runloom.ParkerPool.Safety

/-!
# The cursor of the sweep

A saved cursor is looked at again only when the number of unlinks is the same, in 32 bits, as when it was saved.  With
fewer than `2 ^ 32` unlinks in between there was none, so that the cursor is still on the list.
-/

namespace Runloom.ParkerPool

open Transition Linked

/-- The unlinks of the run, those since the cursor was saved, and the parkers linked ever since. -/
structure Vigil where
  unlinks : ℕ
  since : ℕ
  stayed : Parker → Bool

namespace Vigil

/-- A step that does not save the cursor, with `n` unlinks. -/
def keep (w : Vigil) (t : SweepState) (n : ℕ) : Vigil :=
  ⟨w.unlinks + n, w.since + n, fun p => w.stayed p && t.pool.isLinked p⟩

def next (cfg : Config) (w : Vigil) (s : SweepState) : SweepCall → SweepState → Vigil
  | .unlink p, t => w.keep t (if (s.pool.parkerUnlink cfg p).2 then 1 else 0)
  | .sweep o, t => if s.throttle o then w.keep t 0 else ⟨w.unlinks, 0, t.pool.isLinked⟩
  | .link .., t => w.keep t 0
  | .stamp .., t => w.keep t 0

end Vigil

def watched (cfg : Config) : System (SweepState × Vigil) SweepCall :=
  (sweepSystem cfg).withHistory ⟨0, 0, fun _ => false⟩ (Vigil.next cfg)

/-- A sweep comes before `2 ^ 32` unlinks since the cursor was saved. -/
def InTime (x : SweepState × Vigil) : SweepCall → Prop
  | .sweep _ => x.2.since < 2 ^ 32
  | _ => True

instance (x : SweepState × Vigil) : (c : SweepCall) → Decidable (InTime x c)
  | .link .. | .unlink _ | .stamp .. => inferInstanceAs (Decidable True)
  | .sweep _ => inferInstanceAs (Decidable (_ < _))

variable {cfg : Config} {s t : SweepState} {w : Vigil} {p : Parker}

theorem parkerLink_counts (cfg : Config) (s : State) (p : Parker) (o : Answers) :
    (s.parkerLink cfg p o).linkCount = s.linkCount + 1 ∧ (s.parkerLink cfg p o).total = s.total + 1 := by
  simp only [State.parkerLink, State.dhInsert, State.pushBucket, State.clearStale]
  split <;> exact ⟨rfl, rfl⟩

theorem parkerUnlink_counts (s : State) (p : Parker) (h : (s.parkerUnlink cfg p).2 = true) :
    (s.parkerUnlink cfg p).1.linkCount = s.linkCount ∧ (s.parkerUnlink cfg p).1.total = s.total - 1 := by
  simp only [State.parkerUnlink] at h ⊢
  rw [if_pos h]
  exact ⟨rfl, rfl⟩

structure SweepInv (cfg : Config) (s : SweepState) (w : Vigil) : Prop where
  views : ∃ h l b, Inv cfg s.pool h l b
  count : (s.pool.linkCount : ℤ) - s.pool.total = w.unlinks
  since : w.since ≤ w.unlinks
  gen : s.cursorGen = (w.unlinks - w.since) % 2 ^ 32
  saved (h0 : w.since = 0) {p : Parker} (hp : s.cursor = some p) : w.stayed p = true ∧ s.pool.isLinked p = true

namespace SweepInv

theorem of_init (h : SweepInit cfg s) : SweepInv cfg s ⟨0, 0, fun _ => false⟩ where
  views := ⟨fun _ => ⟨false, false⟩, _, _, .of_init h.pool⟩
  count := by
    rw [h.linkCount, h.pool.total]
    rfl
  since := le_rfl
  gen := h.cursorGen
  saved _ _ hp := absurd (h.cursor.symm.trans hp) nofun

section

variable (hI : SweepInv cfg s w)
include hI

theorem unlinksNow_eq : s.unlinksNow = w.unlinks % 2 ^ 32 := by
  rw [SweepState.unlinksNow, hI.count]
  omega

theorem since_eq_zero (hgen : s.unlinksNow = s.cursorGen) (hlt : w.since < 2 ^ 32) : w.since = 0 := by
  rw [hI.unlinksNow_eq, hI.gen] at hgen
  have hle := hI.since
  omega

theorem keep (hviews : ∃ h l b, Inv cfg t.pool h l b)
    (hcount : (t.pool.linkCount : ℤ) - t.pool.total = (s.pool.linkCount : ℤ) - s.pool.total)
    (hcursor : t.cursor = s.cursor) (hgen : t.cursorGen = s.cursorGen)
    (hlinked : ∀ p, s.pool.isLinked p = true → t.pool.isLinked p = true) : SweepInv cfg t (w.keep t 0) where
  views := hviews
  count := hcount.trans hI.count
  since := hI.since
  gen := hgen.trans hI.gen
  saved h0 p hp := by
    obtain ⟨hstayed, hlink⟩ := hI.saved h0 (hcursor.symm.trans hp)
    simp only [Vigil.keep, hstayed, hlinked p hlink, Bool.and_self, and_self]

theorem link {r : Request} {o : Answers}
    (hs : (sweepSystem cfg).step s (.link p r o) = some t) : SweepInv cfg t (w.keep t 0) := by
  obtain ⟨pool, hpool, rfl⟩ := Option.map_eq_some_iff.mp hs
  obtain ⟨h, l, b, hv⟩ := hI.views
  simp only [ParkerPool.step, Option.ite_none_right_eq_some, Option.some.injEq] at hpool
  obtain ⟨hslot, rfl⟩ := hpool
  have hnew := hv.link (r := r) (o := o) (hv.list.slot_eq_none_iff.mp hslot)
  refine hI.keep ⟨_, _, _, hnew⟩ ?_ rfl rfl fun q hq => ?_
  · obtain ⟨hlinks, htotal⟩ := parkerLink_counts cfg (s.pool.prepare p r) p o
    show ((((s.pool.prepare p r).parkerLink cfg p o).linkCount : ℕ) : ℤ) - _ = _
    rw [hlinks, htotal]
    show ((s.pool.linkCount + 1 : ℕ) : ℤ) - (s.pool.total + 1) = _
    omega
  · exact hnew.isLinked_iff.mpr (List.mem_cons_of_mem p (hv.isLinked_iff.mp hq))

theorem unlink (hs : (sweepSystem cfg).step s (.unlink p) = some t) :
    SweepInv cfg t (w.keep t (if (s.pool.parkerUnlink cfg p).2 then 1 else 0)) := by
  cases hs
  obtain ⟨h, l, b, hv⟩ := hI.views
  by_cases hp : p ∈ l
  · -- the unlink moves the counts on, so that the cursor is given up
    have htouched : (s.pool.parkerUnlink cfg p).2 = true := by
      simp only [State.parkerUnlink, hv.list.unlink_touched hp, Bool.true_or]
    obtain ⟨hlinks, htotal⟩ := parkerUnlink_counts s.pool p htouched
    have hcount := hI.count
    refine ⟨⟨_, _, _, hv.unlink hp⟩, ?_, ?_, ?_, fun h0 => ?_⟩
    · show (((s.pool.parkerUnlink cfg p).1.linkCount : ℕ) : ℤ) - (s.pool.parkerUnlink cfg p).1.total = _
      rw [hlinks, htotal, htouched]
      simp only [Vigil.keep, if_true]
      omega
    · rw [htouched]
      exact Nat.add_le_add_right hI.since 1
    · rw [htouched]
      simp only [Vigil.keep, if_true, Nat.add_sub_add_right]
      exact hI.gen
    · rw [htouched] at h0
      cases h0
  · rw [hv.unlink_of_notMem hp]
    exact hI.keep ⟨h, l, b, hv⟩ rfl rfl rfl fun _ hq => hq

end

theorem walk_mem {o : Glance} {l : List Parker} (hv : ListView s.pool.list l) {k : ℕ} {q : Option Parker}
    {reclaimed : Parker → Bool} {batch : List ℕ} (hq : ∀ p, q = some p → p ∈ l) :
    ∀ p, (s.walk o k q reclaimed batch).1 = some p → p ∈ l := by
  induction k generalizing q reclaimed batch with
  | zero => exact hq
  | succ k ih =>
    cases q with
    | none => exact hq
    | some z =>
      have hnext : ∀ p, s.pool.list.next z = some p → p ∈ l := fun p hp => (hv.linked.mem_of_next (hq z rfl) hp).1
      rw [SweepState.walk]
      split
      · exact hq
      · split <;> exact ih hnext

theorem start_mem {h : Parker → Made} {l : List Parker} {b : ℕ → List Parker} (hI : SweepInv cfg s w)
    (hv : Inv cfg s.pool h l b) (hlt : w.since < 2 ^ 32) : ∀ p, s.start = some p → p ∈ l := by
  intro p hp
  rw [SweepState.start] at hp
  split at hp
  · rw [hv.list.head] at hp
    exact List.mem_of_head? hp
  · rename_i hresume
    rw [not_or, not_not] at hresume
    exact hv.isLinked_iff.mp (hI.saved (hI.since_eq_zero hresume.2 hlt) hp).2

theorem noteChurn_eq (s : SweepState) (o : Glance) :
    (s.noteChurn o).pool = s.pool ∧ (s.noteChurn o).cursor = s.cursor ∧ (s.noteChurn o).cursorGen = s.cursorGen := by
  unfold SweepState.noteChurn
  split <;> exact ⟨rfl, rfl, rfl⟩

theorem noteChurn (hI : SweepInv cfg s w) (o : Glance) : SweepInv cfg (s.noteChurn o) w := by
  obtain ⟨hpool, hcursor, hgen⟩ := noteChurn_eq s o
  constructor
  · rw [hpool]
    exact hI.views
  · rw [hpool]
    exact hI.count
  · exact hI.since
  · rw [hgen]
    exact hI.gen
  · rw [hpool, hcursor]
    exact hI.saved

theorem sweep {o : Glance} (hI : SweepInv cfg s w) (hlt : w.since < 2 ^ 32) :
    SweepInv cfg (s.sweepIdle o).2 (Vigil.next cfg w s (.sweep o) (s.sweepIdle o).2) := by
  have hC := hI.noteChurn o
  obtain ⟨h, l, b, hv⟩ := hC.views
  simp only [SweepState.sweepIdle, Vigil.next]
  cases hth : s.throttle o with
  | true =>
    obtain ⟨hpool, hcursor, hgen⟩ := noteChurn_eq s o
    refine hI.keep ⟨h, l, b, hv⟩ ?_ hcursor hgen fun p hp => ?_
    · show ((s.noteChurn o).pool.linkCount : ℤ) - (s.noteChurn o).pool.total = _
      rw [hpool]
    · show (s.noteChurn o).pool.isLinked p = true
      rw [hpool]
      exact hp
  | false =>
    refine ⟨⟨h, l, b, hv⟩, hC.count, Nat.zero_le _, ?_, fun _ {p} hp => ?_⟩
    · show (s.noteChurn o).unlinksNow = (w.unlinks - 0) % 2 ^ 32
      rw [hC.unlinksNow_eq, Nat.sub_zero]
    · have hmem := walk_mem hv.list (hC.start_mem hv hlt) p hp
      have hlink : (s.noteChurn o).pool.isLinked p = true := hv.isLinked_iff.mpr hmem
      exact ⟨hlink, hlink⟩

theorem step {c : SweepCall} (hI : SweepInv cfg s w) (hc : InTime (s, w) c)
    (hs : (sweepSystem cfg).step s c = some t) : SweepInv cfg t (Vigil.next cfg w s c t) := by
  cases c with
  | link p r o => exact hI.link hs
  | unlink p => exact hI.unlink hs
  | stamp p ts =>
    cases hs
    exact hI.keep hI.views rfl rfl rfl fun _ hq => hq
  | sweep o =>
    cases hs
    exact hI.sweep hc

end SweepInv

/-- What holds of the cursor in the state before a call. -/
structure CursorValid (s : SweepState) (w : Vigil) : Prop where
  count : (s.pool.linkCount : ℤ) - s.pool.total = w.unlinks
  /-- A sweep goes on from a cursor that has been on the list since it was saved. -/
  resume (p : Parker) (hp : s.cursor = some p) (hgen : s.unlinksNow = s.cursorGen) (hlt : w.since < 2 ^ 32) :
    Visits s.pool.list.next s.pool.list.head p ∧ w.stayed p = true

theorem SweepInv.cursorValid (hI : SweepInv cfg s w) : CursorValid s w where
  count := hI.count
  resume p hp hgen hlt := by
    obtain ⟨hstayed, hlink⟩ := hI.saved (hI.since_eq_zero hgen hlt) hp
    obtain ⟨h, l, b, hv⟩ := hI.views
    refine ⟨?_, hstayed⟩
    rw [hv.list.head]
    exact hv.list.linked.spells.visits (hv.isLinked_iff.mp hlink)

/-- In every run whose sweeps come in time, the cursor is valid whenever a sweep goes on from it. -/
theorem sweep_cursor_valid (cfg : Config) (x : SweepState × Vigil) (hx : (watched cfg).ReachableWith InTime x) :
    CursorValid x.1 x.2 := by
  have hI : SweepInv cfg x.1 x.2 := by
    refine hx.invariant (P := fun x => SweepInv cfg x.1 x.2) (fun x hi => ?_) ?_
    · rw [hi.2]
      exact .of_init hi.1
    · rintro x c y hI hc hstep
      obtain ⟨hs, hnote⟩ := System.withHistory_step hstep
      rw [hnote]
      exact hI.step hc hs
  exact hI.cursorValid

def unswept : SweepState := ⟨emptyPool, none, 0, 0, 0, fun _ => 0, fun _ => false⟩

/-- A sweep at 10 of stacks that are idle for 5, without a limit on arrivals. -/
def idleFive : Glance := ⟨10, 5, 0, false, fun _ => true, fun _ => true, fun _ => true⟩

/-- One parker more than a sweep reclaims; after the sweep another one comes. -/
def manyIdle : List SweepCall :=
  (List.range 129).map (fun p => SweepCall.link p ⟨-1, -1, some p, some 0⟩ ⟨true, true, true, none⟩) ++
    (List.range 129).map (fun p => SweepCall.stamp p 1) ++
    [SweepCall.sweep idleFive, .link 200 ⟨-1, -1, some 200, some 0⟩ ⟨true, true, true, none⟩]

theorem sweep_cursor_valid_manyIdle :
    ∃ x, (watched hubPool).ReachableWith InTime x ∧ x.1.cursor = some 0 ∧ x.1.unlinksNow = x.1.cursorGen ∧
      CursorValid x.1 x.2 := by
  obtain ⟨x, hx, hcursor, hgen⟩ := (watched hubPool).reachesWith InTime
    (fun x => x.1.cursor = some 0 ∧ x.1.unlinksNow = x.1.cursorGen) manyIdle
    (s := (unswept, ⟨0, 0, fun _ => false⟩)) ⟨⟨emptyPool_init, rfl, rfl, rfl⟩, rfl⟩ (by decide +kernel)
  exact ⟨x, hx, hcursor, hgen, sweep_cursor_valid hubPool x hx⟩

end Runloom.ParkerPool
