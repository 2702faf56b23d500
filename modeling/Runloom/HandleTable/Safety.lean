import Runloom.HandleTable.Invariant

/-!
# What a handle can be trusted for

A pin that succeeds has the object its handle was issued for, the free function waits for the last reference and then
runs once, and a reclaimed handle stays dead when its slot is reused.
-/

namespace Runloom.HandleTable

open Transition State List
open State (goto)

variable {α φ T : Type*} [DecidableEq T] {cfg : Config} {s u : State α φ T} [Fintype T]

/-! ## What the sums say about a handle -/

/-- Somebody has a reference: a pin taken and not given back, or the owner's. -/
def Referenced (s : State α φ T) (h : Handle) : Prop :=
  0 < s.held h ∨ s.owner h ∨ ∃ t, (s.pc t).refs h = 1

/-- The object of `h` was reclaimed, or is being reclaimed. -/
def Reclaimed (s : State α φ T) (h : Handle) : Prop :=
  s.finalized h ≠ [] ∨ ∃ t, (s.pc t).reclaiming h = 1

variable {h : Handle}

omit [DecidableEq T] [Fintype T] in
theorem Pc.reclaiming_eq_one {c : Pc α φ} (hc : 0 < c.reclaiming h) : c.reclaiming h = 1 := by
  unfold reclaiming at hc ⊢
  split at hc <;> first | (split_ifs at hc ⊢ <;> first | rfl | omega) | omega

section

omit [DecidableEq T]

theorem sum_refs_pos (s : State α φ T) (href : Referenced s h) : 0 < ∑ t, (s.pc t).refs h + outside s h := by
  have hnn := Finset.sum_nonneg fun t (_ : t ∈ Finset.univ) => Pc.refs_nonneg h (s.pc t)
  unfold outside
  rcases href with hheld | howner | ⟨t, ht⟩
  · omega
  · rw [howner]
    simp only [Bool.toNat_true]
    omega
  · have hle : (s.pc t).refs h ≤ ∑ t, (s.pc t).refs h :=
      Finset.single_le_sum (fun t _ => Pc.refs_nonneg h (s.pc t)) (Finset.mem_univ t)
    omega

theorem Inv.not_live_of_reclaimed (hI : Inv cfg s) (hr : Reclaimed s h) :
    ¬((s.slot h.idx).genref.gen = h.gen ∧ 0 < (s.slot h.idx).genref.rc) := by
  intro hlive
  have honce := hI.once h
  have hnn := Finset.sum_nonneg fun t (_ : t ∈ Finset.univ) => Pc.reclaiming_nonneg h (s.pc t)
  have hle : registered s h ≤ 1 := by
    unfold registered
    split <;> decide
  rw [unreclaimed, Genref.liveIn, if_pos hlive] at honce
  rcases hr with hfin | ⟨t, ht⟩
  · have := length_pos_iff.mpr hfin
    omega
  · have hle' : (s.pc t).reclaiming h ≤ ∑ t, (s.pc t).reclaiming h :=
      Finset.single_le_sum (fun t _ => Pc.reclaiming_nonneg h (s.pc t)) (Finset.mem_univ t)
    omega

theorem Inv.not_reclaimed (hI : Inv cfg s) (href : Referenced s h) : ¬Reclaimed s h :=
  fun hr => hI.not_live_of_reclaimed hr (hI.of_refs (sum_refs_pos s href))

theorem Inv.reclaimed_once (hI : Inv cfg s) {p : α} {fn : Option φ}
    (hissued : s.issued h = some (p, fn)) (href : ¬Referenced s h) :
    s.finalized h = [(fn, some p)] ∨ s.finalized h = [] ∧ ∃ t, (s.pc t).reclaiming h = 1 := by
  have hzero : count s h = 0 := by
    rw [← hI.refs h, outside]
    have hall : ∀ t, (s.pc t).refs h = 0 := by
      intro t
      have hne : (s.pc t).refs h ≠ 1 := fun hc => href (.inr (.inr ⟨t, hc⟩))
      unfold Pc.refs at hne ⊢
      split at hne <;> first | (split_ifs at hne ⊢ <;> first | rfl | exact absurd rfl hne) | rfl
    have hheld : s.held h = 0 := by
      by_contra hc
      exact href (.inl (Nat.pos_of_ne_zero hc))
    have howner : s.owner h = false := by
      by_contra hc
      exact href (.inr (.inl (by simpa using hc)))
    simp [hall, hheld, howner]
  have honce := hI.once h
  have hlive : (s.slot h.idx).genref.liveIn h.gen = 0 := by
    unfold count Genref.count at hzero
    unfold Genref.liveIn
    split_ifs at hzero ⊢ with h1 h2 h3 <;> first | rfl | omega
  rw [unreclaimed, hlive, registered, hissued] at honce
  simp only [Option.isSome_some, if_true] at honce
  cases hfin : s.finalized h with
  | nil =>
    rw [hfin] at honce
    obtain ⟨t, -, ht⟩ := exists_pos_of_sum_pos (S := Finset.univ)
      (f := fun t => (s.pc t).reclaiming h) (by simp at honce; omega)
    exact .inr ⟨rfl, t, Pc.reclaiming_eq_one ht⟩
  | cons e es =>
    have hnn := Finset.sum_nonneg fun t (_ : t ∈ Finset.univ) => Pc.reclaiming_nonneg h (s.pc t)
    rw [hfin, length_cons] at honce
    have hnil : es = [] := length_eq_zero_iff.mp (by omega)
    obtain ⟨p', fn', hi, rfl⟩ := hI.table.finalized_eq h e (by simp [hfin])
    rw [hissued, Option.some.injEq, Prod.mk.injEq] at hi
    rw [hnil, hi.1, hi.2]
    exact .inl rfl

end

/-! ## A reclaim finishes and a stale pin fails, by the thread's own steps -/

omit [Fintype T] in
theorem exists_run_finalized {t : T} (hok : PcOk s.slot s.issued (s.pc t))
    (ht : (s.pc t).reclaiming h = 1) (hfin : s.finalized h = []) {p : α} {fn : Option φ}
    (hissued : s.issued h = some (p, fn)) :
    ∃ n ≤ 3, ∃ u, (handleTable α φ T cfg).run s (List.replicate n (.step t)) = some u ∧
      u.finalized h = [(fn, some p)] := by
  have hfree : ∀ {s : State α φ T} {w : Bool}, s.finalized h = [] → s.pc t = .recFree h (some p) fn w →
      ∃ u, (handleTable α φ T cfg).step s (.step t) = some u ∧ u.finalized h = [(fn, some p)] := by
    intro s wait hfin hpc
    refine ⟨_, by simp only [handleTable, HandleTable.step, HandleTable.next, hpc]; rfl, ?_⟩
    simp [goto, hfin]
  have hstore : ∀ {s : State α φ T} {w : Bool}, s.finalized h = [] → s.pc t = .recStore h (some p) fn w →
      ∃ u, (handleTable α φ T cfg).run s (List.replicate 2 (.step t)) = some u ∧
        u.finalized h = [(fn, some p)] := by
    intro s wait hfin hpc
    have hstep : (handleTable α φ T cfg).step s (.step t) =
        some ((s.bumpGen h).goto t (.recFree h (some p) fn wait)) := by
      simp only [handleTable, HandleTable.step, HandleTable.next, hpc]
    obtain ⟨u, hu, hufin⟩ := hfree (s := (s.bumpGen h).goto t (.recFree h (some p) fn wait))
      (w := wait) hfin (by simp [goto])
    refine ⟨u, ?_, hufin⟩
    rw [replicate_succ, System.run_cons hstep, replicate_one, System.run_cons hu]
    rfl
  cases hpc : s.pc t with
  | recRead h' wait =>
    obtain rfl : h' = h := by
      by_contra hne
      simp [hpc, Pc.reclaiming, hne] at ht
    rw [hpc] at hok
    obtain ⟨-, p', fn', hi, hptr, hfn⟩ := hok
    rw [hissued, Option.some.injEq, Prod.mk.injEq] at hi
    have hstep : (handleTable α φ T cfg).step s (.step t) =
        some ((s.setSlot h'.idx { s.slot h'.idx with ptr := none, freeFn := none }).goto t
          (.recStore h' (some p) fn wait)) := by
      simp only [handleTable, HandleTable.step, HandleTable.next, hpc, hptr, hfn, hi.1, hi.2]
    obtain ⟨u, hu, hufin⟩ := hstore (s := goto (s.setSlot h'.idx
      { s.slot h'.idx with ptr := none, freeFn := none }) t (.recStore h' (some p) fn wait))
      (w := wait) hfin (by simp [goto])
    refine ⟨3, le_rfl, u, ?_, hufin⟩
    rw [replicate_succ, System.run_cons hstep]
    exact hu
  | recStore h' q fn' wait =>
    obtain rfl : h' = h := by
      by_contra hne
      simp [hpc, Pc.reclaiming, hne] at ht
    rw [hpc] at hok
    obtain ⟨-, p', hi, rfl⟩ := hok
    rw [hissued, Option.some.injEq, Prod.mk.injEq] at hi
    rw [← hi.1, ← hi.2] at hpc
    obtain ⟨u, hu, hufin⟩ := hstore hfin hpc
    exact ⟨2, by decide, u, hu, hufin⟩
  | recFree h' q fn' wait =>
    obtain rfl : h' = h := by
      by_contra hne
      simp [hpc, Pc.reclaiming, hne] at ht
    rw [hpc] at hok
    obtain ⟨-, p', hi, rfl⟩ := hok
    rw [hissued, Option.some.injEq, Prod.mk.injEq] at hi
    rw [← hi.1, ← hi.2] at hpc
    obtain ⟨u, hu, hufin⟩ := hfree hfin hpc
    refine ⟨1, by decide, u, ?_, hufin⟩
    rw [replicate_one, System.run_cons hu]
    rfl
  | _ => simp [hpc, Pc.reclaiming] at ht

omit [Fintype T] in
theorem exists_run_pin_fails {t : T} (hdead : ¬((s.slot h.idx).genref.gen = h.gen ∧ 0 < (s.slot h.idx).genref.rc))
    (hpc : s.pc t = .pinLoad h ∨ ∃ gr, s.pc t = .pinTest h gr) :
    ∃ n ≤ 2, ∃ u, (handleTable α φ T cfg).run s (List.replicate n (.step t)) = some u ∧
      u.pc t = .pinDone h none := by
  have hstale : (s.slot h.idx).genref.gen ≠ h.gen ∨ (s.slot h.idx).genref.rc = 0 := by
    by_contra hc
    push Not at hc
    exact hdead ⟨hc.1, Nat.pos_of_ne_zero hc.2⟩
  -- one turn of the loop on the current word
  have htest : (handleTable α φ T cfg).step (s.goto t (.pinTest h (s.slot h.idx).genref)) (.step t)
      = some ((s.goto t (.pinTest h (s.slot h.idx).genref)).goto t (.pinDone h none)) := by
    simp only [handleTable, HandleTable.step, HandleTable.next, goto, update_self, State.pinTest, if_pos hstale]
  have hdone : ((s.goto t (.pinTest h (s.slot h.idx).genref)).goto t (.pinDone h none)).pc t =
      .pinDone h none := by simp [goto]
  rcases hpc with hpc | ⟨gr, hpc⟩
  · by_cases hnone : h = handleNull ∨ s.lookup cfg h.idx = none
    · have hstep : (handleTable α φ T cfg).step s (.step t) = some (s.goto t (.pinDone h none)) := by
        simp only [handleTable, HandleTable.step, HandleTable.next, hpc]
        rcases hnone with hnull | hlookup
        · rw [if_pos hnull]
        · rw [hlookup]
          split_ifs <;> rfl
      refine ⟨1, by decide, _, by rw [replicate_one, System.run_cons hstep]; rfl, ?_⟩
      simp [goto]
    · push Not at hnone
      have hlookup : s.lookup cfg h.idx = some (s.slot h.idx) := by
        have hne := hnone.2
        unfold State.lookup at hne ⊢
        split_ifs at hne ⊢
        · exact absurd rfl hne
        · rfl
      have hstep : (handleTable α φ T cfg).step s (.step t) =
          some (s.goto t (.pinTest h (s.slot h.idx).genref)) := by
        simp only [handleTable, HandleTable.step, HandleTable.next, hpc, if_neg hnone.1, hlookup]
      refine ⟨2, le_rfl, _, ?_, hdone⟩
      rw [replicate_succ, System.run_cons hstep, replicate_one, System.run_cons htest]
      rfl
  · by_cases hgr : gr.gen ≠ h.gen ∨ gr.rc = 0
    · have hstep : (handleTable α φ T cfg).step s (.step t) = some (s.goto t (.pinDone h none)) := by
        simp only [handleTable, HandleTable.step, HandleTable.next, hpc, State.pinTest, if_pos hgr]
      refine ⟨1, by decide, _, by rw [replicate_one, System.run_cons hstep]; rfl, ?_⟩
      simp [goto]
    · have hne : (s.slot h.idx).genref ≠ gr := by
        rintro rfl
        exact hgr hstale
      have hstep : (handleTable α φ T cfg).step s (.step t) =
          some (s.goto t (.pinTest h (s.slot h.idx).genref)) := by
        simp only [handleTable, HandleTable.step, HandleTable.next, hpc, State.pinTest, if_neg hgr, if_neg hne]
      refine ⟨2, le_rfl, _, ?_, hdone⟩
      rw [replicate_succ, System.run_cons hstep, replicate_one, System.run_cons htest]
      rfl

section

omit [DecidableEq T] [Fintype T]

theorem freeCalls_of_finalized {p : α} {fn : φ}
    (hfin : s.finalized h = [(some fn, some p)]) : freeCalls s h = [(fn, p)] := by
  simp [freeCalls, hfin]

theorem freeCalls_eq_nil (hfin : s.finalized h = []) : freeCalls s h = [] := by
  simp [freeCalls, hfin]

end

/-- As long as the packed word stays in range, a pin returns the object of its handle or fails, and the free
function runs once, last. -/
theorem handle_pins_and_frees (hs : (handleTable α φ T cfg).ReachableWith InRange s) (h : Handle) :
    (∀ t p, s.pc t = .pinDone h (some p) → ∃ fn, s.issued h = some (p, fn)) ∧
    (Referenced s h → freeCalls s h = [] ∧ ¬Reclaimed s h) ∧
    (∀ p fn, s.issued h = some (p, some fn) → ¬Referenced s h → freeCalls s h = [(fn, p)] ∨
      freeCalls s h = [] ∧ ∃ t, ∃ n ≤ 3, ∃ u,
        (handleTable α φ T cfg).run s (List.replicate n (.step t)) = some u ∧ freeCalls u h = [(fn, p)]) ∧
    (Reclaimed s h → (∀ t p, s.pc t ≠ .pinDone h (some p)) ∧
      ∀ t, (s.pc t = .pinLoad h ∨ ∃ gr, s.pc t = .pinTest h gr) → ∃ n ≤ 2, ∃ u,
        (handleTable α φ T cfg).run s (List.replicate n (.step t)) = some u ∧ u.pc t = .pinDone h none) := by
  have hI := inv_of_reachable hs
  refine ⟨fun t p ht => ?_, fun href => ?_, fun p fn hissued href => ?_, fun hr => ⟨?_, ?_⟩⟩
  · simpa only [ht, PcOk] using hI.pcOk t
  · have hnot := hI.not_reclaimed href
    refine ⟨freeCalls_eq_nil ?_, hnot⟩
    by_contra hfin
    exact hnot (.inl hfin)
  · rcases hI.reclaimed_once hissued href with hfin | ⟨hfin, t, ht⟩
    · exact .inl (freeCalls_of_finalized hfin)
    · obtain ⟨n, hn, u, hu, hufin⟩ := exists_run_finalized (hI.pcOk t) ht hfin hissued
      exact .inr ⟨freeCalls_eq_nil hfin, t, n, hn, u, hu, freeCalls_of_finalized hufin⟩
  · intro t p ht
    exact hI.not_reclaimed (.inr (.inr ⟨t, by simp [ht, Pc.refs]⟩)) hr
  · exact fun t ht => exists_run_pin_fails (hI.not_live_of_reclaimed hr) ht

def smallSegs : Config := ⟨4, 4096, by decide, by decide⟩

def empty (T : Type) : State ℕ ℕ T where
  slot := fun _ => ⟨none, none, ⟨0, 0⟩⟩
  nsegs := 0
  free := []
  pc := fun _ => .idle
  issued := fun _ => none
  held := fun _ => 0
  owner := fun _ => false
  finalized := fun _ => []
  reclaims := fun _ => 0

theorem empty_init (T : Type) [DecidableEq T] : (handleTable ℕ ℕ T smallSegs).init (empty T) :=
  ⟨fun _ => rfl, rfl, rfl, fun _ => rfl, fun _ => rfl, fun _ => rfl, fun _ => rfl, fun _ => rfl, fun _ => rfl⟩

/-- The handle of the first registration in `smallSegs`. -/
def first : Handle := ⟨0, 15⟩

def threadZero : Fin 2 := ⟨0, Nat.two_pos⟩

def threadOne : Fin 2 := ⟨1, Nat.one_lt_two⟩

/-- Thread 1 pins, and the owner's release comes before the pin returns. -/
def pinThenRelease : List (Action ℕ ℕ (Fin 2)) :=
  Action.register threadZero 7 (some 9) true :: List.replicate 3 (.step threadZero) ++
    Action.pin threadOne first :: List.replicate 3 (.step threadOne) ++
      [Action.release threadZero first false, .step threadZero, .step threadZero]

theorem handle_pins_and_frees_pinThenRelease :
    ∃ s, (handleTable ℕ ℕ (Fin 2) smallSegs).run (empty (Fin 2)) pinThenRelease = some s ∧
      s.pc 1 = .pinDone first (some 7) ∧ (∃ fn, s.issued first = some (7, fn)) ∧
      s.owner first = false ∧ freeCalls s first = [] := by
  obtain ⟨s, hr, hs, hp⟩ := System.exists_reachableWith_of_replay
    (M := handleTable ℕ ℕ (Fin 2) smallSegs) (C := InRange)
    (p := fun s => decide (s.pc 1 = .pinDone first (some 7) ∧ s.owner first = false))
    pinThenRelease (empty_init (Fin 2)) (by decide +kernel)
  obtain ⟨hpc, howner⟩ := of_decide_eq_true hp
  obtain ⟨hpin, hfree, -, -⟩ := handle_pins_and_frees hs first
  exact ⟨s, hr, hpc, hpin 1 7 hpc, howner, (hfree (.inr (.inr ⟨1, by rw [hpc]; rfl⟩))).1⟩

/-! ## The count wraps at `2 ^ 32` references -/

/-- The only thread is between operations, with `n` pins and a count of `rc`. -/
structure Quiet (rc n : ℕ) (owner : Bool) (s : State ℕ ℕ Unit) : Prop where
  reachable : (handleTable ℕ ℕ Unit smallSegs).ReachableWith GenInRange s
  pc : s.pc () = .idle
  nsegs : s.nsegs = 1
  slot : s.slot 15 = ⟨some 7, some 9, ⟨0, rc⟩⟩
  held : s.held first = n
  owner_eq : s.owner first = owner
  issued : s.issued first = some (7, some 9)
  finalized : s.finalized first = []

theorem lookup_first {s : State ℕ ℕ Unit} (h : s.nsegs = 1) :
    s.lookup smallSegs first.idx = some (s.slot 15) := by
  rw [State.lookup, h]
  rfl

theorem exists_quiet_registered : ∃ s, Quiet 1 0 true s := by
  obtain ⟨s, hs, h1, h2, h3, h4, h5, h6, h7⟩ := (handleTable ℕ ℕ Unit smallSegs).reachesWith GenInRange
    (fun s => s.pc () = .idle ∧ s.nsegs = 1 ∧
      s.slot 15 = ⟨some 7, some 9, ⟨0, 1⟩⟩ ∧ s.held first = 0 ∧ s.owner first = true ∧
      s.issued first = some (7, some 9) ∧ s.finalized first = [])
    [.register () 7 (some 9) true, .step (), .step (), .step ()] (empty_init Unit)
    (by decide +kernel)
  exact ⟨s, hs, h1, h2, h3, h4, h5, h6, h7⟩

theorem Quiet.pin {rc n : ℕ} {owner : Bool} {s : State ℕ ℕ Unit} (h : Quiet rc n owner s)
    (hrc : rc ≠ 0) : ∃ u, Quiet ((rc + 1) % 2 ^ 32) (n + 1) owner u := by
  set s1 := s.goto () (.pinLoad first) with hs1
  set s2 := s1.goto () (.pinTest first ⟨0, rc⟩) with hs2
  set s3 := (s2.setGenref 15 (pack 0 (rc + 1))).goto () (.pinRead first) with hs3
  set s4 := s3.goto () (.pinDone first (some 7)) with hs4
  have r1 : (handleTable ℕ ℕ Unit smallSegs).ReachableWith GenInRange s1 := by
    apply h.reachable.step (a := .pin () first) (show GenInRange s (.pin () first) from trivial)
    simp only [handleTable, HandleTable.step, h.pc, hs1]
  have r2 : (handleTable ℕ ℕ Unit smallSegs).ReachableWith GenInRange s2 := by
    apply r1.step (a := .step ()) (by simp [GenInRange, hs1, goto])
    have hlook : s1.lookup smallSegs first.idx = some ⟨some 7, some 9, ⟨0, rc⟩⟩ :=
      (lookup_first h.nsegs).trans (congrArg some h.slot)
    have hpc : s1.pc () = .pinLoad first := by simp [hs1, goto]
    simp only [handleTable, HandleTable.step, HandleTable.next, hpc, hlook]
    rfl
  have r3 : (handleTable ℕ ℕ Unit smallSegs).ReachableWith GenInRange s3 := by
    apply r2.step (a := .step ()) (by simp [GenInRange, hs2, goto])
    have hpc : s2.pc () = .pinTest first ⟨0, rc⟩ := by simp [hs2, goto]
    have hword : (s2.slot first.idx).genref = ⟨0, rc⟩ := congrArg Slot.genref h.slot
    simp only [handleTable, HandleTable.step, HandleTable.next, hpc, State.pinTest, hword]
    rw [if_neg (by simpa [first] using hrc), if_true]
    rfl
  have r4 : (handleTable ℕ ℕ Unit smallSegs).ReachableWith GenInRange s4 := by
    apply r3.step (a := .step ()) (by simp [GenInRange, hs3, goto])
    have hpc : s3.pc () = .pinRead first := by simp [hs3, goto]
    have hptr : (s3.slot first.idx).ptr = some 7 := by
      simp [hs3, hs2, hs1, goto, State.setGenref, State.setSlot, first, h.slot]
    simp only [handleTable, HandleTable.step, HandleTable.next, hpc, hptr, hs4]
  refine ⟨goto { s4 with held := update s4.held first (s4.held first + 1) } ()
    .idle, ?_, ?_, h.nsegs, ?_, ?_, h.owner_eq, h.issued, h.finalized⟩
  · apply r4.step (a := .step ()) (by simp [GenInRange, hs4, goto])
    have hpc : s4.pc () = .pinDone first (some 7) := by simp [hs4, goto]
    simp only [handleTable, HandleTable.step, HandleTable.next, hpc]
  · simp [goto]
  · simp [hs4, hs3, hs2, hs1, goto, State.setGenref, State.setSlot, h.slot, pack]
  · have hheld : s4.held first = n := h.held
    simp [goto, hheld]

theorem exists_quiet_of_deref {n : ℕ} {owner : Bool} {s : State ℕ ℕ Unit}
    (hr : (handleTable ℕ ℕ Unit smallSegs).ReachableWith GenInRange s)
    (hpc : s.pc () = .derefLoad first false) (hnsegs : s.nsegs = 1)
    (hslot : s.slot 15 = ⟨some 7, some 9, ⟨0, 0⟩⟩) (hheld : s.held first = n)
    (howner : s.owner first = owner) (hissued : s.issued first = some (7, some 9))
    (hfin : s.finalized first = []) : ∃ u, Quiet 0 n owner u := by
  set s1 := s.goto () (.derefTest first ⟨0, 0⟩ false) with hs1
  have r1 : (handleTable ℕ ℕ Unit smallSegs).ReachableWith GenInRange s1 := by
    apply hr.step (a := .step ()) (by simp [GenInRange, hpc])
    simp only [handleTable, HandleTable.step, HandleTable.next, hpc, lookup_first hnsegs, hslot]
    rfl
  refine ⟨s1.goto () .idle, ?_, ?_, hnsegs, hslot, hheld, howner, hissued, hfin⟩
  · apply r1.step (a := .step ()) (by simp [GenInRange, hs1, goto])
    have hpc1 : s1.pc () = .derefTest first ⟨0, 0⟩ false := by simp [hs1, goto]
    simp only [handleTable, HandleTable.step, HandleTable.next, hpc1, State.derefTest]
    rw [if_pos (.inr trivial)]
    rfl
  · simp [goto]

theorem Quiet.unpin {n : ℕ} {owner : Bool} {s : State ℕ ℕ Unit} (h : Quiet 0 (n + 1) owner s) :
    ∃ u, Quiet 0 n owner u := by
  apply exists_quiet_of_deref (s := goto
    { s with held := update s.held first (s.held first - 1) } () (.derefLoad first false))
  · apply h.reachable.step (a := .unpin () first) (show GenInRange s (.unpin () first) from trivial)
    simp only [handleTable, HandleTable.step, h.pc, h.held, Nat.succ_pos, if_true]
  · simp [goto]
  · exact h.nsegs
  · exact h.slot
  · simp [goto, h.held]
  · exact h.owner_eq
  · exact h.issued
  · exact h.finalized

theorem Quiet.release {n : ℕ} {s : State ℕ ℕ Unit} (h : Quiet 0 n true s) : ∃ u, Quiet 0 n false u := by
  apply exists_quiet_of_deref (s := goto
    { s with owner := update s.owner first false } () (.derefLoad first false))
  · apply h.reachable.step (a := .release () first false)
      (show GenInRange s (.release () first false) from trivial)
    simp only [handleTable, HandleTable.step, h.pc, h.owner_eq, if_true]
  · simp [goto]
  · exact h.nsegs
  · exact h.slot
  · exact h.held
  · simp [goto]
  · exact h.issued
  · exact h.finalized

theorem exists_quiet_pinned (n : ℕ) (hn : n + 1 < 2 ^ 32) : ∃ s, Quiet (n + 1) n true s := by
  induction n with
  | zero => exact exists_quiet_registered
  | succ n ih =>
    obtain ⟨s, hs⟩ := ih (by omega)
    obtain ⟨u, hu⟩ := hs.pin (by omega)
    rw [Nat.mod_eq_of_lt hn] at hu
    exact ⟨u, hu⟩

theorem exists_quiet_dropped (n : ℕ) {s : State ℕ ℕ Unit} (h : Quiet 0 n false s) : ∃ u, Quiet 0 0 false u := by
  induction n generalizing s with
  | zero => exact ⟨s, h⟩
  | succ n ih =>
    obtain ⟨u, hu⟩ := h.unpin
    exact ih hu

/-- `2 ^ 32 - 1` pins bring the count back to zero, and the free function never runs. -/
theorem wrapped_count_never_frees : ∃ s, (handleTable ℕ ℕ Unit smallSegs).ReachableWith GenInRange s ∧
      s.issued first = some (7, some 9) ∧ ¬Referenced s first ∧ freeCalls s first = [] ∧
      ¬Reclaimed s first ∧ s.pc () = .idle := by
  obtain ⟨s1, h1⟩ := exists_quiet_pinned (2 ^ 32 - 2) (by decide)
  obtain ⟨s2, h2⟩ := h1.pin (by decide)
  obtain ⟨s3, h3⟩ := Quiet.release (show Quiet 0 _ true s2 from h2)
  obtain ⟨s, hs⟩ := exists_quiet_dropped _ h3
  refine ⟨s, hs.reachable, hs.issued, ?_, freeCalls_eq_nil hs.finalized, ?_, hs.pc⟩
  · rintro (hheld | howner | ⟨⟨⟩, ht⟩)
    · exact absurd hs.held (by omega)
    · rw [hs.owner_eq] at howner
      cases howner
    · simp [hs.pc, Pc.refs] at ht
  · rintro (hfin | ⟨⟨⟩, ht⟩)
    · exact hfin hs.finalized
    · simp [hs.pc, Pc.reclaiming] at ht

end Runloom.HandleTable
