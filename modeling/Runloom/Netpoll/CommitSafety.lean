import Mathlib.Data.List.Infix
import Runloom.Netpoll.CommitModel

/-!
# Safety of the netpoll commit protocol

Exactly one path wins the parker, and everything that follows the swap is the winner's: the value
stored through `ready_out` and the single re-queue.  The waiter reads the value only after it has
taken the pool lock or been re-queued, and by then the winner has stored it.
-/

namespace Runloom.Netpoll.Commit

open Transition List

variable {s t : State} {i : ℕ}

/-! ## The operations after a claim -/

variable {l : List Op}

theorem no_effect_of_afterLose {k : Kind} (h : l <:+ k.afterLose) : (∀ v, .store v ∉ l) ∧ .requeue ∉ l := by
  have hsub : ∀ op ∈ l, op = .unlink ∨ op = .unlock := by
    intro op hop
    have := h.subset hop
    cases k <;> simp [Kind.afterLose] at this <;> simp [this]
  exact ⟨fun v hv => by simpa using hsub _ hv, fun hr => by simpa using hsub _ hr⟩

theorem unlock_once_of_afterLose {k : Kind} {r : List Op} (h : .unlock :: r <:+ k.afterLose) : .unlock ∉ r := by
  cases k <;> simp [Kind.afterLose, suffix_cons_iff] at h <;> simp [h]

/-- What is left of a winner's operations: one store, of its own value and under the lock, then one re-queue. -/
structure WinTail (events : ℕ) (w : Win) (l : List Op) : Prop where
  store_eq : ∀ v, .store v ∈ l → v = w.kind.value events
  store_locked : ∀ v, .store v ∈ l → .unlock ∈ l
  store_before : ∀ v, .store v ∈ l → w.claimedFrom = .parked → .requeue ∈ l
  requeue_parked : .requeue ∈ l → w.claimedFrom = .parked
  store_once : ∀ v r, l = .store v :: r → ∀ u, .store u ∉ r
  requeue_once : ∀ r, l = .requeue :: r → .requeue ∉ r
  unlock_once : ∀ r, l = .unlock :: r → .unlock ∉ r

theorem winTail_of_suffix {events : ℕ} {w : Win}
    (h : l <:+ w.kind.afterWin events w.claimedFrom) : WinTail events w l := by
  obtain ⟨j, k, c⟩ := w
  -- The paths differ in where the unlink and the re-queue stand.
  have hshape : k.afterWin events c ∈ [
      [Op.store (k.value events), .unlink] ++ (if c = .parked then [Op.requeue] else []) ++ [Op.unlock],
      [Op.unlink, .store (k.value events)] ++ (if c = .parked then [Op.requeue] else []) ++ [Op.unlock],
      [Op.unlink, .store (k.value events), .unlock] ++ if c = .parked then [Op.requeue] else []] := by
    cases k <;> simp [Kind.afterWin]
  simp only [mem_cons, not_mem_nil, or_false] at hshape
  rcases hshape with hs | hs | hs <;> rw [hs] at h <;> clear hs <;> by_cases hc : c = .parked <;>
    simp only [hc, if_true, if_false, cons_append, nil_append, append_nil, suffix_cons_iff, suffix_nil] at h <;>
    (rcases h with rfl | rfl | rfl | rfl | rfl | rfl | _) <;> constructor <;> simp [hc]

/-! ## The invariant -/

def ClaimPc.holds : ClaimPc → Prop
  | .load _ | .cas _ _ => True
  | .finish l => .unlock ∈ l

def ClaimInv (s : State) (i : ℕ) : ClaimPc → Prop
  | .load k => k.applies s.events
  | .cas k cur => k.applies s.events ∧ cur ≠ .woken
  | .finish l => (∃ k : Kind, l <:+ k.afterLose ∧ (l ≠ [] → s.commit = .woken)) ∨
      ∃ w, s.wins = [w] ∧ w.claimer = i ∧ l <:+ w.kind.afterWin s.events w.claimedFrom

def State.storesDone (s : State) : Prop :=
  ∀ i l v, s.claimer i = .finish l → .store v ∉ l

/-- Whether the parker is won, and what then follows from the winner. -/
structure WinInv (s : State) : Prop where
  woken : s.commit = .woken ↔ ∃ w, s.wins = [w]
  unwon : s.commit ≠ .woken → s.wins = []
  applies : ∀ w ∈ s.wins, w.kind.applies s.events
  stored : ∀ w, s.wins = [w] → s.readyMask = w.kind.value s.events ∧ s.storesDone ∨
    ∃ l, s.claimer w.claimer = .finish l ∧ .store (w.kind.value s.events) ∈ l
  requeued : ∀ w, s.wins = [w] → w.claimedFrom = .parked →
    s.requeues = 1 ∧ (∀ i, ¬s.owesRequeue i) ∨ s.requeues = 0 ∧ s.owesRequeue w.claimer
  notRequeued : (∀ w ∈ s.wins, w.claimedFrom ≠ .parked) → s.requeues = 0

/-- The fiber has not committed: a claim so far was made from `ARMED`. -/
def State.uncommitted (s : State) : Prop :=
  s.commit ≠ .parked ∧ s.queued = 0 ∧ ∀ w ∈ s.wins, w.claimedFrom = .armed

def FiberInv (s : State) : Prop :=
  match s.fiber with
  | .link => s.uncommitted ∧ s.linked = false
  | .consume _ | .register | .commit | .leave .early _ =>
    s.uncommitted ∧ (s.commit = .armed → s.linked = true)
  | .returned .early _ => s.uncommitted
  | .leave .commitFailed _ => s.uncommitted ∧ s.commit = .woken
  | .returned .commitFailed r =>
    s.uncommitted ∧ s.commit = .woken ∧ ∀ w ∈ s.wins, r = w.kind.value s.events
  | .park | .yielded =>
    s.commit ≠ .armed ∧ (∀ w ∈ s.wins, w.claimedFrom = .parked) ∧ s.queued = s.requeues ∧
      (s.commit = .parked → s.linked = true)
  | .leave .postPark _ => s.requeues = 1
  | .returned .postPark r => s.requeues = 1 ∧ ∀ w ∈ s.wins, r = w.kind.value s.events

structure Inv (s : State) : Prop where
  lock : ∀ i, s.lock = some i ↔ (s.claimer i).holds
  claimer : ∀ i, ClaimInv s i (s.claimer i)
  winner : WinInv s
  fiber : FiberInv s

variable {p : ClaimPc}

theorem ClaimInv.frame (h : ClaimInv s i p) (he : t.events = s.events)
    (hc : s.commit = .woken → t.commit = .woken) (hw : s.wins ≠ [] → t.wins = s.wins) :
    ClaimInv t i p := by
  cases p with
  | load k | cas k cur => simpa only [ClaimInv, he] using h
  | finish l =>
    obtain ⟨k, hk, hne⟩ | ⟨w, hwins, hi, hsuf⟩ := h
    · exact .inl ⟨k, hk, fun hl => hc (hne hl)⟩
    · exact .inr ⟨w, (hw (by simp [hwins])).trans hwins, hi, he ▸ hsuf⟩

/-! ## Consequences -/

theorem Inv.readyMask_eq_of_unlocked (hI : Inv s) (hlock : s.lock = none) {w : Win}
    (hw : s.wins = [w]) : s.readyMask = w.kind.value s.events := by
  obtain ⟨heq, -⟩ | ⟨l, hl, hstore⟩ := hI.winner.stored w hw
  · exact heq
  · have hunlock : .unlock ∈ l := by
      have hc := hI.claimer w.claimer
      rw [hl] at hc
      obtain ⟨k, hk, -⟩ | ⟨w', hw', -, hsuf⟩ := hc
      · exact absurd hstore ((no_effect_of_afterLose hk).1 _)
      · exact (winTail_of_suffix hsuf).store_locked _ hstore
    have : s.lock = some w.claimer := (hI.lock _).mpr (by rw [hl]; exact hunlock)
    rw [hlock] at this
    cases this

theorem Kind.result_value {k : Kind} {events : ℕ} (h : k.applies events) :
    result (k.value events) = k.value events := by
  refine if_neg ?_
  cases k with
  | dispatch mask =>
    simp only [Kind.applies, Bool.and_eq_true, decide_eq_true_eq] at h
    have hle : mask &&& events ≤ mask := Nat.and_le_left
    simp only [Kind.value, NETPOLL_SIGNALED]
    omega
  | _ => simp [Kind.value, NETPOLL_SIGNALED, NETPOLL_CANCELLED, NETPOLL_UNPARKED]

theorem Inv.result_eq_of_unlocked (hI : Inv s) (hlock : s.lock = none) {w : Win}
    (hw : s.wins = [w]) : result s.readyMask = w.kind.value s.events := by
  rw [hI.readyMask_eq_of_unlocked hlock hw]
  exact Kind.result_value (hI.winner.applies w (by simp [hw]))

theorem WinInv.eq_singleton (hW : WinInv s) {w : Win} (hw : w ∈ s.wins) : s.wins = [w] := by
  by_cases hc : s.commit = .woken
  · obtain ⟨w', hw'⟩ := hW.woken.mp hc
    rw [hw', mem_singleton] at hw
    rw [hw', hw]
  · rw [hW.unwon hc] at hw
    cases hw

theorem WinInv.parked_of_requeues (hW : WinInv s) (hr : s.requeues ≠ 0) :
    ∃ w, s.wins = [w] ∧ w.claimedFrom = .parked := by
  by_contra hno
  refine hr (hW.notRequeued fun w hw hp => hno ⟨w, hW.eq_singleton hw, hp⟩)

theorem Inv.winner_of_effect (hI : Inv s) (hl : s.claimer i = .finish l)
    (heff : (∃ v, .store v ∈ l) ∨ .requeue ∈ l) :
    ∃ w, s.wins = [w] ∧ w.claimer = i ∧ WinTail s.events w l := by
  have hc := hI.claimer i
  rw [hl] at hc
  obtain ⟨k, hk, -⟩ | ⟨w, hw, hi, hsuf⟩ := hc
  · obtain ⟨hns, hnr⟩ := no_effect_of_afterLose hk
    obtain ⟨v, hv⟩ | hr := heff
    · exact absurd hv (hns v)
    · exact absurd hr hnr
  · exact ⟨w, hw, hi, winTail_of_suffix hsuf⟩

/-! ## The waiter's steps -/

theorem Inv.set_fiber (hI : Inv s) {b : Bool} {pc : FiberPc} {q : ℕ}
    (hf : FiberInv { s with linked := b, fiber := pc, queued := q }) :
    Inv { s with linked := b, fiber := pc, queued := q } :=
  ⟨hI.lock, hI.claimer,
    ⟨hI.winner.woken, hI.winner.unwon, hI.winner.applies, hI.winner.stored, hI.winner.requeued,
      hI.winner.notRequeued⟩, hf⟩

theorem Inv.commit (hI : Inv s) (hpc : s.fiber = .commit) (hc : s.commit = .armed) :
    Inv { s with commit := .parked, fiber := .park } := by
  have hwins : s.wins = [] := hI.winner.unwon (by simp [hc])
  have hf := hI.fiber
  simp only [FiberInv, hpc] at hf
  refine ⟨hI.lock, fun i => ?_, ⟨by simp [hwins], fun _ => hwins, hI.winner.applies,
    hI.winner.stored, hI.winner.requeued, hI.winner.notRequeued⟩, ?_⟩
  · refine (hI.claimer i).frame rfl (fun h => ?_) fun _ => rfl
    rw [hc] at h
    cases h
  · have hq : s.queued = s.requeues := hf.1.2.1.trans (hI.winner.notRequeued (by simp [hwins])).symm
    exact ⟨by simp, by simp [hwins], hq, fun _ => hf.2 hc⟩

theorem Inv.leave (hI : Inv s) {exit : Exit} {early : ℤ} (hpc : s.fiber = .leave exit early)
    (hlock : s.lock = none) :
    Inv { s with
      linked := false
      fiber := .returned exit (if exit = .early then early else result s.readyMask) } := by
  have hf := hI.fiber
  refine hI.set_fiber (q := s.queued) ?_
  cases exit <;> simp only [FiberInv, hpc] at hf
  case early => exact hf.1
  case commitFailed =>
    refine ⟨hf.1, hf.2, fun w hw => ?_⟩
    exact hI.result_eq_of_unlocked hlock (hI.winner.eq_singleton hw)
  case postPark =>
    refine ⟨hf, fun w hw => ?_⟩
    exact hI.result_eq_of_unlocked hlock (hI.winner.eq_singleton hw)

/-! ## The claimers' steps -/

def ClaimPc.quiet : ClaimPc → Prop
  | .load _ | .cas _ _ => True
  | .finish l => (∀ v, .store v ∉ l) ∧ .requeue ∉ l

theorem WinInv.set_quiet (hW : WinInv s) {lk : Option ℕ} (hold : (s.claimer i).quiet) (hnew : p.quiet) :
    WinInv { s with lock := lk, claimer := update s.claimer i p } := by
  have howes : ∀ j, State.owesRequeue { s with
      lock := lk, claimer := update s.claimer i p } j ↔ s.owesRequeue j := by
    intro j
    by_cases hj : j = i
    · subst hj
      simp only [State.owesRequeue, update_self]
      refine iff_of_false ?_ ?_
      · rintro ⟨l, rfl, hr⟩
        exact hnew.2 hr
      · rintro ⟨l, hl, hr⟩
        rw [hl] at hold
        exact hold.2 hr
    · simp only [State.owesRequeue, update_of_ne hj]
  refine ⟨hW.woken, hW.unwon, hW.applies, fun w hw => ?_, fun w hw hp => ?_, hW.notRequeued⟩
  · obtain ⟨heq, hdone⟩ | ⟨l, hl, hstore⟩ := hW.stored w hw
    · refine .inl ⟨heq, fun j l v hl => ?_⟩
      by_cases hj : j = i
      · subst hj
        simp only [update_self] at hl
        rw [hl] at hnew
        exact hnew.1 v
      · simp only [update_of_ne hj] at hl
        exact hdone j l v hl
    · refine .inr ⟨l, ?_, hstore⟩
      have hj : w.claimer ≠ i := by
        rintro rfl
        rw [hl] at hold
        exact hold.1 _ hstore
      simpa only [update_of_ne hj] using hl
  · simp only [howes]
    exact hW.requeued w hw hp

theorem Inv.set_claimer (hI : Inv s) {lk : Option ℕ}
    (hold : (s.claimer i).quiet) (hnew : p.quiet) (hci : ClaimInv s i p)
    (hlock : ∀ j, lk = some j ↔ (update s.claimer i p j).holds) :
    Inv { s with lock := lk, claimer := update s.claimer i p } := by
  refine ⟨hlock, fun j => ?_, hI.winner.set_quiet hold hnew, hI.fiber⟩
  by_cases hj : j = i
  · subst hj
    simp only [update_self]
    exact hci.frame rfl id fun _ => rfl
  · simp only [update_of_ne hj]
    exact (hI.claimer j).frame rfl id fun _ => rfl

theorem Inv.holds_update (hI : Inv s) (hp : p.holds ↔ (s.claimer i).holds) (j : ℕ) :
    s.lock = some j ↔ (update s.claimer i p j).holds := by
  by_cases hj : j = i
  · subst hj
    rw [update_self, hp]
    exact hI.lock j
  · rw [update_of_ne hj]
    exact hI.lock j

theorem quiet_afterLose (k : Kind) : (ClaimPc.finish k.afterLose).quiet :=
  no_effect_of_afterLose (suffix_refl _)

theorem unlock_mem_afterLose (k : Kind) : .unlock ∈ k.afterLose := by
  cases k <;> simp [Kind.afterLose]

theorem Kind.afterWin_mem (k : Kind) (events : ℕ) (c : ParkCommit) :
    .store (k.value events) ∈ k.afterWin events c ∧ .unlock ∈ k.afterWin events c ∧
      (c = .parked → .requeue ∈ k.afterWin events c) := by
  cases k <;> simp [Kind.afterWin]

theorem Inv.swap (hI : Inv s) {k : Kind} {cur : ParkCommit} (hpc : s.claimer i = .cas k cur)
    (hc : s.commit = cur) :
    Inv { s with
      commit := .woken
      claimer := update s.claimer i (.finish (k.afterWin s.events cur))
      wins := ⟨i, k, cur⟩ :: s.wins } := by
  have hci := hI.claimer i
  rw [hpc] at hci
  obtain ⟨happ, hcur⟩ := hci
  have hwins : s.wins = [] := hI.winner.unwon (hc ▸ hcur)
  have hreq : s.requeues = 0 := hI.winner.notRequeued (by simp [hwins])
  obtain ⟨hstore, hunlock, hrequeue⟩ := k.afterWin_mem s.events cur
  simp only [hwins]
  refine ⟨?_, fun j => ?_, ⟨by simp, by simp, by simpa using happ, fun w hw => ?_,
    fun w hw hp => ?_, fun _ => hreq⟩, ?_⟩
  · exact hI.holds_update (by simp [hpc, ClaimPc.holds, hunlock])
  · by_cases hj : j = i
    · subst hj
      simp only [update_self]
      exact .inr ⟨⟨j, k, cur⟩, rfl, rfl, suffix_refl _⟩
    · simp only [update_of_ne hj]
      exact (hI.claimer j).frame rfl (fun _ => rfl) fun hne => absurd hwins hne
  · obtain rfl := singleton_inj.mp hw
    exact .inr ⟨_, update_self _ _ _, hstore⟩
  · obtain rfl := singleton_inj.mp hw
    exact .inr ⟨hreq, _, update_self _ _ _, hrequeue hp⟩
  · -- a fiber that has not committed was claimed from ARMED, a committed one from PARKED
    have hf := hI.fiber
    have hcases : cur = .armed ∨ cur = .parked := by
      cases cur with
      | armed => exact .inl rfl
      | parked => exact .inr rfl
      | woken => exact absurd rfl hcur
    cases hfib : s.fiber with
    | leave exit e | returned exit e =>
      cases exit <;>
        simp only [FiberInv, State.uncommitted, hfib, hwins, hc, not_mem_nil,
          mem_singleton, forall_eq, reduceCtorEq, false_implies, ne_eq, not_false_eq_true,
          true_and, implies_true, and_true] at hf ⊢ <;>
        first | omega | (obtain rfl | rfl := hcases <;> simp_all)
    | _ =>
      simp only [FiberInv, State.uncommitted, hfib, hwins, hc, not_mem_nil,
        mem_singleton, forall_eq, reduceCtorEq, false_implies, ne_eq, not_false_eq_true,
        true_and, implies_true, and_true] at hf ⊢
      obtain rfl | rfl := hcases <;> simp_all

theorem Inv.woken_of_tail (hI : Inv s) (hl : s.claimer i = .finish l) (hne : l ≠ []) : s.commit = .woken := by
  have hc := hI.claimer i
  rw [hl] at hc
  obtain ⟨k, -, hwoken⟩ | ⟨w, hw, -⟩ := hc
  · exact hwoken hne
  · exact hI.winner.woken.mpr ⟨w, hw⟩

theorem Inv.claimInv_tail (hI : Inv s) {op : Op}
    (hl : s.claimer i = .finish (op :: l)) : ClaimInv s i (.finish l) := by
  have hc := hI.claimer i
  rw [hl] at hc
  obtain ⟨k, hk, hwoken⟩ | ⟨w, hw, hi, hsuf⟩ := hc
  · exact .inl ⟨k, (suffix_cons op l).trans hk, fun _ => hwoken (by simp)⟩
  · exact .inr ⟨w, hw, hi, (suffix_cons op l).trans hsuf⟩

theorem Inv.holds_tail (hI : Inv s) {op : Op} (hl : s.claimer i = .finish (op :: l))
    (hop : op ≠ .unlock) (j : ℕ) :
    s.lock = some j ↔ (update s.claimer i (.finish l) j).holds := by
  refine hI.holds_update ?_ j
  simp [hl, ClaimPc.holds, Ne.symm hop]

theorem Inv.claimer_tail (hI : Inv s) {op : Op}
    (hl : s.claimer i = .finish (op :: l)) (he : t.events = s.events) (hc : t.commit = s.commit)
    (hw : t.wins = s.wins) (j : ℕ) :
    ClaimInv t j (update s.claimer i (.finish l) j) := by
  by_cases hj : j = i
  · subst hj
    rw [update_self]
    exact (hI.claimInv_tail hl).frame he (fun h => hc.trans h) fun _ => hw
  · rw [update_of_ne hj]
    exact (hI.claimer j).frame he (fun h => hc.trans h) fun _ => hw

theorem WinInv.set_tail (hW : WinInv s) {op : Op}
    (hl : s.claimer i = .finish (op :: l)) (hstore : ∀ v, op ≠ .store v) (hreq : op ≠ .requeue)
    {lk : Option ℕ} {linked : Bool} :
    WinInv { s with
      lock := lk
      linked := linked
      claimer := update s.claimer i (.finish l) } := by
  have hmem : ∀ j l', update s.claimer i (.finish l) j = .finish l' →
      ∃ l'', s.claimer j = .finish l'' ∧ (∀ v, .store v ∈ l' → .store v ∈ l'') ∧
        (.requeue ∈ l' → .requeue ∈ l'') := by
    intro j l' hj
    by_cases hji : j = i
    · subst hji
      rw [update_self] at hj
      obtain rfl := ClaimPc.finish.inj hj
      exact ⟨_, hl, fun v hv => mem_cons_of_mem _ hv, mem_cons_of_mem _⟩
    · rw [update_of_ne hji] at hj
      exact ⟨l', hj, fun _ => id, id⟩
  have hkeep : ∀ j l' o, s.claimer j = .finish l' → o ∈ l' → o ≠ op →
      ∃ l'', update s.claimer i (.finish l) j = .finish l'' ∧ o ∈ l'' := by
    intro j l' o hj ho hne
    by_cases hji : j = i
    · subst hji
      rw [hl] at hj
      obtain rfl := ClaimPc.finish.inj hj
      exact ⟨l, update_self _ _ _, (mem_cons.mp ho).resolve_left hne⟩
    · exact ⟨l', by rwa [update_of_ne hji], ho⟩
  refine ⟨hW.woken, hW.unwon, hW.applies, fun w hw => ?_, fun w hw hp => ?_, hW.notRequeued⟩
  · obtain ⟨heq, hdone⟩ | ⟨l', hl', hs⟩ := hW.stored w hw
    · refine .inl ⟨heq, fun j l' v hj hv => ?_⟩
      obtain ⟨l'', hl'', hsub, -⟩ := hmem j l' hj
      exact hdone j l'' v hl'' (hsub v hv)
    · exact .inr (hkeep _ l' _ hl' hs (Ne.symm (hstore _)))
  · obtain ⟨h1, hnone⟩ | ⟨h0, l', hl', hr⟩ := hW.requeued w hw hp
    · refine .inl ⟨h1, fun j ⟨l', hj, hr⟩ => ?_⟩
      obtain ⟨l'', hl'', -, hsub⟩ := hmem j l' hj
      exact hnone j ⟨l'', hl'', hsub hr⟩
    · exact .inr ⟨h0, hkeep _ l' _ hl' hr (Ne.symm hreq)⟩

section

variable (hI : Inv s)
include hI

theorem Inv.opUnlink (hl : s.claimer i = .finish (.unlink :: l)) :
    Inv { s with linked := false, claimer := update s.claimer i (.finish l) } := by
  have hwoken := hI.woken_of_tail hl (by simp)
  refine ⟨hI.holds_tail hl (by simp), hI.claimer_tail hl rfl rfl rfl,
    hI.winner.set_tail hl (by simp) (by simp), ?_⟩
  have hf := hI.fiber
  cases hfib : s.fiber with
  | leave exit e | returned exit e =>
    cases exit <;> simp only [FiberInv, State.uncommitted, hfib, hwoken, reduceCtorEq,
      false_implies, and_true] at hf ⊢ <;> exact hf
  | _ =>
    simp only [FiberInv, State.uncommitted, hfib, hwoken, reduceCtorEq, false_implies, and_true] at hf ⊢
    first | exact hf | exact hf.1

theorem Inv.opUnlock (hl : s.claimer i = .finish (.unlock :: l)) :
    Inv { s with lock := none, claimer := update s.claimer i (.finish l) } := by
  have hheld : s.lock = some i := (hI.lock i).mpr (by simp [hl, ClaimPc.holds])
  have honce : .unlock ∉ l := by
    have hc := hI.claimer i
    rw [hl] at hc
    obtain ⟨k, hk, -⟩ | ⟨w, -, -, hsuf⟩ := hc
    · exact unlock_once_of_afterLose hk
    · exact (winTail_of_suffix hsuf).unlock_once l rfl
  refine ⟨fun j => ?_, hI.claimer_tail hl rfl rfl rfl, hI.winner.set_tail hl (by simp) (by simp), hI.fiber⟩
  by_cases hj : j = i
  · subst hj
    simpa [ClaimPc.holds] using honce
  · have hfree : ¬(s.claimer j).holds := by
      rw [← hI.lock j, hheld]
      simpa using Ne.symm hj
    simpa [update_of_ne hj] using hfree

theorem Inv.opStore {v : ℤ} (hl : s.claimer i = .finish (.store v :: l)) :
    Inv { s with readyMask := v, claimer := update s.claimer i (.finish l) } := by
  obtain ⟨w, hw, hi, htail⟩ := hI.winner_of_effect hl (.inl ⟨v, by simp⟩)
  have hv : v = w.kind.value s.events := htail.store_eq v (by simp)
  have howes : ∀ j, State.owesRequeue { s with
      readyMask := v, claimer := update s.claimer i (.finish l) } j ↔
      s.owesRequeue j := by
    intro j
    by_cases hj : j = i
    · subst hj
      simp [State.owesRequeue, hl]
    · simp only [State.owesRequeue, update_of_ne hj]
  refine ⟨hI.holds_tail hl (by simp), hI.claimer_tail hl rfl rfl rfl,
    ⟨hI.winner.woken, hI.winner.unwon, hI.winner.applies, fun w' hw' => ?_, fun w' hw' hp => ?_,
      hI.winner.notRequeued⟩, ?_⟩
  · obtain rfl : w = w' := singleton_inj.mp (hw.symm.trans hw')
    refine .inl ⟨hv, fun j l' u hj => ?_⟩
    by_cases hji : j = i
    · subst hji
      simp only [update_self, ClaimPc.finish.injEq] at hj
      exact hj ▸ htail.store_once v l rfl u
    · simp only [update_of_ne hji] at hj
      intro hu
      obtain ⟨w', hw', hi', -⟩ := hI.winner_of_effect hj (.inl ⟨u, hu⟩)
      obtain rfl : w = w' := singleton_inj.mp (hw.symm.trans hw')
      exact hji (hi'.symm.trans hi)
  · simp only [howes]
    exact hI.winner.requeued w' hw' hp
  · exact hI.fiber

theorem Inv.opRequeue (hl : s.claimer i = .finish (.requeue :: l)) : Inv { s with
      queued := s.queued + 1
      requeues := s.requeues + 1
      claimer := update s.claimer i (.finish l) } := by
  obtain ⟨w, hw, hi, htail⟩ := hI.winner_of_effect hl (.inr (by simp))
  have hparked := htail.requeue_parked (by simp)
  have hzero : s.requeues = 0 := by
    obtain ⟨-, hnone⟩ | ⟨h0, -⟩ := hI.winner.requeued w hw hparked
    · exact absurd ⟨_, hl, by simp⟩ (hnone i)
    · exact h0
  refine ⟨hI.holds_tail hl (by simp), hI.claimer_tail hl rfl rfl rfl,
    ⟨hI.winner.woken, hI.winner.unwon, hI.winner.applies, fun w' hw' => ?_, fun w' hw' hp => ?_,
      fun hno => absurd hparked (hno w (by simp [hw]))⟩, ?_⟩
  · obtain ⟨heq, hdone⟩ | ⟨l', hl', hs⟩ := hI.winner.stored w' hw'
    · refine .inl ⟨heq, fun j l' v hj hv => ?_⟩
      by_cases hji : j = i
      · subst hji
        simp only [update_self, ClaimPc.finish.injEq] at hj
        exact hdone j _ v hl (mem_cons_of_mem _ (hj ▸ hv))
      · simp only [update_of_ne hji] at hj
        exact hdone j l' v hj hv
    · refine .inr ?_
      obtain rfl : w = w' := singleton_inj.mp (hw.symm.trans hw')
      rw [hi, hl] at hl'
      obtain rfl := ClaimPc.finish.inj hl'
      exact ⟨l, by simp [hi], (mem_cons.mp hs).resolve_left (by simp)⟩
  · refine .inl ⟨by simp [hzero], fun j ⟨l', hj, hr⟩ => ?_⟩
    by_cases hji : j = i
    · subst hji
      simp only [update_self, ClaimPc.finish.injEq] at hj
      exact htail.requeue_once l rfl (hj ▸ hr)
    · simp only [update_of_ne hji] at hj
      obtain ⟨w', hw', hi', -⟩ := hI.winner_of_effect hj (.inr hr)
      obtain rfl : w = w' := singleton_inj.mp (hw.symm.trans hw')
      exact hji (hi'.symm.trans hi)
  · -- only a committed fiber was claimed from PARKED and is not re-queued yet
    have hf := hI.fiber
    cases hfib : s.fiber with
    | leave exit e | returned exit e =>
      cases exit <;> simp_all [FiberInv, State.uncommitted]
    | _ => simp_all [FiberInv, State.uncommitted]

theorem Inv.claimerStep (h : claimerStep s i = some t) : Inv t := by
  have hci := hI.claimer i
  cases hpc : s.claimer i with
  | load k =>
    rw [hpc] at hci
    simp only [Commit.claimerStep, hpc] at h
    split at h <;> cases h
    · rename_i hwoken
      refine hI.set_claimer (by simp [hpc, ClaimPc.quiet]) (quiet_afterLose k)
        (.inl ⟨k, suffix_refl _, fun _ => hwoken⟩) (hI.holds_update ?_)
      simp [hpc, ClaimPc.holds, unlock_mem_afterLose]
    · rename_i hwoken
      exact hI.set_claimer (by simp [hpc, ClaimPc.quiet]) trivial ⟨hci, hwoken⟩
        (hI.holds_update (by simp [hpc, ClaimPc.holds]))
  | cas k cur =>
    rw [hpc] at hci
    simp only [Commit.claimerStep, hpc] at h
    split at h <;> cases h
    · exact hI.swap hpc ‹_›
    · exact hI.set_claimer (by simp [hpc, ClaimPc.quiet]) trivial hci.1
        (hI.holds_update (by simp [hpc, ClaimPc.holds]))
  | finish l =>
    cases l with
    | nil => simp [Commit.claimerStep, hpc] at h
    | cons op l =>
      simp only [Commit.claimerStep, hpc, Option.some.injEq] at h
      subst h
      cases op with
      | store v => exact hI.opStore hpc
      | unlink => exact hI.opUnlink hpc
      | requeue => exact hI.opRequeue hpc
      | unlock => exact hI.opUnlock hpc

theorem Inv.step {a : Action} (h : step s a = some t) : Inv t := by
  have hf := hI.fiber
  cases a with
  | link =>
    simp only [Commit.step] at h
    split at h
    · rename_i hcond
      cases h
      simp only [FiberInv, hcond.1] at hf
      exact hI.set_fiber (q := s.queued) ⟨hf.1, fun _ => rfl⟩
    · cases h
  | consume pending =>
    simp only [Commit.step] at h
    split at h
    · rename_i afterRegister hpc
      simp only [FiberInv, hpc] at hf
      split at h <;> cases h
      · exact hI.set_fiber (b := s.linked) (q := s.queued) hf
      · refine hI.set_fiber (b := s.linked) (q := s.queued) ?_
        cases afterRegister <;> exact hf
    · cases h
  | register ok =>
    simp only [Commit.step] at h
    split at h
    · rename_i hpc
      simp only [FiberInv, hpc] at hf
      cases h
      refine hI.set_fiber (b := s.linked) (q := s.queued) ?_
      cases ok <;> exact hf
    · cases h
  | commit =>
    simp only [Commit.step] at h
    split at h
    · rename_i hpc
      simp only [FiberInv, hpc] at hf
      split at h <;> cases h
      · exact hI.commit hpc ‹_›
      · rename_i hc
        refine hI.set_fiber (b := s.linked) (q := s.queued) ⟨hf.1, ?_⟩
        have hnp := hf.1.1
        cases hcm : s.commit with
        | armed => exact absurd hcm hc
        | parked => exact absurd hcm hnp
        | woken => rfl
    · cases h
  | leave =>
    simp only [Commit.step] at h
    split at h
    · rename_i hpc
      split at h <;> cases h
      exact hI.leave hpc ‹_›
    · cases h
  | yield =>
    simp only [Commit.step] at h
    split at h
    · rename_i hpc
      simp only [FiberInv, hpc] at hf
      cases h
      exact hI.set_fiber (b := s.linked) (q := s.queued) hf
    · cases h
  | resume =>
    simp only [Commit.step] at h
    split at h
    · rename_i hcond
      simp only [FiberInv, hcond.1] at hf
      cases h
      refine hI.set_fiber (b := s.linked) (show s.requeues = 1 from ?_)
      have hpos : s.requeues ≠ 0 := by omega
      obtain ⟨w, hw, hp⟩ := hI.winner.parked_of_requeues hpos
      obtain ⟨h1, -⟩ | ⟨h0, -⟩ := hI.winner.requeued w hw hp
      · exact h1
      · exact absurd h0 hpos
    · cases h
  | claim i k =>
    simp only [Commit.step] at h
    split at h
    · rename_i hcond
      obtain ⟨hidle, hlock, -, happ⟩ := hcond
      cases h
      refine hI.set_claimer (by simp [hidle, ClaimPc.quiet]) trivial happ fun j => ?_
      by_cases hj : j = i
      · subst hj
        simp [ClaimPc.holds]
      · have hfree : ¬(s.claimer j).holds := by
          rw [← hI.lock j, hlock]
          simp
        simpa [update_of_ne hj, Ne.symm hj] using hfree
    · cases h
  | claimer i => exact hI.claimerStep h

end

theorem Inv.init (h : Init s) : Inv s := by
  refine ⟨fun i => ?_, fun i => ?_, ⟨?_, fun _ => h.wins, ?_, ?_, ?_, fun _ => h.requeues⟩, ?_⟩
  · simp [h.lock, h.claimer, ClaimPc.holds]
  · rw [h.claimer]
    exact .inl ⟨.cancelG, nil_suffix, by simp⟩
  · simp [h.commit, h.wins]
  · simp [h.wins]
  · simp [h.wins]
  · simp [h.wins]
  · simp [FiberInv, State.uncommitted, h.fiber, h.commit, h.linked, h.queued, h.wins]

theorem waitFd_inv (h : waitFd.Reachable s) : Inv s :=
  h.invariant (fun _ => Inv.init) fun _ _ _ hI _ ha => hI.step ha

/-! ## The protocol's promises -/

theorem WinInv.requeue_iff (hW : WinInv s) (howes : ∀ i, s.owesRequeue i →
      ∃ w, s.wins = [w] ∧ w.claimer = i ∧ w.claimedFrom = .parked) :
    ((∃ w ∈ s.wins, w.claimedFrom = .parked) ↔ s.requeues = 1 ∨ ∃ i, s.owesRequeue i) ∧
      s.requeues ≤ 1 ∧ (s.requeues = 1 → ∀ i, ¬s.owesRequeue i) := by
  by_cases hp : ∃ w ∈ s.wins, w.claimedFrom = .parked
  · obtain ⟨w, hw, hparked⟩ := hp
    obtain ⟨h1, hnone⟩ | ⟨h0, how⟩ := hW.requeued w (hW.eq_singleton hw) hparked
    · exact ⟨iff_of_true ⟨w, hw, hparked⟩ (.inl h1), by omega, fun _ => hnone⟩
    · exact ⟨iff_of_true ⟨w, hw, hparked⟩ (.inr ⟨_, how⟩), by omega, by omega⟩
  · have h0 : s.requeues = 0 := hW.notRequeued fun w hw hparked => hp ⟨w, hw, hparked⟩
    refine ⟨iff_of_false hp ?_, by omega, by omega⟩
    rintro (h1 | ⟨i, hi⟩)
    · omega
    · obtain ⟨w, hw, -, hparked⟩ := howes i hi
      exact hp ⟨w, by simp [hw], hparked⟩

theorem Inv.reachable_of_committed (hI : Inv s) (hc : s.committed) :
    s.linked = true ∨ 0 < s.queued ∨ ∃ w ∈ s.wins, s.owesRequeue w.claimer := by
  have hf : s.commit ≠ .armed ∧ (∀ w ∈ s.wins, w.claimedFrom = .parked) ∧
      s.queued = s.requeues ∧ (s.commit = .parked → s.linked = true) := by
    have hf := hI.fiber
    obtain hpc | hpc := hc <;> simpa only [FiberInv, hpc] using hf
  obtain ⟨hna, hfrom, hq, hlinked⟩ := hf
  cases hcm : s.commit with
  | armed => exact absurd hcm hna
  | parked => exact .inl (hlinked hcm)
  | woken =>
    obtain ⟨w, hw⟩ := hI.winner.woken.mp hcm
    have hmem : w ∈ s.wins := by simp [hw]
    obtain ⟨h1, -⟩ | ⟨-, how⟩ := hI.winner.requeued w hw (hfrom w hmem)
    · exact .inr (.inl (by omega))
    · exact .inr (.inr ⟨w, hmem, how⟩)

/-- There is one winner; one re-queue, when it claimed from `PARKED`; and the exits return its value. -/
theorem waitFd_exactly_one_wake (h : waitFd.Reachable s) : s.wins.length ≤ 1 ∧
    ((∃ w ∈ s.wins, w.claimedFrom = .parked) ↔ s.requeues = 1 ∨ ∃ i, s.owesRequeue i) ∧
    s.requeues ≤ 1 ∧ (s.requeues = 1 → ∀ i, ¬s.owesRequeue i) ∧
    (∀ i, s.owesRequeue i → (step s (.claimer i)).isSome) ∧
    (s.committed → s.linked = true ∨ 0 < s.queued ∨ ∃ w ∈ s.wins, s.owesRequeue w.claimer) ∧
    ∀ exit r, s.fiber = .returned exit r → exit ≠ .early → ∃ w, s.wins = [w] ∧ r = w.kind.value s.events := by
  have hI := waitFd_inv h
  have howes : ∀ i, s.owesRequeue i → ∃ w, s.wins = [w] ∧ w.claimer = i ∧ w.claimedFrom = .parked := by
    rintro i ⟨l, hl, hr⟩
    obtain ⟨w, hw, hi, htail⟩ := hI.winner_of_effect hl (.inr hr)
    exact ⟨w, hw, hi, htail.requeue_parked hr⟩
  obtain ⟨hiff, hle, honce⟩ := hI.winner.requeue_iff howes
  refine ⟨?_, hiff, hle, honce, ?_, hI.reachable_of_committed, ?_⟩
  · by_cases hc : s.commit = .woken
    · obtain ⟨w, hw⟩ := hI.winner.woken.mp hc
      simp [hw]
    · simp [hI.winner.unwon hc]
  · rintro i ⟨l, hl, hr⟩
    obtain ⟨op, l', rfl⟩ := exists_cons_of_ne_nil (ne_nil_of_mem hr)
    simp [step, claimerStep, hl]
  · intro exit r hpc hne
    have hf := hI.fiber
    cases exit with
    | early => exact absurd rfl hne
    | commitFailed =>
      simp only [FiberInv, hpc] at hf
      obtain ⟨w, hw⟩ := hI.winner.woken.mp hf.2.1
      exact ⟨w, hw, hf.2.2 w (by simp [hw])⟩
    | postPark =>
      simp only [FiberInv, hpc] at hf
      obtain ⟨w, hw, -⟩ := hI.winner.parked_of_requeues (by omega)
      exact ⟨w, hw, hf.2 w (by simp [hw])⟩

def beforeLink : State where
  events := 1
  commit := .armed
  lock := none
  linked := false
  readyMask := 0
  queued := 0
  fiber := .link
  claimer := fun _ => .finish []
  wins := []
  requeues := 0

/-- The drain's swap from `ARMED` fails and it claims from `PARKED`. -/
def expiryRacesCommit : List Action :=
  [.link, .consume 0, .register true, .consume 0, .claim 0 .expired, .claimer 0, .commit,
    .claimer 0, .claimer 0, .claimer 0, .yield, .claimer 0, .claimer 0, .claimer 0, .claimer 0,
    .resume, .leave]

theorem waitFd_exactly_one_wake_expiry :
    ∃ s, waitFd.run beforeLink expiryRacesCommit = some s ∧ s.fiber = .returned .postPark 0 ∧
      s.requeues = 1 ∧ ∃ w, s.wins = [w] ∧ 0 = w.kind.value s.events := by
  obtain ⟨s, hr, hs, hp⟩ := System.exists_reachable_of_run (M := waitFd) (s := beforeLink)
    (p := fun s => decide (s.fiber = .returned .postPark 0 ∧ s.requeues = 1))
    expiryRacesCommit ⟨rfl, rfl, rfl, rfl, rfl, fun _ => rfl, rfl, rfl⟩ (by decide +kernel)
  obtain ⟨hpc, hreq⟩ := of_decide_eq_true hp
  exact ⟨s, hr, hpc, hreq, (waitFd_exactly_one_wake hs).2.2.2.2.2.2 _ _ hpc (by decide)⟩

end Runloom.Netpoll.Commit
