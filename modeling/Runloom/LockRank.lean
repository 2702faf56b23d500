import Mathlib.Data.Finset.Max
import Mathlib.Data.List.Perm.Subperm
import Runloom.Transition.System

/-!
# Lock ranks

Model of the lock-order checker: `RUNLOOM_RLOCK` and `RUNLOOM_RUNLOCK` in a build with `RUNLOOM_CTXCHECK`, by any number
of threads.  A rank goes onto the stack of its thread before the mutex is waited for; the pop after an unlock touches
no other thread, so the two are one step.
-/

namespace Runloom.LockRank

open Transition List

inductive Rank where
  | none | mnCtrl | hub | simLedger | greg | hubTstate | arenaInit | globalRunq | chan | hubIdle | hubSub | wakeList
  | parkerPool | iouringSub | iouSigwaiter | sleepSigwaiter | iouringBring | blockpool | ringList | globalStack
  | advice | cal | trace | max
deriving DecidableEq

def Rank.val : Rank → ℕ
  | .none => 0 | .mnCtrl => 5 | .hub => 10 | .simLedger => 15 | .greg => 20 | .hubTstate => 30
  | .arenaInit => 35 | .globalRunq => 40 | .chan => 50 | .hubIdle => 55 | .hubSub => 60 | .wakeList => 70
  | .parkerPool => 80 | .iouringSub => 85 | .iouSigwaiter => 86 | .sleepSigwaiter => 87 | .iouringBring => 88
  | .blockpool => 90 | .ringList => 100 | .globalStack => 110 | .advice => 120 | .cal => 130 | .trace => 140
  | .max => 150

/-- `RUNLOOM_LOCKRANK_DEPTH`. -/
def maxDepth : ℕ := 32

/-- `waits` is the mutex in whose `runloom_mutex_lock` a thread is, and `printed` the lines that came out. -/
structure State (T M : Type*) where
  waits : T → Option M
  held : T → List Rank
  owner : M → Option T
  printed : List (Rank × Rank)

inductive Action (T M : Type*) where
  | rlock (t : T) (m : M)
  | acquire (t : T) (m : M)
  | runlock (t : T) (m : M)

namespace State

variable {T M : Type*}

/-- `runloom_lockrank_violation`: its table has the first 64 lines, which are not repeated. -/
def violation (s : State T M) (p : Rank × Rank) : State T M :=
  if p ∈ s.printed.take 64 then s else { s with printed := s.printed ++ [p] }

variable [DecidableEq T] [DecidableEq M] (rank : M → Rank)

/-- `runloom_lockrank_push`, which reports the first conflict only. -/
def push (s : State T M) (t : T) (r : Rank) : State T M :=
  let s' := { s with held := update s.held t (if (s.held t).length < maxDepth then s.held t ++ [r] else s.held t) }
  match (s.held t).find? fun h => r.val ≤ h.val with
  | some h => s'.violation (h, r)
  | none => s'

/-- `runloom_lockrank_pop` of the topmost match. -/
def pop (s : State T M) (t : T) (r : Rank) : State T M :=
  { s with held := update s.held t ((s.held t).reverse.erase r).reverse }

omit [DecidableEq T] [DecidableEq M] in
/-- `runloom_ctx_assert_parkable`: the rank and the depth that it reports. -/
def assertParkable (s : State T M) (t : T) (noyield : ℕ) : Option (Rank × ℕ) :=
  match (s.held t).getLast? with
  | some r => some (r, noyield)
  | none => if 0 < noyield then some (.none, noyield) else none

def step (s : State T M) : Action T M → Option (State T M)
  | .rlock t m => if s.waits t = none then some { s.push t (rank m) with waits := update s.waits t (some m) } else none
  | .acquire t m =>
    if s.waits t = some m ∧ s.owner m = none then
      some { s with waits := update s.waits t none, owner := update s.owner m (some t) }
    else none
  | .runlock t m =>
    if s.waits t = none ∧ s.owner m = some t then some ({ s with owner := update s.owner m none }.pop t (rank m))
    else none

end State

variable {T M : Type*} [DecidableEq T] [DecidableEq M] {rank : M → Rank} {s s' : State T M} {a : Action T M} {t u : T}
  {m : M} {r : Rank}

def locks (rank : M → Rank) : System (State T M) (Action T M) where
  init s := s = ⟨fun _ => none, fun _ => [], fun _ => none, []⟩
  step := State.step rank

/-- Each thread of the set waits for a mutex that a thread of the set has. -/
def Deadlocked (s : State T M) (ts : Finset T) : Prop :=
  ts.Nonempty ∧ ∀ t ∈ ts, ∃ m, s.waits t = some m ∧ ∃ u ∈ ts, s.owner m = some u

/-- What the stack of a thread tells. -/
structure Known (rank : M → Rank) (s : State T M) (t : T) : Prop where
  sorted : (s.held t).Pairwise (·.val < ·.val)
  owned : ∀ m, s.owner m = some t → rank m ∈ s.held t
  apart : ∀ m n, s.owner m = some t → s.owner n = some t → rank m = rank n → m = n
  waits : ∀ m, s.waits t = some m → rank m ∈ s.held t ∧ ∀ n, s.owner n = some t → (rank n).val < (rank m).val

/-- The stack has more places than there are ranks. -/
theorem length_lt_maxDepth {l : List Rank} (h : l.Pairwise (·.val < ·.val)) : l.length < maxDepth := by
  have hn : (l.map Rank.val).Nodup := pairwise_map.mpr (h.imp fun hlt => hlt.ne)
  have hsub : l.map Rank.val ⊆ [0, 5, 10, 15, 20, 30, 35, 40, 50, 55, 60, 70, 80, 85, 86, 87, 88, 90, 100, 110, 120, 130,
      140, 150] := by
    intro x hx
    obtain ⟨r, -, rfl⟩ := mem_map.mp hx
    cases r <;> decide
  have hle := (hn.subperm hsub).length_le
  rw [length_map] at hle
  exact hle.trans_lt (by decide)

/-- As long as nothing was printed, the stacks are right. -/
def Sound (rank : M → Rank) (s : State T M) : Prop :=
  s.printed = [] → ∀ t, Known rank s t

omit [DecidableEq M] in
/-- A push that prints nothing met no conflict. -/
theorem Sound.push (h : Sound rank s) (hq : (s.push t r).printed = []) :
    (∀ t, Known rank s t) ∧ (∀ h ∈ s.held t, h.val < r.val) ∧
      s.push t r = { s with held := update s.held t (s.held t ++ [r]) } := by
  unfold State.push at hq ⊢
  cases hf : (s.held t).find? fun h => r.val ≤ h.val with
  | none =>
    rw [hf] at hq
    have hk := h hq
    rw [if_pos (length_lt_maxDepth (hk t).sorted)]
    exact ⟨hk, fun h hh => by simpa using find?_eq_none.mp hf h hh, rfl⟩
  | some c =>
    simp only [hf, State.violation] at hq
    split at hq
    · next hmem => simp [show s.printed = [] from hq] at hmem
    · simp at hq

omit [DecidableEq T] in
theorem owner_of_update {v : Option T} {n : M} (hv : v ≠ some u) (h : update s.owner m v n = some u) :
    n ≠ m ∧ s.owner n = some u := by
  by_cases hnm : n = m
  · rw [hnm, update_self] at h
    exact absurd h hv
  · exact ⟨hnm, by rwa [update_of_ne hnm] at h⟩

omit [DecidableEq T] [DecidableEq M] in
theorem Known.of_frame (h : Known rank s t) (hwaits : s'.waits t = s.waits t) (hheld : s'.held t = s.held t)
    (hown : ∀ n, s'.owner n = some t → s.owner n = some t) : Known rank s' t where
  sorted := hheld ▸ h.sorted
  owned n hn := hheld ▸ h.owned n (hown n hn)
  apart m n hm hn := h.apart m n (hown m hm) (hown n hn)
  waits m hm := hheld ▸ (h.waits m (hwaits ▸ hm)).imp_right fun hlt n hn => hlt n (hown n hn)

omit [DecidableEq M] in
theorem Known.rlock (h : Known rank s t) (hlt : ∀ h ∈ s.held t, h.val < (rank m).val) :
    Known rank { s with held := update s.held t (s.held t ++ [rank m]), waits := update s.waits t (some m) } t := by
  refine ⟨?_, fun n hn => ?_, h.apart, fun n hn => ?_⟩ <;> simp only [update_self] at *
  · exact pairwise_append.mpr ⟨h.sorted, pairwise_singleton _ _, fun a ha b hb => mem_singleton.mp hb ▸ hlt a ha⟩
  · exact mem_append_left _ (h.owned n hn)
  · cases hn
    exact ⟨mem_append_right _ (mem_singleton_self _), fun k hk => hlt _ (h.owned k hk)⟩

theorem Known.acquire (h : Known rank s t) (hw : s.waits t = some m) :
    Known rank { s with waits := update s.waits t none, owner := update s.owner m (some t) } t := by
  obtain ⟨hmem, hlt⟩ := h.waits m hw
  have hold : ∀ n, update s.owner m (some t) n = some t → n = m ∨ s.owner n = some t := by
    intro n hn
    by_cases hnm : n = m
    · exact .inl hnm
    · exact .inr (by rwa [update_of_ne hnm] at hn)
  refine ⟨h.sorted, fun n hn => ?_, fun k n hk hn he => ?_, fun n hn => ?_⟩
  · rcases hold n hn with rfl | hn
    · exact hmem
    · exact h.owned n hn
  -- The rank of the new mutex is above all others.
  · rcases hold k hk with rfl | hk' <;> rcases hold n hn with rfl | hn'
    · rfl
    · exact absurd (he ▸ hlt n hn') (lt_irrefl _)
    · exact absurd (he ▸ hlt k hk') (lt_irrefl _)
    · exact h.apart k n hk' hn' he
  · simp only [update_self] at hn
    cases hn

theorem Known.runlock (h : Known rank s t) (hw : s.waits t = none) (hown : s.owner m = some t) :
    Known rank ({ s with owner := update s.owner m none }.pop t (rank m)) t := by
  have hold := fun n => owner_of_update (s := s) (m := m) (v := none) (u := t) nofun (n := n)
  refine ⟨?_, fun n hn => ?_, fun k n hk hn => h.apart k n (hold k hk).2 (hold n hn).2, fun n hn => ?_⟩
  · simp only [State.pop, update_self]
    exact h.sorted.sublist (by simpa using (erase_sublist (l := (s.held t).reverse)).reverse)
  · simp only [State.pop, update_self, mem_reverse]
    obtain ⟨hnm, hn⟩ := hold n hn
    -- The rank that goes is of this mutex alone.
    refine (mem_erase_of_ne fun he => hnm (h.apart n m hn hown he)).mpr (mem_reverse.mpr (h.owned n hn))
  · rw [show s.waits t = some n from hn] at hw
    cases hw

theorem Sound.step (h : Sound rank s) (hs : (locks rank).step s a = some s') : Sound rank s' := by
  intro hq
  cases a with
  | rlock t m =>
    obtain ⟨-, ⟨⟩⟩ := Option.ite_none_right_eq_some.mp hs
    obtain ⟨hk, hlt, heq⟩ := h.push hq
    rw [heq]
    intro u
    by_cases hu : u = t
    · exact hu ▸ (hk t).rlock hlt
    · exact (hk u).of_frame (update_of_ne hu ..) (update_of_ne hu ..) fun _ hn => hn
  | acquire t m =>
    obtain ⟨⟨hw, hfree⟩, ⟨⟩⟩ := Option.ite_none_right_eq_some.mp hs
    have hk := h hq
    intro u
    by_cases hu : u = t
    · exact hu ▸ (hk t).acquire hw
    · exact (hk u).of_frame (update_of_ne hu ..) rfl fun n hn =>
        (owner_of_update (fun h => hu (Option.some.inj h).symm) hn).2
  | runlock t m =>
    obtain ⟨⟨hw, hown⟩, ⟨⟩⟩ := Option.ite_none_right_eq_some.mp hs
    have hk := h hq
    intro u
    by_cases hu : u = t
    · exact hu ▸ (hk t).runlock hw hown
    · exact (hk u).of_frame rfl (update_of_ne hu ..) fun n hn => (owner_of_update (v := none) nofun hn).2

/-- A run of which the checker printed nothing is not in a deadlock, and a thread that may park has no mutex. -/
theorem quiet_safe (h : (locks rank).Reachable s) (hq : s.printed = []) :
    (∀ ts, ¬Deadlocked s ts) ∧ ∀ t k, s.assertParkable t k = none → k = 0 ∧ ∀ m, s.owner m ≠ some t := by
  have hsound : Sound rank s := by
    refine h.invariant (P := Sound rank) ?_ fun _ _ _ hI _ hs => hI.step hs
    rintro _ rfl - t
    exact ⟨.nil, nofun, nofun, nofun⟩
  have hk := hsound hq
  constructor
  · rintro ts ⟨hne, hwait⟩
    -- The thread that waits for the highest rank waits for a thread that waits for a higher one.
    obtain ⟨t, ht, hmax⟩ := ts.exists_max_image (fun t => (s.waits t).elim 0 fun m => (rank m).val) hne
    obtain ⟨m, hm, u, hu, hown⟩ := hwait t ht
    obtain ⟨n, hn, -⟩ := hwait u hu
    have hle := hmax u hu
    simp only [hm, hn, Option.elim_some] at hle
    exact absurd hle (not_le.mpr (((hk u).waits n hn).2 m hown))
  · intro t k hp
    unfold State.assertParkable at hp
    split at hp
    · cases hp
    next hheld =>
      rw [getLast?_eq_none_iff] at hheld
      refine ⟨by simpa using hp, fun m hm => ?_⟩
      have hmem := (hk t).owned m hm
      rw [hheld] at hmem
      cases hmem

/-- Thread 0 waits for the mutex of thread 1, which has the higher rank, and thread 2 may park. -/
theorem quiet_safe_nested : ∃ s, (locks fun m : Bool => if m then .parkerPool else .chan).Reachable s ∧
      s.waits (0 : Fin 3) = some true ∧ s.owner false = some 0 ∧ s.owner true = some 1 ∧
      (∀ ts, ¬Deadlocked s ts) ∧ ∀ m, s.owner m ≠ some 2 := by
  obtain ⟨s, hr, hw, h0, h1, hp, hq⟩ := (locks fun m : Bool => if m then .parkerPool else .chan).reaches
    (fun s => s.waits (0 : Fin 3) = some true ∧ s.owner false = some 0 ∧ s.owner true = some 1 ∧
      s.assertParkable 2 0 = none ∧ s.printed = [])
    [.rlock 0 false, .acquire 0 false, .rlock 1 true, .acquire 1 true, .rlock 0 true]
    (s := ⟨fun _ => none, fun _ => [], fun _ => none, []⟩) rfl (by decide +kernel)
  obtain ⟨hfree, hpark⟩ := quiet_safe hr hq
  exact ⟨s, hr, hw, h0, h1, hfree, (hpark 2 0 hp).2⟩

end Runloom.LockRank
