import Mathlib.Data.Fintype.BigOperators
import Runloom.Transition.Update
import Runloom.Wakep.Model

/-!
# The count of registered hubs, and who looks at whom

A registered hub has looked at every place where work is found, one after the other.  Work that comes to a place it
has looked at is published by a call that has still to look at the hub's flag: the hub's store was before its look,
and the call's look comes after its push.
-/

namespace Runloom.Wakep

open Transition

variable {n : ℕ} {P : Type*} [DecidableEq P] {cfg : Config n} {s u : State n P} {t : Thread n P} {i : Fin n}
  {c : Pc n} {l : Loc n}

/-! ## The count -/

/-- What the thread has still to do at the counter, with the opposite sign. -/
def Pc.owed : Pc n → ℤ
  | .add => -1
  | .exitSub | .foundSub | .sub _ => 1
  | _ => 0

theorem owed_nonneg (h : c ≠ .add) : 0 ≤ c.owed := by
  unfold Pc.owed
  split
  · exact absurd rfl h
  all_goals decide

def Pc.registers : Pc n → Bool
  | .add | .scanRunq | .scanBottom _ | .scanTop _ _ _ | .foundCas | .blocked | .top | .exitCas => true
  | _ => false

def parked (b : Bool) : ℤ := if b then 1 else 0

variable [Fintype P]

structure Ledger (s : State n P) : Prop where
  flag : ∀ i, s.idleParked i = true → (s.pc (.inl i)).registers = true
  count : s.nidle = ∑ i, parked (s.idleParked i) + ∑ t, (s.pc t).owed
  other : ∀ p, s.pc (.inr p) ≠ .add

omit [DecidableEq P] in
theorem Ledger.init (h : Init s) : Ledger s where
  flag i hi := by
    rw [h.idleParked] at hi
    cases hi
  count := by simp [h.nidle, h.idleParked, h.pc, parked, Pc.owed]
  other p := by
    rw [h.pc]
    exact nofun

section

variable (hL : Ledger s)
include hL

theorem Ledger.move (hpc : u.pc = update s.pc t c) (hflags : u.idleParked = s.idleParked)
    (hnidle : u.nidle - c.owed = s.nidle - (s.pc t).owed)
    (hreg : ∀ i, t = .inl i → s.idleParked i = true → c.registers = true)
    (hother : ∀ p, t = .inr p → c ≠ .add) : Ledger u := by
  refine ⟨fun i hi => ?_, ?_, fun p => ?_⟩
  · rw [hflags] at hi
    rw [hpc]
    by_cases ht : Sum.inl i = t
    · subst ht
      rw [update_self]
      exact hreg i rfl hi
    · rw [update_of_ne ht]
      exact hL.flag i hi
  · have hcount := hL.count
    rw [hpc, hflags, sum_comp_update (Finset.mem_univ t) Pc.owed]
    omega
  · rw [hpc]
    by_cases ht : Sum.inr p = t
    · subst ht
      rw [update_self]
      exact hother p rfl
    · rw [update_of_ne ht]
      exact hL.other p

theorem Ledger.set {b : Bool} (hpc : u.pc = update s.pc t c) (hflags : u.idleParked = update s.idleParked i b)
    (hnidle : u.nidle = s.nidle)
    (howed : parked b + c.owed = parked (s.idleParked i) + (s.pc t).owed)
    (hreg : ∀ j, t = .inl j → u.idleParked j = true → c.registers = true)
    (hset : b = true → t = .inl i) (hother : ∀ p, t = .inr p → c ≠ .add) : Ledger u := by
  refine ⟨fun j hj => ?_, ?_, fun p => ?_⟩
  · rw [hpc]
    by_cases ht : Sum.inl j = t
    · subst ht
      rw [update_self]
      exact hreg j rfl hj
    · rw [update_of_ne ht]
      refine hL.flag j ?_
      rw [hflags] at hj
      by_cases hji : j = i
      · subst hji
        rw [update_self] at hj
        exact absurd (hset hj).symm ht
      · rwa [update_of_ne hji] at hj
  · have hcount := hL.count
    rw [hpc, hflags, sum_comp_update (Finset.mem_univ t) Pc.owed, sum_comp_update (Finset.mem_univ i) parked]
    omega
  · rw [hpc]
    by_cases ht : Sum.inr p = t
    · subst ht
      rw [update_self]
      exact hother p rfl
    · rw [update_of_ne ht]
      exact hL.other p

theorem Ledger.clear {won lost : Pc n} (howed : (s.pc t).owed = 0) (hwon : won.owed = 1)
    (hlost : lost.owed = 0) (hself : ∀ j, t = .inl j → i = j ∨ s.idleParked j = false)
    (hne : won ≠ .add ∧ lost ≠ .add) : Ledger (s.clear t i won lost) := by
  unfold State.clear
  split
  next hi =>
    refine hL.set (t := t) (c := won) (i := i) (b := false) rfl rfl rfl ?_ (fun j hj hjt => ?_) nofun
      fun _ _ => hne.1
    · rw [howed, hwon, hi]
      rfl
    · have hjt : update s.idleParked i false j = true := hjt
      rcases hself j hj with rfl | hfalse
      · rw [update_self] at hjt
        cases hjt
      · by_cases hji : j = i
        · subst hji
          rw [update_self] at hjt
          cases hjt
        · rw [update_of_ne hji, hfalse] at hjt
          cases hjt
  next hi =>
    refine hL.move (t := t) (c := lost) rfl rfl (by rw [howed, hlost]; rfl) (fun j hj hjt => ?_) fun _ _ => hne.2
    rcases hself j hj with rfl | hfalse
    · exact absurd hjt hi
    · rw [hfalse] at hjt
      cases hjt

omit [DecidableEq P] in
theorem Ledger.down (h : (s.pc (.inl i)).registers = false) : s.idleParked i = false := by
  cases hi : s.idleParked i with
  | false => rfl
  | true =>
    rw [hL.flag i hi] at h
    cases h

theorem Ledger.goto (howed : (s.pc t).owed = 0) (hc : c.owed = 0)
    (hreg : (s.pc t).registers = false ∨ c.registers = true) : Ledger (s.goto t c) := by
  refine hL.move (t := t) (c := c) rfl rfl (by rw [howed, hc]; rfl) (fun i ht hi => ?_) fun p _ hadd => ?_
  · rcases hreg with hs | hc
    · subst ht
      rw [hL.down hs] at hi
      cases hi
    · exact hc
  · rw [hadd] at hc
    cases hc

theorem Ledger.finish {o : Outcome} (howed : (s.pc t).owed = 0)
    (hreg : (s.pc t).registers = false) : Ledger (s.finish t o) := by
  refine hL.move (t := t) (c := .run) rfl rfl (by rw [howed]; rfl) (fun i ht hi => ?_) fun _ _ => nofun
  subst ht
  rw [hL.down hreg] at hi
  cases hi

theorem Ledger.dec (howed : (s.pc t).owed = 1) (hc : c.owed = 0)
    (hreg : (s.pc t).registers = false) : Ledger ({ s with nidle := s.nidle - 1 }.goto t c) := by
  refine hL.move (t := t) (c := c) rfl rfl ?_ (fun i ht hi => ?_) fun p _ hadd => ?_
  · show s.nidle - 1 - c.owed = _
    omega
  · subst ht
    rw [hL.down hreg] at hi
    cases hi
  · rw [hadd] at hc
    cases hc

theorem Ledger.next (h : s.next cfg t = some u) : Ledger u := by
  unfold State.next at h
  split at h
  next i hpc =>
    cases h
    refine hL.move (t := .inl i) rfl rfl ?_ (fun j hj hi => ?_) nofun
    · rw [hpc]
      split <;> rfl
    · cases hj
      rw [if_pos hi]
      rfl
  next i hpc =>
    cases h
    exact hL.clear (by rw [hpc]; rfl) rfl rfl (fun j hj => .inl (Sum.inl.inj hj)) ⟨nofun, nofun⟩
  next hpc =>
    cases h
    exact hL.dec (by rw [hpc]; rfl) rfl (by rw [hpc]; rfl)
  next hpc =>
    cases h
    exact hL.goto (by rw [hpc]; rfl) rfl (.inl (by rw [hpc]; rfl))
  next i hpc =>
    cases h
    exact hL.goto (by rw [hpc]; rfl) rfl (.inl (by rw [hpc]; rfl))
  next b i hpc =>
    cases h
    split
    · exact hL.goto (by rw [hpc]; rfl) rfl (.inl (by rw [hpc]; rfl))
    · exact hL.finish (by rw [hpc]; rfl) (by rw [hpc]; rfl)
  next i hpc =>
    cases h
    split <;> (exact hL.goto (by rw [hpc]; rfl) rfl (.inl (by rw [hpc]; rfl)))
  -- The store: the flag is up and the increment is owed.
  next i hpc =>
    cases h
    refine hL.set (t := .inl i) (c := .add) (i := i) (b := true) rfl rfl rfl ?_ (fun _ _ _ => rfl) (fun _ => rfl) nofun
    rw [hpc, hL.down (by rw [hpc]; rfl)]
    rfl
  next i hpc =>
    cases h
    refine hL.move (t := .inl i) (c := .scanRunq) rfl rfl ?_ (fun _ _ _ => rfl) nofun
    rw [hpc]
    show s.nidle + 1 - 0 = s.nidle - -1
    omega
  next hpc =>
    cases h
    split <;> (exact hL.goto (by rw [hpc]; rfl) rfl (.inr rfl))
  next hpc =>
    cases h
    exact hL.goto (by rw [hpc]; rfl) rfl (.inr rfl)
  next j todo _ hpc =>
    cases h
    exact hL.goto (by rw [hpc]; rfl) rfl (.inr rfl)
  next b j todo _ hpc =>
    cases h
    split <;> (exact hL.goto (by rw [hpc]; rfl) rfl (.inr rfl))
  next i hpc =>
    cases h
    exact hL.clear (by rw [hpc]; rfl) rfl rfl (fun j hj => .inl (Sum.inl.inj hj)) ⟨nofun, nofun⟩
  next hpc =>
    cases h
    exact hL.dec (by rw [hpc]; rfl) rfl (by rw [hpc]; rfl)
  next hpc =>
    cases h
    split
    · exact hL.finish (by rw [hpc]; rfl) (by rw [hpc]; rfl)
    · split
      · exact hL.finish (by rw [hpc]; rfl) (by rw [hpc]; rfl)
      · exact hL.goto (by rw [hpc]; rfl) rfl (.inl (by rw [hpc]; rfl))
  next hpc =>
    cases h
    exact hL.finish (by rw [hpc]; rfl) (by rw [hpc]; rfl)
  next i todo hpc =>
    cases h
    split <;> (exact hL.goto (by rw [hpc]; rfl) rfl (.inl (by rw [hpc]; rfl)))
  next i todo hpc =>
    cases h
    refine hL.clear (by rw [hpc]; rfl) rfl rfl (fun j hj => .inr (hL.down ?_)) ⟨nofun, nofun⟩
    rw [← hj, hpc]
    rfl
  next hpc =>
    cases h
    exact hL.dec (by rw [hpc]; rfl) rfl (by rw [hpc]; rfl)
  next hpc =>
    cases h
    exact hL.finish (by rw [hpc]; rfl) (by rw [hpc]; rfl)
  next => cases h

theorem Ledger.step {a : Action n P} (h : Wakep.step cfg s a = some u) : Ledger u := by
  cases a with
  | next t => exact hL.next h
  | loop i =>
    simp only [Wakep.step] at h
    split at h <;> cases h
    next hpc => exact hL.goto (by rw [hpc]; rfl) rfl (.inl (by rw [hpc]; rfl))
  | startDrain i =>
    simp only [Wakep.step] at h
    split at h <;> cases h
    next hpc =>
      refine hL.move (t := .inl i) (c := .drain) rfl rfl (by rw [hpc]; rfl) (fun j hj hi => ?_) nofun
      cases hj
      rw [hL.down (by rw [hpc]; rfl)] at hi
      cases hi
  | park i =>
    simp only [Wakep.step] at h
    split at h <;> cases h
    next hpc => exact hL.goto (by rw [hpc.1]; rfl) rfl (.inl (by rw [hpc.1]; rfl))
  | push i | runqPull | pop i b | steal i =>
    simp only [Wakep.step] at h
    split at h <;> cases h
    exact ⟨hL.flag, hL.count, hL.other⟩
  | runqPush t =>
    simp only [Wakep.step] at h
    split at h <;> cases h
    next hpc =>
      refine hL.move (t := t) (c := .gate) rfl rfl (by rw [hpc]; rfl) (fun j hj hi => ?_) fun _ _ => nofun
      subst hj
      rw [hL.down (by rw [hpc]; rfl)] at hi
      cases hi
  | wake i =>
    simp only [Wakep.step] at h
    split at h <;> cases h
    next hpc => exact hL.goto (by rw [hpc]; rfl) rfl (.inr rfl)

omit [DecidableEq P] in
theorem Ledger.window (hi : s.idleParked i = true) (hpc : s.pc (.inl i) ≠ .add)
    (hn : s.nidle ≤ 0) : s.Window := by
  by_contra hw
  have hterm : ∀ j, 0 ≤ parked (s.idleParked j) + (s.pc (.inl j)).owed := by
    intro j
    by_cases hadd : s.pc (.inl j) = .add
    · have hj : s.idleParked j = true := by
        by_contra hj
        exact hw ⟨j, hadd, Bool.eq_false_iff.2 hj⟩
      rw [hadd, hj]
      exact le_rfl
    · have howed := owed_nonneg hadd
      have hpark : 0 ≤ parked (s.idleParked j) := by unfold parked; split <;> decide
      omega
  have hone : 1 ≤ parked (s.idleParked i) + (s.pc (.inl i)).owed := by
    have howed := owed_nonneg hpc
    rw [hi]
    exact le_add_of_nonneg_right howed
  have hsum : parked (s.idleParked i) + (s.pc (.inl i)).owed ≤
      ∑ j, (parked (s.idleParked j) + (s.pc (.inl j)).owed) :=
    Finset.single_le_sum (fun j _ => hterm j) (Finset.mem_univ i)
  have hothers : 0 ≤ ∑ p, (s.pc (.inr p)).owed := Finset.sum_nonneg fun p _ => owed_nonneg (hL.other p)
  have hcount := hL.count
  rw [Fintype.sum_sum_type] at hcount
  rw [Finset.sum_add_distrib] at hsum
  omega

end

end Runloom.Wakep
