import Runloom.CoRLock.Safety

/-!
# The lock is a re-entrant lock

The lock as it should be knows who holds it and how often, and every operation is one step.  A call of
`CoRLock` takes that step when it returns.
-/

namespace Runloom.CoRLock

open Transition

/-! ## The lock as it should be -/

/-- A re-entrant lock; one that is held `n` times beyond the first is `held p n`. -/
inductive Lock (P : Type*) where
  | free
  | held (p : P) (n : ℕ)

inductive Op (P : Type*) where
  | acquire (p : P)
  | release (p : P)
  | save (p : P)
  | restore (p : P) (n : ℕ)

namespace Lock

variable {P : Type*} [DecidableEq P] {t t' : Lock P} {p q : P} {n m : ℕ}

def depth : Lock P → P → ℕ
  | free, _ => 0
  | held p n, q => if q = p then n + 1 else 0

def step : Lock P → Op P → Option (Lock P)
  | free, .acquire p => some (held p 0)
  | held q n, .acquire p => if q = p then some (held q (n + 1)) else none
  | held q 0, .release p => if q = p then some free else none
  | held q (n + 1), .release p => if q = p then some (held q n) else none
  | held q _, .save p => if q = p then some free else none
  | free, .restore p n => some (held p n)
  | _, _ => none

theorem depth_held_self : (held p n).depth p = n + 1 := if_pos rfl

theorem depth_held_of_ne (h : q ≠ p) : (held p n).depth q = 0 := if_neg h

theorem eq_held (h : t.depth p = n + 1) : t = held p n := by
  cases t with
  | free => cases h
  | held q m =>
    by_cases hpq : p = q
    · subst hpq
      rw [depth_held_self] at h
      rw [Nat.succ.inj h]
    · rw [depth_held_of_ne hpq] at h
      cases h

theorem exists_step (hcounts : Counts (t.depth p) m) (hup : t.depth p < m → ∀ q, q ≠ p → t.depth q = 0) :
    ∃ t', (t' = t ∨ ∃ op, t.step op = some t') ∧ t'.depth p = m ∧ ∀ q, q ≠ p → t'.depth q = t.depth q := by
  generalize hd : t.depth p = d at hcounts hup
  cases hcounts with
  | same => exact ⟨t, .inl rfl, hd, fun _ _ => rfl⟩
  | up =>
    refine ⟨held p d, .inr ⟨.acquire p, ?_⟩, depth_held_self, fun q hq => ?_⟩
    · cases t with
      | free =>
        cases hd
        rfl
      | held q k =>
        by_cases hpq : p = q
        · subst hpq
          rw [depth_held_self] at hd
          cases hd
          exact if_pos rfl
        · have := hup (Nat.lt_succ_self _) q (Ne.symm hpq)
          rw [depth_held_self] at this
          cases this
    · rw [depth_held_of_ne hq]
      exact (hup (Nat.lt_succ_self _) q hq).symm
  | down =>
    rw [eq_held hd]
    cases m with
    | zero =>
      refine ⟨free, .inr ⟨.release p, if_pos rfl⟩, rfl, fun q hq => ?_⟩
      rw [depth_held_of_ne hq]
      rfl
    | succ k =>
      refine ⟨held p k, .inr ⟨.release p, if_pos rfl⟩, depth_held_self, fun q hq => ?_⟩
      rw [depth_held_of_ne hq, depth_held_of_ne hq]
  | drop n =>
    rw [eq_held hd]
    refine ⟨free, .inr ⟨.save p, ?_⟩, rfl, fun q hq => ?_⟩
    · cases n <;> exact if_pos rfl
    · rw [depth_held_of_ne hq]
      rfl
  | back n =>
    have hfree : t = free := by
      cases t with
      | free => rfl
      | held q k =>
        by_cases hpq : p = q
        · subst hpq
          rw [depth_held_self] at hd
          cases hd
        · have := hup (Nat.succ_pos _) q (Ne.symm hpq)
          rw [depth_held_self] at this
          cases this
    subst hfree
    refine ⟨held p n, .inr ⟨.restore p n, rfl⟩, depth_held_self, fun q hq => ?_⟩
    rw [depth_held_of_ne hq]
    rfl

end Lock

def reentrantLock (P : Type*) [DecidableEq P] : System (Lock P) (Op P) where
  init t := t = .free
  step := Lock.step

/-! ## The code does no more -/

variable {P : Type*} [DecidableEq P] {p : P} {x' : Shared P} {y' : Party P} {s s' : State P}

theorem exists_lock (h : (coRLock P).ReachableWith Proper s) :
    ∃ t, (reentrantLock P).Reachable t ∧ ∀ p, (s.party p).depth = t.depth p := by
  have hboth : ∃ t, (reentrantLock P).Reachable t ∧ Inv s ∧ ∀ p, (s.party p).depth = t.depth p := by
    refine h.simulate (R := fun s (t : Lock P) => Inv s ∧ ∀ p, (s.party p).depth = t.depth p)
      (fun s hs => ⟨Lock.free, rfl, Inv.init hs, fun p => ?_⟩) ?_
    · rw [hs.party]
      rfl
    · rintro s a s' t ⟨hI, hdepth⟩ hproper hstep
      obtain ⟨p, x', y', hmove, rfl⟩ := hI.step_move hproper hstep
      obtain ⟨hcounts, hup⟩ := hI.counts hmove
      rw [hdepth p] at hcounts hup
      obtain ⟨t', hstep', hself, hother⟩ := Lock.exists_step hcounts fun hlt q hq => by
        rw [← hdepth q]
        exact hup hlt q hq
      have hI' := hI.move hmove
      have hdepth' : ∀ q, ((s.set p (x', y')).party q).depth = t'.depth q := by
        intro q
        by_cases hq : q = p
        · subst hq
          rw [party_set_self, hself]
        · rw [party_set_of_ne _ hq, hother q hq]
          exact hdepth q
      rcases hstep' with rfl | ⟨op, hop⟩
      · exact .inl ⟨hI', hdepth'⟩
      · exact .inr ⟨op, t', trivial, hop, hI', hdepth'⟩
  obtain ⟨t, ht, -, hdepth⟩ := hboth
  exact ⟨t, ht, hdepth⟩

/-- If `_release_save` is called by the holder and `_acquire_restore` gets what was saved, this is a re-entrant
lock. -/
theorem refines_reentrantLock (h : (coRLock P).ReachableWith Proper s) :
    (∃ t, (reentrantLock P).Reachable t ∧ ∀ p, (s.party p).depth = t.depth p) ∧
    (∀ p, (s.party p).pc.between = true → 0 < (s.party p).depth →
      s.shared.count = (s.party p).depth ∧ s.shared.owner = some p) ∧
    ((∀ p, (s.party p).pc.between = true ∧ (s.party p).depth = 0) →
      s.shared.count = 0 ∧ s.shared.owner = none) ∧
    (∀ p q, 0 < (s.party p).depth → 0 < (s.party q).depth → p = q) ∧
    (∀ p late s', (s.party p).pc = .relOwner → (s.party p).depth = 0 → step s (.run p late) = some s' →
      s'.shared = s.shared ∧ s'.party p = { s.party p with pc := .done .notAcquired }) ∧
    (∀ p, ∀ t ∈ (s.party p).tickets, t.count = t.depth ∧ t.owner = some p) ∧
    (∀ p c o, (s.party p).pc = .done (.restored c o) →
      s.shared.owner = o ∧ s.shared.count = c ∧ (s.party p).depth = c) := by
  have hI := inv_of_reachable h
  refine ⟨exists_lock h, fun p => hI.between, hI.nobody, fun p q hp hq => ?_, fun p late s' hpc hdepth hs => ?_,
    fun p t ht => ?_, fun p c o hpc => ?_⟩
  · exact (hI.heldBy (.inl hq)).only p (.inl hp)
  · have hother : ¬s.shared.owner = some p := by
      rw [hI.owner_iff]
      rintro ⟨hinner, -⟩
      have := depth_pos_of_inner hpc rfl hinner
      omega
    simp only [step, exec, hpc, if_neg hother, Option.map_some] at hs
    cases hs
    exact ⟨rfl, party_set_self _⟩
  · obtain ⟨hcount, -, howner⟩ := (hI.good p).tickets t ht
    exact ⟨hcount, howner⟩
  · have hk := (hI.good p).knows
    rw [hpc] at hk
    obtain ⟨hc, hpos, ho, hcount⟩ := hk
    have hbetween := hI.between (p := p) (by rw [hpc]; rfl) hpos
    exact ⟨hbetween.2.trans ho.symm, hcount.trans hc.symm, hc.symm⟩

/-! ## Two parties -/

def unheld : State Bool := ⟨⟨none, 0, false⟩, fun _ => ⟨.idle, 0, []⟩⟩

theorem init_unheld : Init unheld := ⟨rfl, fun _ => rfl⟩

instance (s : State Bool) : ∀ a, Decidable (Proper s a)
  | .run p _ =>
    match h : (s.party p).pc with
    | .saveCheck =>
      decidable_of_iff (s.shared.count ≠ 0 → 0 < (s.party p).depth) (by simp only [Proper, h])
    | .idle | .done _ | .isNone _ | .isCur _ | .bumpRead | .bumpWrite _ | .inner _ | .setOwner | .setCount
    | .relOwner | .decRead | .decWrite _ | .isZero | .clearOwner | .unlock | .saveCount | .saveOwner _
    | .saveZero _ _ | .saveClear _ _ | .saveUnlock _ _ | .restInner _ _ | .restCount _ _ | .restOwner _ _ =>
      .isTrue (by simp only [Proper, h])
  | .acquireRestore p c o => inferInstanceAs (Decidable (∃ t ∈ (s.party p).tickets, t.count = c ∧ t.owner = o))
  | .acquire _ _ | .release _ | .releaseSave _ => .isTrue trivial

/-- The second party saves what the first one holds, and gets the lock beside it. -/
theorem release_save_by_stranger : ¬∀ s : State Bool, (coRLock Bool).Reachable s →
      (∀ p, (s.party p).pc.between = true → 0 < (s.party p).depth →
        0 < s.shared.count ∧ s.shared.owner = some p) ∧
      (∀ p q, 0 < (s.party p).depth → 0 < (s.party q).depth → p = q) := by
  intro hall
  obtain ⟨s, hr, hf, ht⟩ := (coRLock Bool).reaches (fun s => 0 < (s.party false).depth ∧ 0 < (s.party true).depth)
    [.acquire false .blocking, .run false false, .run false false, .run false false, .run false false,
      .releaseSave true, .run true false, .run true false, .run true false, .run true false, .run true false,
      .run true false, .acquire true .nonblocking, .run true false, .run true false, .run true false,
      .run true false]
    (s := unheld) init_unheld (by decide +kernel)
  cases (hall s hr).2 false true hf ht

/-- The first party saves two levels and restores them after the second has used the lock. -/
theorem refines_reentrantLock_twoLevels : ∃ s : State Bool, (coRLock Bool).ReachableWith Proper s ∧
      (s.party false).pc = .done (.restored 2 (some false)) ∧ (s.party true).pc = .done .none ∧
      s.shared.owner = some false ∧ s.shared.count = 2 ∧ (s.party false).depth = (2 : ℤ) := by
  obtain ⟨s, hr, hf, ht⟩ := (coRLock Bool).reachesWith Proper
    (fun s => (s.party false).pc = .done (.restored 2 (some false)) ∧
      (s.party true).pc = .done .none)
    [.acquire false .blocking, .run false false, .run false false, .run false false, .run false false,
      .acquire false .timed, .run false false, .run false false, .run false false, .run false false,
      .releaseSave false, .run false false, .run false false, .run false false, .run false false,
      .run false false, .run false false,
      .acquire true .blocking, .run true false, .run true false, .run true false, .run true false,
      .release true, .run true false, .run true false, .run true false, .run true false, .run true false,
      .run true false,
      .acquireRestore false 2 (some false), .run false false, .run false false, .run false false]
    (s := unheld) init_unheld (by decide +kernel)
  obtain ⟨-, -, -, -, -, -, hrestored⟩ := refines_reentrantLock hr
  obtain ⟨howner, hcount, hdepth⟩ := hrestored false _ _ hf
  exact ⟨s, hr, hf, ht, howner, hcount, hdepth⟩

end Runloom.CoRLock
