import Runloom.ParkerPool.ExpiryPump

/-!
# The expiry sweep over every run

A run links and unlinks parkers, with and without a probe, and calls the sweep at any times.  `Log` keeps beside it
which links found room in the heap, and how often the probe of a parker was served since its link.
-/

namespace Runloom.ParkerPool

open Transition List

variable {cfg : Config} {now : ℤ} {r : Bool} {D : ℤ → Prop} {P Q R : Pool} {pools pools' : ℕ → Pool} {p : Parker}
  {as : List Act} {dead : ℕ → ℤ → Bool} {n : ℕ} {m : Pump}

structure Log where
  made : ℕ → Parker → Made
  probed : ℕ → Parker → ℕ

def noteOp (cfg : Config) (g : Log) (pools : ℕ → Pool) : Op → (ℕ → Pool) → Log
  | .link i p a t o, _ =>
    let request : Request := ⟨a.fd, (t.deadline cfg.sim).1, a.g, a.hub⟩
    { made := Function.update g.made i (note (g.made i) (pools i).base (.link p request o) (pools i).base)
      probed := Function.update g.probed i (Function.update (g.probed i) p 0) }
  | .drain now r dead n, _ =>
    match (Pump.start pools).drainExpired cfg now r dead n with
    | some m => { g with probed := fun i p => g.probed i p + (m.acts i).count (.probe p) }
    | none => g
  | .unlink _ _, _ => g
  | .setCommit _ _ _, _ => g

def notedExpiry (cfg : Config) : System ((ℕ → Pool) × Log) Op :=
  (expirySystem cfg).withHistory ⟨fun _ _ => ⟨false, false⟩, fun _ _ => 0⟩ (noteOp cfg)

/-! ### The invariant -/

structure ExpiryInv (cfg : Config) (pools : ℕ → Pool) (g : Log) : Prop where
  sound : AllSound cfg pools g.made
  uninited {i : ℕ} (hi : (pools i).inited = false) (p : Parker) : (pools i).base.isLinked p = false
  probed (i : ℕ) (p : Parker) : g.probed i p ≤ 1
  pending {i : ℕ} {p : Parker} (hp : ((pools i).waiting p).probePending = true) : g.probed i p = 0

theorem ExpiryInv.of_init (hi : (expirySystem cfg).init pools) :
    ExpiryInv cfg pools ⟨fun _ _ => ⟨false, false⟩, fun _ _ => 0⟩ where
  sound i := by
    obtain ⟨-, hinit⟩ := hi i
    refine ⟨[], fun _ => [], [], .of_init hinit, ?_, ?_, fun hp => absurd hp not_mem_nil⟩
    · refine ⟨⟨?_, ?_⟩, ?_, ?_, nodup_nil⟩
      · intro j hj
        rw [show (pools i).base.dh.size = 0 from hinit.size] at hj
        exact absurd hj (Nat.not_lt_zero j)
      · intro p j hj
        rw [show (pools i).base.dh.heapIndex p = none from hinit.heapIndex p] at hj
        cases hj
      · intro j _ hj
        rw [show (pools i).base.dh.size = 0 from hinit.size] at hj
        exact absurd hj (Nat.not_lt_zero j)
      · intro p
        rw [show (pools i).base.dh.heapIndex p = none from hinit.heapIndex p]
        simp
    · rw [hinit.size]
      exact Nat.zero_le _
  uninited {i} _ p := by
    obtain ⟨-, hinit⟩ := hi i
    unfold State.isLinked
    rw [hinit.slot]
    rfl
  probed _ _ := Nat.zero_le _
  pending _ := rfl

namespace ExpiryInv

variable {g : Log}

section

variable (hI : ExpiryInv cfg pools g)
include hI

theorem update {i : ℕ} {f : Parker → Made} {c : Parker → ℕ}
    (hs : Sound (cfg.at i) P f) (hu : P.inited = false → ∀ p, P.base.isLinked p = false) (hc : ∀ p, c p ≤ 1)
    (hp : ∀ p, (P.waiting p).probePending = true → c p = 0) :
    ExpiryInv cfg (Function.update pools i P) ⟨Function.update g.made i f, Function.update g.probed i c⟩ where
  sound j := by
    show Sound (cfg.at j) (Function.update pools i P j) (Function.update g.made i f j)
    by_cases hj : j = i
    · subst hj
      rw [update_self, update_self]
      exact hs
    · rw [update_of_ne hj, update_of_ne hj]
      exact hI.sound j
  uninited {j} := by
    by_cases hj : j = i
    · subst hj
      rw [update_self]
      exact hu
    · rw [update_of_ne hj]
      exact hI.uninited
  probed j q := by
    show Function.update g.probed i c j q ≤ 1
    by_cases hj : j = i
    · subst hj
      rw [update_self]
      exact hc q
    · rw [update_of_ne hj]
      exact hI.probed j q
  pending {j q} := by
    show _ → Function.update g.probed i c j q = 0
    by_cases hj : j = i
    · subst hj
      rw [update_self, update_self]
      exact hp q
    · rw [update_of_ne hj, update_of_ne hj]
      exact hI.pending

theorem drain (hm : (Pump.start pools).drainExpired cfg now r dead n = some m) :
    ExpiryInv cfg m.pools { g with probed := fun i p => g.probed i p + (m.acts i).count (.probe p) } := by
  obtain ⟨m', as, hm', hmoves, -⟩ := drainExpired_spec now r dead n (Pump.start pools) hI.sound
  cases hm.symm.trans hm'
  have hafter := fun i => ((hmoves.trace i).after (hI.sound i)).1
  have hacts : ∀ i, m.acts i = as i := fun i => hmoves.acts i
  refine ⟨hmoves.sound hI.sound, fun {i} hi p => ?_, fun i p => ?_, fun {i p} hp => ?_⟩
  · cases hlinked : (m.pools i).base.isLinked p with
    | false => rfl
    | true =>
      have hnot := hI.uninited ((hafter i).inited.symm.trans hi) p
      exact absurd (((hafter i).linked p hlinked).symm.trans hnot) nofun
  · show g.probed i p + (m.acts i).count (Act.probe p) ≤ 1
    rw [hacts]
    have hone := (hafter i).once p
    by_cases hmem : Act.probe p ∈ as i
    · have hzero := hI.pending ((hafter i).probed p hmem).2.1
      omega
    · rw [count_eq_zero_of_not_mem hmem]
      exact hI.probed i p
  · show g.probed i p + (m.acts i).count (Act.probe p) = 0
    rw [hacts]
    have hnot : Act.probe p ∉ as i := by
      intro hmem
      have hclear := ((hafter i).probed p hmem).2.2.2
      exact absurd (hp.symm.trans hclear) nofun
    rw [count_eq_zero_of_not_mem hnot]
    exact hI.pending ((hafter i).pending p hp).1

theorem step {a : Op} (hs : (expirySystem cfg).step pools a = some pools') :
    ExpiryInv cfg pools' (noteOp cfg g pools a pools') := by
  cases a with
  | link i p a t o =>
    simp only [expirySystem, expiryStep] at hs
    split at hs <;> cases hs
    next hfree =>
      obtain ⟨l, b, hl, hP⟩ := hI.sound i
      have hp : p ∉ l := hP.base.list.slot_eq_none_iff.mp hfree
      obtain ⟨b', hl', hP'⟩ := hP.link (o := o) (r := ⟨a.fd, (t.deadline cfg.sim).1, a.g, a.hub⟩)
        (w := ⟨a.events, t.userDeadlineNs, (t.deadline cfg.sim).2, .armed, none⟩) hp true Timing.deadline_eq
      refine hI.update ⟨_, b', hl', hP'⟩ nofun (fun q => ?_) fun q hq => ?_
      · by_cases hqp : q = p
        · rw [hqp, update_self]
          exact Nat.zero_le _
        · rw [update_of_ne hqp]
          exact hI.probed i q
      · by_cases hqp : q = p
        · rw [hqp, update_self]
        · rw [update_of_ne hqp]
          have hsame : ((pools i).park (cfg.at i) p a t o).waiting q = (pools i).waiting q :=
            update_of_ne hqp _ _
          rw [hsame] at hq
          exact hI.pending hq
  | unlink i p =>
    cases hs
    obtain ⟨l, b, hl, hP⟩ := hI.sound i
    have hsame := update_eq_self i g.made
    have hsame' := update_eq_self i g.probed
    by_cases hp : p ∈ l
    · have hnew := hI.update ⟨_, _, _, hP.drop hp⟩ (fun hin => ?_) (hI.probed i) fun q hq => hI.pending hq
      · rw [hsame, hsame'] at hnew
        exact hnew
      · intro q
        have hnot := hI.uninited hin p
        rw [hP.base.isLinked_iff.mpr hp] at hnot
        cases hnot
    · -- a parker that is not linked is left as it is
      have hdrop : (pools i).drop (cfg.at i) p = pools i := by
        unfold Pool.drop
        rw [hP.base.unlink_of_notMem hp]
      rw [hdrop, update_eq_self]
      exact hI
  | setCommit i p c =>
    cases hs
    have hsame := update_eq_self i g.made
    have hsame' := update_eq_self i g.probed
    have hfield : ∀ q, (((pools i).setCommit p c).waiting q).probePending = ((pools i).waiting q).probePending ∧
        (((pools i).setCommit p c).waiting q).userDeadlineNs = ((pools i).waiting q).userDeadlineNs := by
      intro q
      by_cases hqp : q = p
      · rw [hqp, Pool.setCommit]
        simp only [update_self, and_self]
      · rw [Pool.setCommit]
        simp only [update_of_ne hqp, and_self]
    obtain ⟨l, b, hl, hP⟩ := hI.sound i
    have hnew := hI.update (P := (pools i).setCommit p c) ⟨l, b, hl, hP.congr_waiting hfield⟩ hI.uninited (hI.probed i)
      fun q hq => hI.pending ((hfield q).1.symm.trans hq)
    rw [hsame, hsame'] at hnew
    exact hnew
  | drain now r dead n =>
    simp only [expirySystem, expiryStep, Option.map_eq_some_iff] at hs
    obtain ⟨m, hm, rfl⟩ := hs
    simp only [noteOp, hm]
    exact hI.drain hm

end

end ExpiryInv

theorem expiryInv_of_reachable {x : (ℕ → Pool) × Log} (hx : (notedExpiry cfg).Reachable x) :
    ExpiryInv cfg x.1 x.2 := by
  refine hx.invariant (P := fun x => ExpiryInv cfg x.1 x.2) ?_ ?_
  · rintro ⟨pools, g⟩ ⟨hi, rfl⟩
    exact .of_init hi
  · rintro ⟨pools, g⟩ a ⟨pools', g'⟩ hI - hs
    obtain ⟨hs, hnote⟩ := System.withHistory_step hs
    rw [hnote]
    exact hI.step hs

/-! ### The tick of a probe -/

/-- The parker has its own deadline again, and nothing else happened. -/
structure Ticked (p : Parker) (Q R : Pool) : Prop where
  due : (Q.waiting p).probePending = true
  served : (R.waiting p).probePending = false
  key : (R.base.request p).deadlineNs = (Q.waiting p).userDeadlineNs
  heap : (R.base.dh.heapIndex p).isSome = true ↔ 0 ≤ (Q.waiting p).userDeadlineNs
  linked (q : Parker) : R.base.isLinked q = Q.base.isLinked q
  unclaimed (q : Parker) :
    (R.waiting q).commit = (Q.waiting q).commit ∧ (R.waiting q).readyOut = (Q.waiting q).readyOut

theorem Does.ticked {h : Parker → Made} (hS : Sound cfg Q h) (hd : Does cfg now r D Q (.probe p) R) :
    Ticked p Q R := by
  obtain ⟨l, b, hl, hI⟩ := hS
  cases hd with
  | probe hheap hdue hpend =>
    have hp := hI.heap.members.mp hheap
    have hnot : p ∉ hl.erase p := fun hm => (hI.heap.nodup.mem_erase_iff.mp hm).1 rfl
    have hself : (Q.rekey cfg p r).waiting p = { Q.waiting p with probePending := false } := update_self ..
    refine ⟨hpend, by rw [hself], ?_, ?_, fun _ => rfl, fun q => ?_⟩
    · show (Function.update Q.base.request p _ p).deadlineNs = _
      rw [update_self]
    · rw [(hI.rekey hp r).heap.members, PoolInv.rekeyed]
      split
      next hpos => exact iff_of_true mem_cons_self hpos
      next hneg => exact iff_of_false hnot hneg
    · by_cases hq : q = p
      · rw [hq, hself]
        exact ⟨rfl, rfl⟩
      · have hother : (Q.rekey cfg p r).waiting q = Q.waiting q := update_of_ne hq _ _
        rw [hother]
        exact ⟨rfl, rfl⟩

theorem Trace.split {a : Act} (ht : Trace cfg now r D P as R) (ha : a ∈ as) :
    ∃ xs ys Q Q', as = xs ++ a :: ys ∧ Trace cfg now r D P xs Q ∧ Does cfg now r D Q a Q' ∧
      Trace cfg now r D Q' ys R := by
  induction ht with
  | nil => exact absurd ha not_mem_nil
  | @snoc S R as c ht hd ih =>
    rcases mem_append.mp ha with hin | hlast
    · obtain ⟨xs, ys, Q, Q', rfl, hbefore, hdo, hafter⟩ := ih hin
      exact ⟨xs, ys ++ [c], Q, Q', by simp, hbefore, hdo, .snoc hafter hd⟩
    · cases mem_singleton.mp hlast
      exact ⟨as, [], S, R, rfl, ht, hd, .nil⟩

/-! ### The call -/

/-- What a call at the time `now` does to the first `n` pools. -/
structure Swept (cfg : Config) (now : ℤ) (r : Bool) (dead : ℕ → ℤ → Bool) (n : ℕ) (pools : ℕ → Pool)
    (made : ℕ → Parker → Made) (m : Pump) : Prop where
  timeout {i : ℕ} {p : Parker} (hp : Act.timeout p ∈ m.acts i) :
    0 ≤ ((pools i).waiting p).userDeadlineNs ∧ ((pools i).waiting p).userDeadlineNs ≤ now
  result {i : ℕ} {p : Parker} (hp : ((m.pools i).waiting p).readyOut ≠ ((pools i).waiting p).readyOut) :
    Act.timeout p ∈ m.acts i ∧ ((m.pools i).waiting p).readyOut = some 0 ∨
      Act.error p ∈ m.acts i ∧ ∃ mask, mask ≠ 0 ∧ ((m.pools i).waiting p).readyOut = some mask
  claimed {i : ℕ} {p : Parker} (hp : ((m.pools i).waiting p).commit ≠ ((pools i).waiting p).commit) :
    Act.timeout p ∈ m.acts i ∨ Act.error p ∈ m.acts i
  woken {x : Option ℕ × Option ℕ} (hx : x ∈ m.woken) :
    ∃ i p, (Act.timeout p ∈ m.acts i ∨ Act.error p ∈ m.acts i) ∧ (pools i).waiter p = x
  error {i : ℕ} {p : Parker} (hp : Act.error p ∈ m.acts i) : Found pools dead m.acts ((pools i).base.request p).fd
  tick {i : ℕ} {p : Parker} (hp : Act.probe p ∈ m.acts i) : ∃ xs ys Q R, m.acts i = xs ++ Act.probe p :: ys ∧
      Trace (cfg.at i) now r (Found pools dead m.acts) (pools i) xs Q ∧ Ticked p Q R ∧
      Trace (cfg.at i) now r (Found pools dead m.acts) R ys (m.pools i)
  complete {i : ℕ} {p : Parker} (hi : i < n) (hfew : ¬Crowded now (pools i))
    (hp : (m.pools i).base.isLinked p = true) (hroom : (made i p).heaped = true)
    (hpend : ((m.pools i).waiting p).probePending = false) (hu : 0 ≤ ((m.pools i).waiting p).userDeadlineNs) :
    now < ((m.pools i).waiting p).userDeadlineNs
  served {i : ℕ} {p : Parker} (hi : i < n) (hfew : ¬Crowded now (pools i))
    (hp : (m.pools i).base.isLinked p = true) (hroom : (made i p).heaped = true)
    (hpend : ((m.pools i).waiting p).probePending = true) (hd : 0 ≤ ((m.pools i).base.request p).deadlineNs) :
    now < ((m.pools i).base.request p).deadlineNs

theorem ExpiryInv.swept {g : Log} (hI : ExpiryInv cfg pools g) (now : ℤ) (r : Bool) (dead : ℕ → ℤ → Bool) (n : ℕ) :
    ∃ m, (Pump.start pools).drainExpired cfg now r dead n = some m ∧ Swept cfg now r dead n pools g.made m := by
  obtain ⟨m, as, hm, hmoves, hdone⟩ := drainExpired_spec now r dead n (Pump.start pools) hI.sound
  have hacts : m.acts = as := funext fun i => hmoves.acts i
  subst hacts
  have hafter := fun i => ((hmoves.trace i).after (hI.sound i)).1
  have hrest : ∀ i p, i < n → ¬Crowded now (pools i) → (m.pools i).base.isLinked p = true →
      Rested now (m.pools i) (g.made i) := by
    intro i p hi hfew hp
    refine (hdone i hi ?_).resolve_right hfew
    cases hin : (pools i).inited with
    | true => exact hin
    | false => exact absurd (((hafter i).linked p hp).symm.trans (hI.uninited hin p)) nofun
  refine ⟨m, hm, ?_⟩
  constructor
  case timeout => exact fun {i p} hp => (hafter i).timeout p hp
  case result => exact fun {i p} hp => (hafter i).ready p hp
  case claimed => exact fun {i p} hp => (hafter i).commit p hp
  case woken => exact fun hx => (hmoves.woken hx).resolve_left not_mem_nil
  case error => exact fun {i p} hp => (hafter i).error p hp
  case tick =>
    intro i p hp
    obtain ⟨xs, ys, Q, R, hsplit, hbefore, hdo, hlater⟩ := (hmoves.trace i).split hp
    exact ⟨xs, ys, Q, R, hsplit, hbefore, hdo.ticked (hbefore.after (hI.sound i)).2, hlater⟩
  case complete =>
    intro i p hi hfew hp hroom hpend hu
    obtain ⟨l, b, hl, hP⟩ := hmoves.sound hI.sound i
    have hkey := hP.timed (hP.base.isLinked_iff.mp hp) hpend
    rw [← hkey] at hu ⊢
    exact hrest i p hi hfew hp p hp hroom hu
  case served =>
    intro i p hi hfew hp hroom _ hd
    exact hrest i p hi hfew hp p hp hroom hd

/-- A parker's probe is served at most once since its link, and a sweep times out only due parkers, and all of these
in a pool with fewer than 64 descriptors to probe. -/
theorem expiry_sweep_exact (cfg : Config) (x : (ℕ → Pool) × Log) (hx : (notedExpiry cfg).Reachable x) :
    (∀ i p, x.2.probed i p ≤ 1) ∧ ∀ (now : ℤ) (r : Bool) (dead : ℕ → ℤ → Bool) (n : ℕ),
        ∃ m, (Pump.start x.1).drainExpired cfg now r dead n = some m ∧ Swept cfg now r dead n x.1 x.2.made m := by
  have hI := expiryInv_of_reachable hx
  exact ⟨hI.probed, hI.swept⟩

def unusedPool : Pool := ⟨false, emptyPool, fun _ => ⟨0, -1, false, .armed, none⟩⟩

theorem unusedPool_init : (expirySystem hubPool).init fun _ => unusedPool := by
  refine fun i => ⟨rfl, ?_⟩
  exact ⟨rfl, fun _ => rfl, fun _ => rfl, fun _ => rfl, fun _ => rfl, fun _ => rfl, rfl, fun _ => rfl, nofun, rfl,
    fun _ => rfl⟩

/-- One wait until 100 and one without a deadline; the probes are due at 10. -/
def twoProbes : List Op :=
  [.link 0 0 ⟨3, 1, some 0, some 0⟩ ⟨.epoll, 100, 0, 0, 10, true⟩ ⟨true, true, true, some 1024⟩,
    .link 0 1 ⟨3, 1, some 1, some 0⟩ ⟨.epoll, -1, 0, 0, 10, true⟩ ⟨true, true, true, some 1024⟩,
    .setCommit 0 0 .parked, .drain 20 true (fun _ _ => false) poolMax]

theorem expiry_sweep_exact_twoProbes :
    ∃ x, (notedExpiry hubPool).Reachable x ∧ x.2.probed 0 0 = 1 ∧ x.2.probed 0 1 = 1 ∧
      (x.1 0).base.isLinked 0 = true ∧ ((x.1 0).base.dh.heapIndex 1).isSome = false ∧ (∀ i p, x.2.probed i p ≤ 1) ∧
      ∃ m, (Pump.start x.1).drainExpired hubPool 120 true (fun _ _ => false) poolMax = some m ∧
        Swept hubPool 120 true (fun _ _ => false) poolMax x.1 x.2.made m := by
  obtain ⟨x, hx, hfirst, hsecond, hlinked, hheap⟩ := (notedExpiry hubPool).reaches
    (fun x => x.2.probed 0 0 = 1 ∧ x.2.probed 0 1 = 1 ∧ (x.1 0).base.isLinked 0 = true ∧
      ((x.1 0).base.dh.heapIndex 1).isSome = false) twoProbes
    (s := (fun _ => unusedPool, ⟨fun _ _ => ⟨false, false⟩, fun _ _ => 0⟩)) ⟨unusedPool_init, rfl⟩ (by decide +kernel)
  obtain ⟨honce, hcall⟩ := expiry_sweep_exact hubPool x hx
  exact ⟨x, hx, hfirst, hsecond, hlinked, hheap, honce, hcall 120 true (fun _ _ => false) poolMax⟩

/-! ### A link without memory -/

def deadlineLost : Op :=
  .link 0 0 ⟨3, 1, some 0, some 0⟩ ⟨.epoll, 100, 0, 0, 0, false⟩ ⟨true, false, true, some 1024⟩

def poolsLost : ℕ → Pool :=
  Function.update (fun _ => unusedPool) 0
    (unusedPool.park (hubPool.at 0) 0 ⟨3, 1, some 0, some 0⟩ ⟨.epoll, 100, 0, 0, 0, false⟩
      ⟨true, false, true, some 1024⟩)

theorem poolsLost_pending (p : Parker) : ((poolsLost 0).waiting p).probePending = false := by
  rw [poolsLost, update_self, Pool.park]
  by_cases hp : p = 0
  · rw [hp]
    simp only [update_self]
    decide
  · simp only [update_of_ne hp]
    rfl

/-- At 200 the parker whose deadline was 100 stays linked. -/
theorem due_parker_left_linked : (expirySystem hubPool).Reachable poolsLost ∧ ¬Crowded 200 (poolsLost 0) ∧
      ∃ m, (Pump.start poolsLost).drainExpired hubPool 200 true (fun _ _ => false) poolMax = some m ∧
        (m.pools 0).base.isLinked 0 = true ∧ ((m.pools 0).waiting 0).commit = .armed ∧
        ((m.pools 0).waiting 0).probePending = false ∧ ((m.pools 0).waiting 0).userDeadlineNs = 100 := by
  refine ⟨?_, ?_, ?_⟩
  · refine .step (a := deadlineLost) (.init unusedPool_init) trivial ?_
    simp only [expirySystem, expiryStep, deadlineLost]
    rw [if_pos (show unusedPool.base.list.slot 0 = none from rfl)]
    rfl
  · rintro ⟨fds, -, hlen, hfds⟩
    obtain ⟨fd, hfd⟩ := exists_mem_of_length_pos (Nat.lt_of_lt_of_le (by decide) hlen)
    obtain ⟨p, -, hpend, -⟩ := hfds fd hfd
    rw [poolsLost_pending] at hpend
    cases hpend
  · have hrun : ((Pump.start poolsLost).drainExpired hubPool 200 true (fun _ _ => false) poolMax).any (fun m =>
        decide ((m.pools 0).base.isLinked 0 = true ∧ ((m.pools 0).waiting 0).commit = .armed ∧
          ((m.pools 0).waiting 0).probePending = false ∧ ((m.pools 0).waiting 0).userDeadlineNs = 100)) = true := by
      decide +kernel
    obtain ⟨m, hm, hp⟩ := Option.any_eq_true _ _ |>.mp hrun
    exact ⟨m, hm, of_decide_eq_true hp⟩

end Runloom.ParkerPool
