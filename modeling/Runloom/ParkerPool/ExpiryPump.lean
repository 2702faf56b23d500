import Runloom.ParkerPool.ExpirySweep

/-!
# The sweep of all pools

`Moves` says what a part of the call does to all pools.  Each pool is swept once; the error wakes that follow its
probes go over all of them, also over those that were swept before, in which they make nothing due.
-/

namespace Runloom.ParkerPool

open Transition List

variable {cfg : Config} {now : ℤ} {r : Bool} {D D' : ℤ → Prop} {P Q : Pool} {k m m' : Pump} {p : Parker}
  {h : ℕ → Parker → Made} {as bs : ℕ → List Act}

def AllSound (cfg : Config) (pools : ℕ → Pool) (h : ℕ → Parker → Made) : Prop :=
  ∀ i, Sound (cfg.at i) (pools i) (h i)

structure Moves (cfg : Config) (now : ℤ) (r : Bool) (D : ℤ → Prop) (m : Pump) (as : ℕ → List Act) (m' : Pump) :
    Prop where
  trace (i : ℕ) : Trace (cfg.at i) now r D (m.pools i) (as i) (m'.pools i)
  acts (i : ℕ) : m'.acts i = m.acts i ++ as i
  woken {x : Option ℕ × Option ℕ} (hx : x ∈ m'.woken) :
    x ∈ m.woken ∨ ∃ i p, (Act.timeout p ∈ as i ∨ Act.error p ∈ as i) ∧ (m.pools i).waiter p = x

namespace Moves

theorem refl : Moves cfg now r D m (fun _ => []) m :=
  ⟨fun _ => .nil, fun _ => (append_nil _).symm, fun hx => .inl hx⟩

theorem mono (hm : Moves cfg now r D m as m') (hD : ∀ fd, D fd → D' fd) : Moves cfg now r D' m as m' :=
  ⟨fun i => (hm.trace i).mono hD, hm.acts, hm.woken⟩

theorem sound (hm : Moves cfg now r D m as m') (hS : AllSound cfg m.pools h) : AllSound cfg m'.pools h :=
  fun i => ((hm.trace i).after (hS i)).2

theorem trans (hS : AllSound cfg m.pools h) (h₁ : Moves cfg now r D m as k) (h₂ : Moves cfg now r D k bs m') :
    Moves cfg now r D m (fun i => as i ++ bs i) m' where
  trace i := (h₁.trace i).trans (h₂.trace i)
  acts i := by rw [h₂.acts, h₁.acts, append_assoc]
  woken hx := by
    simp only [mem_append]
    rcases h₂.woken hx with hk | ⟨i, p, hp, heq⟩
    · rcases h₁.woken hk with hm | ⟨i, p, hp, heq⟩
      · exact .inl hm
      · exact .inr ⟨i, p, by grind, heq⟩
    · refine .inr ⟨i, p, by grind, ?_⟩
      rw [← (((h₁.trace i).after (hS i)).1.fixed p).2.2]
      exact heq

theorem put {i : ℕ} {v : Sweep} {l : List Act} (ht : Trace (cfg.at i) now r D (m.pools i) l v.pool)
    (ha : v.acts = m.acts i ++ l)
    (hw : ∀ {x : Option ℕ × Option ℕ}, x ∈ v.woken →
      x ∈ m.woken ∨ ∃ p, (Act.timeout p ∈ l ∨ Act.error p ∈ l) ∧ (m.pools i).waiter p = x) :
    Moves cfg now r D m (update (fun _ => []) i l) (m.put i v) where
  trace j := by
    show Trace (cfg.at j) now r D (m.pools j) _ (update m.pools i v.pool j)
    by_cases hj : j = i
    · subst hj
      rw [update_self, update_self]
      exact ht
    · rw [update_of_ne hj, update_of_ne hj]
      exact .nil
  acts j := by
    show update m.acts i v.acts j = _
    by_cases hj : j = i
    · subst hj
      rw [update_self, update_self]
      exact ha
    · rw [update_of_ne hj, update_of_ne hj, append_nil]
  woken hx := by
    rcases hw hx with hm | ⟨p, hp, heq⟩
    · exact .inl hm
    · refine .inr ⟨i, p, ?_, heq⟩
      rw [update_self]
      exact hp

end Moves

theorem onlyErrors_update {i : ℕ} {l : List Act} (hl : OnlyErrors l) (j : ℕ) :
    OnlyErrors (update (fun _ => []) i l j) := by
  by_cases hj : j = i
  · subst hj
    rw [update_self]
    exact hl
  · rw [update_of_ne hj]
    exact fun a ha => absurd ha not_mem_nil

/-! ### The error wakes -/

theorem dispatchAll_spec (now : ℤ) (r : Bool) (fd : ℤ) (n : ℕ) (m : Pump) (hS : AllSound cfg m.pools h) :
    ∃ m' as, Pump.dispatchAll cfg fd readWrite n m = some m' ∧ Moves cfg now r (· = fd) m as m' ∧
      ∀ i, OnlyErrors (as i) := by
  induction n with
  | zero => exact ⟨m, _, rfl, .refl, fun _ _ ha => absurd ha not_mem_nil⟩
  | succ n ih =>
    obtain ⟨k, as, hk, hmoves, hall⟩ := ih
    have hSk := hmoves.sound hS
    obtain ⟨v, l, hv, hwoke⟩ := dispatch_spec (w := k.sweep n) now r fd (hSk n)
    have hput : Moves cfg now r (· = fd) k (update (fun _ => []) n l) (k.put n v) :=
      .put hwoke.trace hwoke.acts fun hx => (hwoke.woken hx).imp_right fun ⟨p, hp, heq⟩ => ⟨p, .inr hp, heq⟩
    refine ⟨k.put n v, _, ?_, hmoves.trans hS hput, fun i => (hall i).append (onlyErrors_update hwoke.errors i)⟩
    rw [Pump.dispatchAll, hk]
    show ((k.sweep n).dispatch (cfg.at n) fd readWrite).map (k.put n) = _
    rw [hv]
    rfl

theorem serviceProbes_spec (now : ℤ) (r : Bool) (dead : ℤ → Bool) (fds : List ℤ) (m : Pump)
    (hS : AllSound cfg m.pools h) :
    ∃ m' as, Pump.serviceProbes cfg dead fds m = some m' ∧
      Moves cfg now r (fun fd => fd ∈ fds ∧ dead fd = true) m as m' ∧ ∀ i, OnlyErrors (as i) := by
  induction fds generalizing m with
  | nil => exact ⟨m, _, rfl, .refl, fun _ _ ha => absurd ha not_mem_nil⟩
  | cons fd fds ih =>
    have hlater : ∀ fd', fd' ∈ fds ∧ dead fd' = true → fd' ∈ fd :: fds ∧ dead fd' = true :=
      fun fd' hfd' => ⟨mem_cons_of_mem fd hfd'.1, hfd'.2⟩
    by_cases hdead : dead fd = true
    · obtain ⟨k, as, hk, hmoves, hall⟩ := dispatchAll_spec now r fd poolMax m hS
      obtain ⟨m', bs, hm', hrest, hall'⟩ := ih k (hmoves.sound hS)
      have hfirst : Moves cfg now r (fun fd' => fd' ∈ fd :: fds ∧ dead fd' = true) m as k :=
        hmoves.mono fun fd' heq => by
          subst heq
          exact ⟨mem_cons_self, hdead⟩
      refine ⟨m', _, ?_, hfirst.trans hS (hrest.mono hlater), fun i => (hall i).append (hall' i)⟩
      simp only [Pump.serviceProbes, if_pos hdead, hk, hm']
    · obtain ⟨m', bs, hm', hrest, hall'⟩ := ih m hS
      refine ⟨m', bs, ?_, hrest.mono hlater, hall'⟩
      simp only [Pump.serviceProbes, if_neg hdead, hm']

/-! ### What is left -/

def Rested (now : ℤ) (P : Pool) (h : Parker → Made) : Prop :=
  ∀ p, P.base.isLinked p = true → (h p).heaped = true → 0 ≤ (P.base.request p).deadlineNs →
    now < (P.base.request p).deadlineNs

def Crowded (now : ℤ) (P : Pool) : Prop :=
  ∃ fds : List ℤ, fds.Nodup ∧ staleProbeBatch ≤ fds.length ∧ ∀ fd ∈ fds, ∃ p, P.base.isLinked p = true ∧
    (P.waiting p).probePending = true ∧ (P.base.request p).deadlineNs ≤ now ∧ (P.base.request p).fd = fd

theorem Idle.rested {h : Parker → Made} (hS : Sound cfg P h) (hidle : Idle now P) : Rested now P h := by
  obtain ⟨l, b, hl, hI⟩ := hS
  intro p hp hheaped hpos
  exact hidle p (hI.base.heaped.mpr ⟨hI.base.isLinked_iff.mp hp, hpos, hheaped⟩)

theorem Rested.after {h : Parker → Made} {l : List Act} (hr : Rested now P h) (ha : After now D P l Q)
    (hl : OnlyErrors l) : Rested now Q h := by
  intro p hp hheaped hpos
  have hnot : Act.probe p ∉ l := by
    intro hm
    obtain ⟨q, hq⟩ := hl _ hm
    cases hq
  obtain ⟨-, hkey⟩ := ha.kept p hnot
  rw [hkey] at hpos ⊢
  exact hr p (ha.linked p hp) hheaped hpos

theorem Crowded.before {l : List Act} (ha : After now D P l Q) (hc : Crowded now Q) : Crowded now P := by
  obtain ⟨fds, hnodup, hlen, hfds⟩ := hc
  refine ⟨fds, hnodup, hlen, fun fd hfd => ?_⟩
  obtain ⟨p, hp, hpend, hdue, heq⟩ := hfds fd hfd
  obtain ⟨hpend', hkey⟩ := ha.pending p hpend
  exact ⟨p, ha.linked p hp, hpend', hkey ▸ hdue, (ha.fixed p).2.1 ▸ heq⟩

/-! ### The pools one after the other -/

theorem drainPool_spec (now : ℤ) (r : Bool) (dead : ℤ → Bool) (m : Pump) (i : ℕ) (hS : AllSound cfg m.pools h) :
    ∃ m' as, m.drainPool cfg now r dead i = some m' ∧
      Moves cfg now r (fun fd => dead fd = true ∧ ∃ p, Act.probe p ∈ as i ∧ ((m.pools i).base.request p).fd = fd)
        m as m' ∧ (∀ j, j ≠ i → OnlyErrors (as j)) ∧
      ((m.pools i).inited = true → Rested now (m'.pools i) (h i) ∨ Crowded now (m.pools i)) := by
  unfold Pump.drainPool
  split
  next hnot =>
    refine ⟨m, _, rfl, .refl, fun _ _ _ ha => absurd ha not_mem_nil, fun hin => ?_⟩
    rw [hin] at hnot
    cases hnot
  next =>
    have hweight := weight_le (m.pools i)
    obtain ⟨v, l, hv, hran, hend⟩ := drainMore_spec now r (2 * (m.pools i).base.dh.size + 1) (m.sweep i)
      (hS i) (by show (m.pools i).weight < _; omega) rfl
    -- the descriptors that are probed are those of the ticks
    have hfds : ∀ fd ∈ v.probeFds, ∃ p, Act.probe p ∈ l ∧ ((m.pools i).base.request p).fd = fd := fun fd hfd =>
      (hran.fds hfd).resolve_left not_mem_nil
    have hsweep : ∀ D : ℤ → Prop, Moves cfg now r D m (update (fun _ => []) i l) (m.put i v) := by
      intro D
      refine .put (hran.trace.mono nofun) hran.acts fun hx => ?_
      rcases hran.woken (mem_append_left _ hx) with hm | ⟨p, hp, heq⟩
      · exact .inl ((mem_append.mp hm).resolve_right not_mem_nil)
      · exact .inr ⟨p, .inl hp, heq⟩
    have hSv := (hsweep fun _ => False).sound hS
    obtain ⟨m', bs, hm', hserve, hall⟩ := serviceProbes_spec now r dead v.probeFds (m.put i v) hSv
    rw [hv]
    refine ⟨m', _, hm', (hsweep _).trans hS (hserve.mono ?_), fun j hj => ?_, fun _ => ?_⟩
    · rintro fd ⟨hfd, hdead⟩
      obtain ⟨p, hp, heq⟩ := hfds fd hfd
      refine ⟨hdead, p, mem_append_left _ ?_, heq⟩
      rw [update_self]
      exact hp
    · refine OnlyErrors.append ?_ (hall j)
      rw [update_of_ne hj]
      exact fun a ha => absurd ha not_mem_nil
    · have hafter := (hran.trace.after (hS i)).1
      rcases hend with hidle | hfull
      · left
        have hrest : Rested now ((m.put i v).pools i) (h i) := by
          show Rested now (update m.pools i v.pool i) (h i)
          rw [update_self]
          exact hidle.rested (hran.trace.after (hS i)).2
        exact hrest.after ((hserve.trace i).after (hSv i)).1 (hall i)
      · right
        refine ⟨v.probeFds, hran.distinct nodup_nil, hfull, fun fd hfd => ?_⟩
        obtain ⟨p, hp, heq⟩ := hfds fd hfd
        obtain ⟨hlinked, hpend, hdue, -⟩ := hafter.probed p hp
        exact ⟨p, hlinked, hpend, hdue, heq⟩

def Found (pools : ℕ → Pool) (dead : ℕ → ℤ → Bool) (as : ℕ → List Act) (fd : ℤ) : Prop :=
  ∃ i p, Act.probe p ∈ as i ∧ ((pools i).base.request p).fd = fd ∧ dead i fd = true

theorem drainExpired_spec (now : ℤ) (r : Bool) (dead : ℕ → ℤ → Bool) (n : ℕ) (m : Pump)
    (hS : AllSound cfg m.pools h) :
    ∃ m' as, m.drainExpired cfg now r dead n = some m' ∧ Moves cfg now r (Found m.pools dead as) m as m' ∧
      ∀ i < n, (m.pools i).inited = true → Rested now (m'.pools i) (h i) ∨ Crowded now (m.pools i) := by
  induction n with
  | zero => exact ⟨m, _, rfl, .refl, fun i hi => absurd hi (Nat.not_lt_zero i)⟩
  | succ n ih =>
    obtain ⟨k, as, hk, hmoves, hdone⟩ := ih
    have hSk := hmoves.sound hS
    obtain ⟨m', bs, hm', hpool, herr, hlast⟩ := drainPool_spec now r (dead n) k n hSk
    have hfound : ∀ fd, Found m.pools dead as fd → Found m.pools dead (fun i => as i ++ bs i) fd := by
      rintro fd ⟨i, p, hp, hfd⟩
      exact ⟨i, p, mem_append_left _ hp, hfd⟩
    have hfound' : ∀ fd, (dead n fd = true ∧ ∃ p, Act.probe p ∈ bs n ∧ ((k.pools n).base.request p).fd = fd) →
        Found m.pools dead (fun i => as i ++ bs i) fd := by
      rintro fd ⟨hdead, p, hp, hfd⟩
      refine ⟨n, p, mem_append_right _ hp, ?_, hdead⟩
      rw [← (((hmoves.trace n).after (hS n)).1.fixed p).2.1]
      exact hfd
    refine ⟨m', _, ?_, (hmoves.mono hfound).trans hS (hpool.mono hfound'), fun i hi hin => ?_⟩
    · rw [Pump.drainExpired, hk]
      exact hm'
    · have hbefore := ((hmoves.trace i).after (hS i)).1
      by_cases hin' : i = n
      · subst hin'
        exact (hlast (hbefore.inited.trans hin)).imp_right fun hc => hc.before hbefore
      · refine (hdone i (by omega) hin).imp_left fun hrest => ?_
        exact hrest.after ((hpool.trace i).after (hSk i)).1 (herr i hin')

end Runloom.ParkerPool
