import Runloom.ParkerPool.ExpiryTrace

/-!
# The sweep of one pool

The loop over the heap and the walk of the error wake are sequences of acts.  Both come to an end: a turn of the loop
makes the heap lighter, and the walk has the rest of a bucket before it.
-/

namespace Runloom.ParkerPool

open Transition Linked List

variable {cfg : Config} {now : ℤ} {r : Bool} {D : ℤ → Prop} {P Q : Pool} {u w v : Sweep} {p : Parker}
  {h : Parker → Made} {as bs : List Act}

/-! ### The loop over the heap -/

def Idle (now : ℤ) (P : Pool) : Prop :=
  ∀ p, (P.base.dh.heapIndex p).isSome = true → now < (P.base.request p).deadlineNs

theorem turn_spec (now : ℤ) (hS : Sound cfg w.pool h) :
    match w.turn now with
    | .idle => Idle now w.pool
    | .more => timeoutWakeBatch ≤ w.batch.length
    | .blocked => staleProbeBatch ≤ w.probeFds.length
    | .probe p => (w.pool.base.dh.heapIndex p).isSome = true ∧ (w.pool.base.request p).deadlineNs ≤ now ∧
        (w.pool.waiting p).probePending = true
    | .expire p => (w.pool.base.dh.heapIndex p).isSome = true ∧ (w.pool.base.request p).deadlineNs ≤ now ∧
        (w.pool.waiting p).probePending = false := by
  obtain ⟨l, b, hl, hI⟩ := hS
  have hroot : ∀ p, (w.pool.base.dh.heapIndex p).isSome = true → 0 < w.pool.base.dh.size ∧
      (w.pool.base.request (w.pool.base.dh.arr 0)).deadlineNs ≤ (w.pool.base.request p).deadlineNs := by
    intro p hp
    obtain ⟨i, hi⟩ := Option.isSome_iff_exists.mp hp
    obtain ⟨hlt, rfl⟩ := hI.heap.view.entry hi
    exact ⟨Nat.zero_lt_of_lt hlt, deadlineNs_le (hI.heap.ordered.root_le (Nat.zero_le i) hlt)⟩
  by_cases hidle : w.pool.base.dh.size = 0 ∨ now < (w.pool.base.request (w.pool.base.dh.arr 0)).deadlineNs
  · rw [show w.turn now = .idle from if_pos hidle]
    intro p hp
    obtain ⟨hpos, hle⟩ := hroot p hp
    rcases hidle with hzero | hlt
    · omega
    · exact hlt.trans_le hle
  obtain ⟨hpos, hdue⟩ := not_or.mp hidle
  have hmem : (w.pool.base.dh.heapIndex (w.pool.base.dh.arr 0)).isSome = true := by
    rw [hI.heap.view.index (Nat.pos_of_ne_zero hpos)]
    rfl
  simp only [Sweep.turn, if_neg hidle]
  by_cases hmore : timeoutWakeBatch ≤ w.batch.length
  · rw [if_pos hmore]
    exact hmore
  rw [if_neg hmore]
  cases hpend : (w.pool.waiting (w.pool.base.dh.arr 0)).probePending with
  | false => exact ⟨hmem, not_lt.mp hdue, hpend⟩
  | true =>
    rw [if_pos rfl]
    by_cases hfull : (w.pool.base.request (w.pool.base.dh.arr 0)).fd ∉ w.probeFds ∧
        staleProbeBatch ≤ w.probeFds.length
    · rw [if_pos hfull]
      exact hfull.2
    · rw [if_neg hfull]
      exact ⟨hmem, not_lt.mp hdue, hpend⟩

/-- What some turns of the loop make of a sweep. -/
structure Ran (cfg : Config) (now : ℤ) (r : Bool) (w : Sweep) (as : List Act) (v : Sweep) : Prop where
  trace : Trace cfg now r (fun _ => False) w.pool as v.pool
  acts : v.acts = w.acts ++ as
  light : v.pool.weight + as.length ≤ w.pool.weight
  fds {fd : ℤ} (hfd : fd ∈ v.probeFds) : fd ∈ w.probeFds ∨ ∃ p, Act.probe p ∈ as ∧ (w.pool.base.request p).fd = fd
  distinct (hw : w.probeFds.Nodup) : v.probeFds.Nodup
  woken {x : Option ℕ × Option ℕ} (hx : x ∈ v.woken ++ v.batch) :
    x ∈ w.woken ++ w.batch ∨ ∃ p, Act.timeout p ∈ as ∧ w.pool.waiter p = x
  batch : v.batch.length ≤ w.batch.length + as.length

theorem Ran.refl : Ran cfg now r w [] w where
  trace := .nil
  acts := (append_nil _).symm
  light := le_rfl
  fds hfd := .inl hfd
  distinct hw := hw
  woken hx := .inl hx
  batch := le_rfl

theorem Ran.trans (hS : Sound cfg w.pool h) (h₁ : Ran cfg now r w as u) (h₂ : Ran cfg now r u bs v) :
    Ran cfg now r w (as ++ bs) v where
  trace := h₁.trace.trans h₂.trace
  acts := by rw [h₂.acts, h₁.acts, append_assoc]
  light := by
    have := h₁.light
    have := h₂.light
    rw [length_append]
    omega
  fds hfd := by
    simp only [mem_append]
    rcases h₂.fds hfd with hu | ⟨p, hp, heq⟩
    · rcases h₁.fds hu with hw | ⟨p, hp, heq⟩
      · exact .inl hw
      · exact .inr ⟨p, .inl hp, heq⟩
    · refine .inr ⟨p, .inr hp, ?_⟩
      rw [← ((h₁.trace.after hS).1.fixed p).2.1]
      exact heq
  distinct hw := h₂.distinct (h₁.distinct hw)
  woken hx := by
    simp only [mem_append (s := as)]
    rcases h₂.woken hx with hu | ⟨p, hp, heq⟩
    · rcases h₁.woken hu with hw | ⟨p, hp, heq⟩
      · exact .inl hw
      · exact .inr ⟨p, .inl hp, heq⟩
    · refine .inr ⟨p, .inr hp, ?_⟩
      rw [← ((h₁.trace.after hS).1.fixed p).2.2]
      exact heq
  batch := by
    have := h₁.batch
    have := h₂.batch
    rw [length_append]
    omega

theorem Ran.flush (hr : Ran cfg now r w as v) : Ran cfg now r w as v.flush :=
  ⟨hr.trace, hr.acts, hr.light, hr.fds, hr.distinct, fun hx => hr.woken (by simpa [Sweep.flush] using hx),
    Nat.zero_le _⟩

theorem Trace.one {a : Act} (hd : Does cfg now r D P a Q) : Trace cfg now r D P [a] Q := .snoc .nil hd

theorem ran_probe (hS : Sound cfg w.pool h) (hheap : (w.pool.base.dh.heapIndex p).isSome = true)
    (hdue : (w.pool.base.request p).deadlineNs ≤ now) (hpend : (w.pool.waiting p).probePending = true) :
    Ran cfg now r w [Act.probe p] (w.probe cfg r p) where
  trace := .one (.probe hheap hdue hpend)
  acts := rfl
  light := Does.weight_lt (D := fun _ => False) hS (.probe hheap hdue hpend) nofun
  fds {fd} hfd := by
    simp only [Sweep.probe] at hfd
    split at hfd
    · exact .inl hfd
    · rcases mem_append.mp hfd with hfd | hfd
      · exact .inl hfd
      · exact .inr ⟨p, mem_cons_self, (mem_singleton.mp hfd).symm⟩
  distinct hw := by
    simp only [Sweep.probe]
    split
    next => exact hw
    next hnew => exact nodup_append_comm.mp (nodup_cons.mpr ⟨hnew, hw⟩)
  woken hx := .inl hx
  batch := Nat.le_succ _

theorem mem_wakes {x : Option ℕ × Option ℕ} (hx : x ∈ P.wakes p) : x = P.waiter p := by
  unfold Pool.wakes at hx
  split at hx
  · exact mem_singleton.mp hx
  · exact absurd hx not_mem_nil

theorem wakes_length_le (P : Pool) (p : Parker) : (P.wakes p).length ≤ 1 := by
  unfold Pool.wakes
  split
  · exact le_rfl
  · exact Nat.zero_le _

theorem ran_expire (hS : Sound cfg w.pool h) (hheap : (w.pool.base.dh.heapIndex p).isSome = true)
    (hdue : (w.pool.base.request p).deadlineNs ≤ now) (hpend : (w.pool.waiting p).probePending = false) :
    ∃ a, Ran cfg now r w [a] (w.expire cfg p) := by
  unfold Sweep.expire
  split
  next hc =>
    have hd : Does cfg now r (fun _ => False) w.pool (.drop p) (w.pool.drop cfg p) := .drop hheap hdue hpend hc
    exact ⟨Act.drop p, .one hd, rfl, hd.weight_lt hS nofun, fun hfd => .inl hfd, fun hw => hw, fun hx => .inl hx,
      Nat.le_succ _⟩
  next hc =>
    have hd : Does cfg now r (fun _ => False) w.pool (.timeout p) (w.pool.claim cfg p 0) :=
      .timeout hheap hdue hpend hc
    refine ⟨Act.timeout p, .one hd, rfl, hd.weight_lt hS nofun, fun hfd => .inl hfd, fun hw => hw, fun hx => ?_, ?_⟩
    · simp only [← append_assoc] at hx
      rcases mem_append.mp hx with hx | hx
      · exact .inl hx
      · exact .inr ⟨p, mem_cons_self, (mem_wakes hx).symm⟩
    · have hone := wakes_length_le w.pool p
      rw [length_append, length_singleton]
      omega

def Ended (now : ℤ) (v : Sweep) : Prop := Idle now v.pool ∨ staleProbeBatch ≤ v.probeFds.length

theorem pass_spec (now : ℤ) (r : Bool) (fuel : ℕ) (w : Sweep) (hS : Sound cfg w.pool h)
    (hfuel : w.pool.weight < fuel) :
    ∃ v more as, Sweep.pass cfg now r fuel w = some (v, more) ∧ Ran cfg now r w as v ∧
      (more = true → timeoutWakeBatch ≤ v.batch.length) ∧ (more = false → Ended now v) := by
  induction fuel generalizing w with
  | zero => omega
  | succ fuel ih =>
    have hspec := turn_spec now hS
    -- one turn, then the rest of the loop
    have hnext : ∀ (u : Sweep) (a : Act), Ran cfg now r w [a] u →
        ∃ v more as, Sweep.pass cfg now r fuel u = some (v, more) ∧ Ran cfg now r w as v ∧
          (more = true → timeoutWakeBatch ≤ v.batch.length) ∧ (more = false → Ended now v) := by
      intro u a hu
      have hlight := hu.light
      rw [length_singleton] at hlight
      obtain ⟨v, more, as, hpass, hran, hend⟩ := ih u (hu.trace.after hS).2 (by omega)
      exact ⟨v, more, [a] ++ as, hpass, hu.trans hS hran, hend⟩
    rw [Sweep.pass]
    cases hturn : w.turn now with
    | idle =>
      rw [hturn] at hspec
      exact ⟨w, false, [], rfl, .refl, nofun, fun _ => .inl hspec⟩
    | more =>
      rw [hturn] at hspec
      exact ⟨w, true, [], rfl, .refl, fun _ => hspec, nofun⟩
    | blocked =>
      rw [hturn] at hspec
      exact ⟨w, false, [], rfl, .refl, nofun, fun _ => .inr hspec⟩
    | probe p =>
      rw [hturn] at hspec
      exact hnext _ _ (ran_probe hS hspec.1 hspec.2.1 hspec.2.2)
    | expire p =>
      rw [hturn] at hspec
      obtain ⟨a, ha⟩ := ran_expire (r := r) hS hspec.1 hspec.2.1 hspec.2.2
      exact hnext _ _ ha

theorem drainMore_spec (now : ℤ) (r : Bool) (fuel : ℕ) (w : Sweep) (hS : Sound cfg w.pool h)
    (hfuel : w.pool.weight < fuel)
    (hbatch : w.batch = []) :
    ∃ v as, Sweep.drainMore cfg now r fuel w = some v ∧ Ran cfg now r w as v ∧ Ended now v := by
  induction fuel generalizing w with
  | zero => omega
  | succ fuel ih =>
    have hweight := weight_le w.pool
    obtain ⟨v, more, as, hpass, hran, hmore, hend⟩ := pass_spec now r
      (2 * w.pool.base.dh.size + 1) w hS (by omega)
    rw [Sweep.drainMore, hpass]
    cases more with
    | false => exact ⟨v.flush, as, rfl, hran.flush, hend rfl⟩
    | true =>
      have hfull := hmore rfl
      have hlen := hran.batch
      have hlight := hran.light
      rw [hbatch, length_nil] at hlen
      rw [timeoutWakeBatch] at hfull
      have hlt : v.flush.pool.weight < fuel := by
        show v.pool.weight < fuel
        omega
      obtain ⟨v', bs, hrest, hran', hend'⟩ := ih v.flush (hran.trace.after hS).2 hlt rfl
      exact ⟨v', as ++ bs, hrest, hran.flush.trans hS hran', hend'⟩

/-! ### The error wake -/

def OnlyErrors (as : List Act) : Prop := ∀ a ∈ as, ∃ p, a = .error p

theorem OnlyErrors.append (h₁ : OnlyErrors as) (h₂ : OnlyErrors bs) : OnlyErrors (as ++ bs) :=
  fun a ha => (mem_append.mp ha).elim (h₁ a) (h₂ a)

/-- What an error wake makes of a sweep. -/
structure Woke (cfg : Config) (now : ℤ) (r : Bool) (D : ℤ → Prop) (w : Sweep) (as : List Act) (v : Sweep) : Prop where
  trace : Trace cfg now r D w.pool as v.pool
  acts : v.acts = w.acts ++ as
  errors : OnlyErrors as
  woken {x : Option ℕ × Option ℕ} (hx : x ∈ v.woken) : x ∈ w.woken ∨ ∃ p, Act.error p ∈ as ∧ w.pool.waiter p = x

theorem Woke.refl : Woke cfg now r D w [] w := ⟨.nil, (append_nil _).symm, nofun, fun hx => .inl hx⟩

theorem Woke.trans (hS : Sound cfg w.pool h) (h₁ : Woke cfg now r D w as u) (h₂ : Woke cfg now r D u bs v) :
    Woke cfg now r D w (as ++ bs) v where
  trace := h₁.trace.trans h₂.trace
  acts := by rw [h₂.acts, h₁.acts, append_assoc]
  errors := h₁.errors.append h₂.errors
  woken hx := by
    simp only [mem_append]
    rcases h₂.woken hx with hu | ⟨p, hp, heq⟩
    · rcases h₁.woken hu with hw | ⟨p, hp, heq⟩
      · exact .inl hw
      · exact .inr ⟨p, .inl hp, heq⟩
    · refine .inr ⟨p, .inr hp, ?_⟩
      rw [← ((h₁.trace.after hS).1.fixed p).2.2]
      exact heq

theorem dispatchFrom_spec {l hl kept : List Parker} {b : ℕ → List Parker} (fd : ℕ) (hD : D fd) (rest : List Parker)
    (fuel : ℕ) (w : Sweep) (hI : PoolInv cfg w.pool h l b hl) (hb : b fd = kept ++ rest) (hfuel : rest.length ≤ fuel) :
    ∃ v as, Sweep.dispatchFrom cfg readWrite fuel rest.head? w = some v ∧ Woke cfg now r D w as v := by
  induction rest generalizing fuel w kept l b hl with
  | nil =>
    refine ⟨w, [], ?_, .refl⟩
    rw [List.head?_nil, Sweep.dispatchFrom]
  | cons p rest ih =>
    obtain ⟨fuel, rfl⟩ : ∃ n, fuel = n + 1 := ⟨fuel - 1, by rw [length_cons] at hfuel; omega⟩
    rw [length_cons] at hfuel
    have hp : p ∈ b fd := by
      rw [hb]
      simp
    obtain ⟨hpl, hfd, -⟩ := hI.base.bucketed.mp hp
    -- the successor is read while `p` is still in the bucket
    have hnext : w.pool.base.index.nextByFd p = rest.head? := by
      have hspells := (hI.base.index.linked fd).spells
      rw [hb] at hspells
      exact hspells.of_append.1
    rw [List.head?_cons, Sweep.dispatchFrom]
    simp only [hnext]
    split
    next =>
      exact ih fuel w hI (hb.trans (append_cons kept p rest)) (by omega)
    next hcond =>
      obtain ⟨hev, hc⟩ := not_or.mp hcond
      have hclaim := hI.claim hpl (readWrite &&& (w.pool.waiting p).events)
      have hnodup := hI.base.index.nodup fd
      have herase : (b fd).erase p = kept ++ rest := by
        rw [hb] at hnodup ⊢
        have hnot : p ∉ kept := fun hk => (nodup_append.mp hnodup).2.2 p hk p mem_cons_self rfl
        rw [erase_append_right _ hnot, erase_cons_head]
      let u : Sweep :=
        { w with
          pool := w.pool.claim cfg p (readWrite &&& (w.pool.waiting p).events)
          woken := w.woken ++ w.pool.wakes p
          acts := w.acts ++ [Act.error p] }
      have hone : Woke cfg now r D w [Act.error p] u :=
        ⟨.one (.error (hI.base.isLinked_iff.mpr hpl) (hfd ▸ hD) hev hc), rfl, fun a ha => ⟨p, mem_singleton.mp ha⟩,
          fun hx => (mem_append.mp hx).imp_right fun hx => ⟨p, mem_cons_self, (mem_wakes hx).symm⟩⟩
      obtain ⟨v, as, hrest, hwoke⟩ := ih (b := fun fd => (b fd).erase p) fuel u hclaim herase (by omega)
      exact ⟨v, [Act.error p] ++ as, hrest, hone.trans ⟨l, b, hl, hI⟩ hwoke⟩

theorem dispatch_spec (now : ℤ) (r : Bool) (fd : ℤ) (hS : Sound cfg w.pool h) :
    ∃ v as, w.dispatch cfg fd readWrite = some v ∧ Woke cfg now r (· = fd) w as v := by
  unfold Sweep.dispatch
  split
  next hvisit =>
    obtain ⟨-, -, hfd, -⟩ := hvisit
    obtain ⟨l, b, hl, hI⟩ := hS
    have hlen : (b fd.toNat).length ≤ w.pool.base.total.toNat := by
      have hsub : b fd.toNat ⊆ l := fun p hp => (hI.base.bucketed.mp hp).1
      have hle := (hI.base.index.nodup fd.toNat).length_le_of_subset hsub
      rw [hI.base.total]
      exact hle
    rw [hI.base.index.first]
    have heq : (fd.toNat : ℤ) = fd := Int.toNat_of_nonneg hfd
    exact dispatchFrom_spec fd.toNat heq _ _ w hI (nil_append _).symm hlen
  next => exact ⟨w, [], rfl, .refl⟩

end Runloom.ParkerPool
