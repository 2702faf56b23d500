import Runloom.Task.Model

/-!
# Every await is completed once

While the driver waits for a future that is not done, its wake is among the callbacks of that
future; once the future is done, the wake is still to run or has left a credit.
-/

namespace Runloom.Task

open Transition List

variable {F E M : Type*}

namespace Pc

def waiting : Pc F E M → Option F
  | .parking f | .parked f | .woken f | .returned f => some f
  | _ => none

def inAwait : Pc F E M → Bool
  | .top awaited _ _ => awaited.isSome
  | pc => pc.waiting.isSome

def holds : Pc F E M → Bool
  | .top _ _ consumed => consumed
  | _ => false

def idle : Pc F E M → Bool
  | .unspawned | .created | .running | .bare | .top none _ false => true
  | _ => false

def ended : Pc F E M → Bool
  | .finished => true
  | _ => false

/-- The driver runs, and `_self_g` is its fiber. -/
def live : Pc F E M → Bool
  | .unspawned | .created | .finished => false
  | _ => true

end Pc

def Outcome.delivery (o : Outcome E) : Delivery E M :=
  match o.throwExc with
  | none => .send
  | some exc => .throw exc

def Woken (pc : Pc F E M) (fut : F → Option (Outcome E)) (calls credit : Nat) : Prop :=
  match pc with
  | .parking f => fut f ≠ none → 0 < calls ∨ 0 < credit
  | .parked f => credit = 0 ∧ (fut f ≠ none → 0 < calls)
  | _ => True

def TopOk (pc : Pc F E M) (fut : F → Option (Outcome E)) (early refused : Bool) : Prop :=
  match pc with
  | .top (some f) throwExc consumed =>
    if consumed then
      (∃ msg, throwExc = some (.cancelled msg)) ∧ (fut f ≠ none ∨ refused = true ∨ early = true)
    else ∃ o, fut f = some o ∧ throwExc = o.throwExc
  | _ => True

/-- The coroutine received a cancel, or what its future was settled with. -/
def ResumeOk (e : Resume F E M) : Prop :=
  e.awaited = none ∨ (e.consumed = true ∧ (∃ msg, e.got = .throw (.cancelled msg)) ∧
      (e.outcome ≠ none ∨ e.refused = true ∨ e.early = true)) ∨
    ∃ o, e.outcome = some o ∧ e.got = o.delivery

structure Inv (s : State F E M) : Prop where
  waiter : s.futWaiter = s.pc.waiting
  selfG : s.selfG = s.pc.live
  registered : ∀ f, s.pc.waiting = some f → s.fut f = none → 0 < s.callbacks f
  woken : Woken s.pc s.fut s.calls s.credit
  top : TopOk s.pc s.fut s.early s.refused
  settled : s.settled.length = s.pc.ended.toNat
  log : ∀ e ∈ s.log, ResumeOk e
  awaits : s.log.countP (·.awaited.isSome) + s.pc.inAwait.toNat = s.awaits
  cancels : s.log.countP (·.consumed) + s.pc.holds.toNat + s.mustCancel.toNat ≤ s.cancels
  early : s.mustCancel = true → s.early = true ∨ s.futWaiter ≠ none ∧ s.refused = true

variable {s s' : State F E M}

theorem Inv.init (h : Init s) : Inv s where
  waiter := by
    rw [h.futWaiter, h.pc]
    rfl
  selfG := by
    rw [h.selfG, h.pc]
    rfl
  registered f hf := by
    rw [h.pc] at hf
    cases hf
  woken := by
    rw [h.pc]
    trivial
  top := by
    rw [h.pc]
    trivial
  settled := by
    rw [h.settled, h.pc]
    rfl
  log e he := by
    rw [h.log] at he
    cases he
  awaits := by
    rw [h.log, h.pc, h.awaits]
    rfl
  cancels := by
    rw [h.log, h.pc, h.mustCancel]
    exact Nat.zero_le _
  early hm := by
    rw [h.mustCancel] at hm
    cases hm

/-! ## The fiber is woken -/

theorem Inv.wakeSafe (hI : Inv s) : Inv s.wakeSafe := by
  obtain ⟨hwaiter, hself, hreg, hwoken, htop, hset, hlog, hawaits, hcancels, hearly⟩ := hI
  unfold State.wakeSafe
  split
  next f hpc =>
    rw [hpc] at hwaiter hself hreg hset hawaits hcancels
    exact ⟨hwaiter, hself, hreg, trivial, trivial, hset, hlog, hawaits, hcancels, hearly⟩
  next hne =>
    refine ⟨hwaiter, hself, hreg, ?_, htop, hset, hlog, hawaits, hcancels, hearly⟩
    cases hpc : s.pc with
    | parked f => exact absurd hpc (hne f)
    | parking f => exact fun _ => .inr (Nat.succ_pos _)
    | _ => trivial

theorem Inv.callback (hI : Inv s) : Inv (if s.selfG then { s with calls := s.calls - 1 }.wakeSafe
      else { s with calls := s.calls - 1 }) := by
  obtain ⟨hwaiter, hself, hreg, hwoken, htop, hset, hlog, hawaits, hcancels, hearly⟩ := hI
  split
  next hg =>
    unfold State.wakeSafe
    split
    next f hpc =>
      simp only at hpc
      rw [hpc] at hwaiter hself hreg hset hawaits hcancels
      exact ⟨hwaiter, hself, hreg, trivial, trivial, hset, hlog, hawaits, hcancels, hearly⟩
    next hne =>
      refine ⟨hwaiter, hself, hreg, ?_, htop, hset, hlog, hawaits, hcancels, hearly⟩
      cases hpc : s.pc with
      | parked f => exact absurd hpc (hne f)
      | parking f => exact fun _ => .inr (Nat.succ_pos _)
      | _ => trivial
  next hg =>
    refine ⟨hwaiter, hself, hreg, ?_, htop, hset, hlog, hawaits, hcancels, hearly⟩
    cases hpc : s.pc with
    | parked f | parking f =>
      rw [hself, hpc] at hg
      exact absurd rfl hg
    | _ => trivial

/-! ## The task is cancelled -/

theorem TopOk.mono {pc : Pc F E M} {fut : F → Option (Outcome E)} {early early' refused refused' : Bool}
    (h : TopOk pc fut early refused) (he : early = true → early' = true)
    (hr : refused = true → refused' = true) : TopOk pc fut early' refused' := by
  unfold TopOk at h ⊢
  split
  next f throwExc consumed =>
    simp only at h
    split
    next hc =>
      rw [if_pos hc] at h
      refine ⟨h.1, ?_⟩
      rcases h.2 with h | h | h
      · exact .inl h
      · exact .inr (.inl (hr h))
      · exact .inr (.inr (he h))
    next hc =>
      rw [if_neg hc] at h
      exact h
  next => trivial

theorem Inv.cancel (hI : Inv s) {msg : Option M} {taken netpoll : Bool}
    (h : s.cancel msg taken netpoll = some s') : Inv s' := by
  obtain ⟨hwaiter, hself, hreg, hwoken, htop, hset, hlog, hawaits, hcancels, hearly⟩ := hI
  have hcancels' : s.log.countP (·.consumed) + s.pc.holds.toNat + s.mustCancel.toNat ≤ s.cancels + 1 := by omega
  have hmust : s.log.countP (·.consumed) + s.pc.holds.toNat + 1 ≤ s.cancels + 1 := by omega
  unfold State.cancel at h
  simp only at h
  split at h
  next f hf =>
    split at h
    · split at h <;> cases h
      exact ⟨hwaiter, hself, hreg, hwoken, htop, hset, hlog, hawaits, hcancels', hearly⟩
    · cases h
      have hpc : s.pc.holds = false ∧ TopOk s.pc s.fut (s.early && s.mustCancel) true := by
        rw [hf] at hwaiter
        cases hpc : s.pc with
        | top awaited throwExc consumed =>
          rw [hpc] at hwaiter
          cases hwaiter
        | _ => exact ⟨rfl, trivial⟩
      refine ⟨hwaiter, hself, hreg, hwoken, hpc.2, hset, hlog, hawaits, hmust, fun _ => ?_⟩
      exact .inr ⟨by rw [hf]; nofun, rfl⟩
  next hf =>
    have hI' : Inv { s with
        cancelRequested := true, cancelMsg := msg, numCancels := s.numCancels + 1,
        cancels := s.cancels + 1, mustCancel := true, early := true } :=
      ⟨hwaiter, hself, hreg, hwoken, htop.mono (fun _ => rfl) id, hset, hlog, hawaits, hmust, fun _ => .inl rfl⟩
    split at h
    · split at h <;> cases h
      · exact hI'.wakeSafe
      · exact hI'
    · cases h
      exact hI'

theorem Inv.uncancel (hI : Inv s) : Inv s.uncancel := by
  obtain ⟨hwaiter, hself, hreg, hwoken, htop, hset, hlog, hawaits, hcancels, hearly⟩ := hI
  unfold State.uncancel
  simp only
  split
  · refine ⟨hwaiter, hself, hreg, hwoken, htop, hset, hlog, hawaits, ?_, nofun⟩
    exact Nat.le_trans (Nat.le_add_right _ _) hcancels
  · exact ⟨hwaiter, hself, hreg, hwoken, htop, hset, hlog, hawaits, hcancels, hearly⟩

/-! ## The futures -/

variable [DecidableEq F]

theorem Inv.complete (hI : Inv s) {f : F} {o : Outcome E} (hf : s.fut f = none) : Inv (s.complete f o) := by
  have hkeep : ∀ g o', s.fut g = some o' → update s.fut f (some o) g = some o' := by
    intro g o' hg
    have hgf : g ≠ f := by
      rintro rfl
      rw [hf] at hg
      cases hg
    rw [update_of_ne hgf]
    exact hg
  have hcalls : ∀ g, s.pc.waiting = some g → update s.fut f (some o) g ≠ none →
      s.fut g ≠ none ∨ 0 < s.calls + s.callbacks f := by
    intro g hg hdone
    by_cases hgf : g = f
    · subst hgf
      have := hI.registered g hg hf
      exact .inr (by omega)
    · rw [update_of_ne hgf] at hdone
      exact .inl hdone
  refine ⟨hI.waiter, hI.selfG, ?_, ?_, ?_, hI.settled, hI.log, hI.awaits, hI.cancels, hI.early⟩
  · intro g hg hnone
    simp only [State.complete] at hnone ⊢
    by_cases hgf : g = f
    · rw [hgf, update_self] at hnone
      cases hnone
    · rw [update_of_ne hgf] at hnone ⊢
      exact hI.registered g hg hnone
  · have hwoken := hI.woken
    simp only [State.complete]
    cases hpc : s.pc with
    | parking g =>
      rw [hpc] at hwoken hcalls
      intro hdone
      rcases hcalls g rfl hdone with h | h
      · rcases hwoken h with h | h
        · exact .inl (by omega)
        · exact .inr h
      · exact .inl h
    | parked g =>
      rw [hpc] at hwoken hcalls
      refine ⟨hwoken.1, fun hdone => ?_⟩
      rcases hcalls g rfl hdone with h | h
      · have := hwoken.2 h
        omega
      · exact h
    | _ => trivial
  · have htop := hI.top
    unfold TopOk at htop ⊢
    simp only [State.complete]
    split
    next g throwExc consumed hpc =>
      rw [hpc] at htop
      simp only at htop
      split
      next hc =>
        rw [if_pos hc] at htop
        refine ⟨htop.1, htop.2.imp_left fun hdone => ?_⟩
        obtain ⟨o', ho'⟩ := Option.ne_none_iff_exists'.mp hdone
        rw [hkeep g o' ho']
        nofun
      next hc =>
        rw [if_neg hc] at htop
        obtain ⟨o', ho', hexc⟩ := htop
        exact ⟨o', hkeep g o' ho', hexc⟩
    next => trivial

/-! ## The driver -/

section Idle

variable {pc : Pc F E M} {fut : F → Option (Outcome E)} {calls credit : Nat} {early refused : Bool}

section

omit [DecidableEq F]

theorem Pc.of_idle (h : pc.idle = true) :
    pc.waiting = none ∧ pc.inAwait = false ∧ pc.holds = false ∧ pc.ended = false := by
  unfold Pc.idle at h
  split at h <;> first | exact ⟨rfl, rfl, rfl, rfl⟩ | cases h

theorem woken_of_idle (h : pc.idle = true) : Woken pc fut calls credit := by
  cases pc <;> trivial

theorem topOk_of_idle (h : pc.idle = true) : TopOk pc fut early refused := by
  cases pc with
  | top awaited throwExc consumed =>
    cases awaited with
    | none => trivial
    | some f => cases h
  | _ => trivial

end

end Idle

section

omit [DecidableEq F]

theorem Inv.move (hI : Inv s) {pc : Pc F E M} {g : Bool} {c : Nat} (hold : s.pc.idle = true)
    (hnew : pc.idle = true) (hg : g = pc.live) :
    Inv { s with pc := pc, selfG := g, credit := c } := by
  obtain ⟨hw, ha, hh, he⟩ := Pc.of_idle hold
  obtain ⟨hw', ha', hh', he'⟩ := Pc.of_idle hnew
  obtain ⟨hwaiter, hself, hreg, hwoken, htop, hset, hlog, hawaits, hcancels, hearly⟩ := hI
  rw [hw] at hwaiter
  rw [ha] at hawaits
  rw [hh] at hcancels
  rw [he] at hset
  refine ⟨hwaiter.trans hw'.symm, hg, fun f hf => ?_, woken_of_idle hnew, topOk_of_idle hnew, ?_,
    hlog, ?_, ?_, hearly⟩
  · rw [hw'] at hf
    cases hf
  · show s.settled.length = pc.ended.toNat
    rw [he']
    exact hset
  · show _ + pc.inAwait.toNat = _
    rw [ha']
    exact hawaits
  · show _ + pc.holds.toNat + _ ≤ _
    rw [hh']
    exact hcancels

theorem Inv.settle (hI : Inv s) {o : Outcome E} (hidle : s.pc.idle = true) : Inv (s.settle o) := by
  -- The driver was running until now, so the task is settled for the first time.
  have hI' : Inv { s with pc := .created, selfG := false } := hI.move hidle rfl rfl
  have hempty : s.settled = [] := length_eq_zero_iff.mp hI'.settled
  refine ⟨hI'.waiter, rfl, nofun, trivial, trivial, ?_, hI.log, hI'.awaits, hI'.cancels, hI.early⟩
  simp only [State.settle, hempty]
  rfl

theorem Inv.resume (hI : Inv s) {awaited : Option F} {throwExc : Option (Exc E M)} {consumed : Bool}
    (hpc : s.pc = .top awaited throwExc consumed) : Inv (s.resume awaited throwExc consumed) := by
  obtain ⟨hwaiter, hself, hreg, hwoken, htop, hset, hlog, hawaits, hcancels, hearly⟩ := hI
  rw [hpc] at hwaiter hself htop hset hawaits hcancels
  refine ⟨hwaiter, hself, nofun, trivial, trivial, hset, ?_, ?_, ?_, ?_⟩
  · intro e he
    rcases mem_append.mp he with he | he
    · exact hlog e he
    rw [mem_singleton.mp he]
    cases awaited with
    | none => exact .inl rfl
    | some f =>
      -- A cancel that is pending here came while the task did not wait.
      have hpending : s.mustCancel = true → s.early = true := by
        intro hm
        rcases hearly hm with h | h
        · exact h
        · exact absurd hwaiter h.1
      refine .inr ?_
      cases consumed with
      | true =>
        obtain ⟨⟨msg, rfl⟩, hwhy⟩ := htop
        refine .inl ⟨rfl, ⟨msg, ?_⟩, hwhy⟩
        simp
      | false =>
        obtain ⟨o, ho, rfl⟩ := htop
        cases hd : s.mustCancel && (o.throwExc (M := M)).isNone with
        | true =>
          refine .inl ⟨rfl, ⟨s.cancelMsg, rfl⟩, .inr (.inr (hpending ?_))⟩
          exact (Bool.and_eq_true_iff.mp hd).1
        | false => exact .inr ⟨o, ho, rfl⟩
  · show (s.log ++ [_]).countP _ + 0 = s.awaits
    rw [countP_append, countP_singleton, ← hawaits]
    cases awaited <;> rfl
  · simp only [State.resume, countP_append, countP_singleton]
    simp only [Pc.holds] at hcancels ⊢
    cases consumed <;> cases hm : s.mustCancel <;> cases throwExc <;>
      simp [hm] at hcancels ⊢ <;> omega
  · intro hm
    exact hearly (Bool.and_eq_true_iff.mp hm).1

end

theorem Inv.await (hI : Inv s) {f : F} (hpc : s.pc = .running) : Inv (s.await f) := by
  obtain ⟨hwaiter, hself, hreg, hwoken, htop, hset, hlog, hawaits, hcancels, hearly⟩ := hI
  rw [hpc] at hwaiter hself hset hawaits hcancels
  have hearly' : s.mustCancel = true → s.early = true := by
    intro hm
    rcases hearly hm with h | h
    · exact h
    · exact absurd hwaiter h.1
  unfold State.await
  simp only
  split
  next o ho =>
    refine ⟨hwaiter, hself, nofun, trivial, ⟨o, ho, rfl⟩, hset, hlog, ?_, hcancels, fun hm => .inl (hearly' hm)⟩
    show s.log.countP _ + 1 = s.awaits + 1
    rw [← hawaits]
    rfl
  next hf =>
    refine ⟨rfl, hself, ?_, fun hdone => absurd hf hdone, trivial, hset, hlog, ?_, hcancels,
      fun hm => .inl (hearly' hm)⟩
    · intro g hg _
      cases hg
      simp only [update_self]
      exact Nat.succ_pos _
    · show s.log.countP _ + 1 = s.awaits + 1
      rw [← hawaits]
      rfl

variable {equality : F → Bool}

theorem Inv.check (hI : Inv s) {f : F} (hpc : s.pc = .returned f) : Inv (s.check equality f) := by
  obtain ⟨hwaiter, hself, hreg, hwoken, htop, hset, hlog, hawaits, hcancels, hearly⟩ := hI
  rw [hpc] at hwaiter hself hreg hset hawaits hcancels
  unfold State.check
  split
  next hm hf =>
    exact ⟨hwaiter, hself, hreg, fun hdone => absurd hf hdone, trivial, hset, hlog, hawaits, hcancels, hearly⟩
  next hm =>
    refine ⟨rfl, hself, nofun, trivial, ⟨⟨_, rfl⟩, ?_⟩, hset, hlog, hawaits, ?_, nofun⟩
    · rcases hearly hm with h | h
      · exact .inr (.inr h)
      · exact .inr (.inl h.2)
    · rw [hm] at hcancels
      exact hcancels
  next o hm ho =>
    refine ⟨rfl, hself, nofun, trivial, ⟨o, ho, rfl⟩, hset, hlog, hawaits, hcancels, ?_⟩
    intro h
    rw [show s.mustCancel = true from h] at hm
    cases hm

omit [DecidableEq F] in
theorem Inv.park (hI : Inv s) {f : F} (hpc : s.pc = .parking f) :
    Inv (if s.credit = 0 then { s with pc := .parked f }
      else { s with credit := s.credit - 1, pc := .returned f }) := by
  obtain ⟨hwaiter, hself, hreg, hwoken, htop, hset, hlog, hawaits, hcancels, hearly⟩ := hI
  rw [hpc] at hwaiter hself hreg hwoken hset hawaits hcancels
  split
  next hc =>
    refine ⟨hwaiter, hself, hreg, ⟨hc, fun hdone => ?_⟩, trivial, hset, hlog, hawaits, hcancels, hearly⟩
    have := hwoken hdone
    show 0 < s.calls
    omega
  next => exact ⟨hwaiter, hself, hreg, trivial, trivial, hset, hlog, hawaits, hcancels, hearly⟩

theorem Inv.drive (hI : Inv s) {a : Action F E M} (h : drive equality s a s.pc = some s') : Inv s' := by
  have hself := hI.selfG
  unfold Task.drive at h
  split at h
  next hpc =>
    cases h
    unfold State.spawnDriver
    rw [hpc] at hself
    split
    · exact hI.settle (by rw [hpc]; rfl)
    · exact hI.move (by rw [hpc]; rfl) rfl hself
  next hpc =>
    cases h
    exact hI.move (by rw [hpc]; rfl) rfl rfl
  next hpc =>
    cases h
    exact hI.resume hpc
  next hpc =>
    cases h
    exact hI.await hpc
  next hpc =>
    cases h
    rw [hpc] at hself
    exact hI.move (by rw [hpc]; rfl) rfl hself
  next hpc =>
    cases h
    rw [hpc] at hself
    exact hI.move (by rw [hpc]; rfl) rfl hself
  next hpc =>
    cases h
    exact hI.settle (by rw [hpc]; rfl)
  next hpc =>
    cases h
    have hI' : Inv { s with pc := s.pc, credit := s.credit - 1 } :=
      hI.move (by rw [hpc]; rfl) (by rw [hpc]; rfl) hself
    exact hI'
  next hpc =>
    cases h
    rw [hpc] at hself
    exact hI.move (by rw [hpc]; rfl) rfl hself
  next f hpc =>
    have hI' := hI.park hpc
    split at h <;> cases h
    next hc =>
      rw [if_pos hc] at hI'
      exact hI'
    next hc =>
      rw [if_neg hc] at hI'
      exact hI'
  next f hpc =>
    cases h
    obtain ⟨hwaiter, hself, hreg, hwoken, htop, hset, hlog, hawaits, hcancels, hearly⟩ := hI
    rw [hpc] at hwaiter hself hreg hset hawaits hcancels
    exact ⟨hwaiter, hself, hreg, trivial, trivial, hset, hlog, hawaits, hcancels, hearly⟩
  next f hpc =>
    cases h
    exact hI.check hpc
  next => cases h

theorem Inv.step (hI : Inv s) {a : Action F E M} (h : step equality s a = some s') : Inv s' := by
  unfold Task.step at h
  split at h
  next =>
    split at h
    · exact hI.cancel h
    · cases h
      exact hI
  next =>
    cases h
    exact hI.uncancel
  next f o =>
    split at h <;> cases h
    next hf => exact hI.complete hf
  next =>
    split at h <;> cases h
    exact hI.callback
  next =>
    split at h <;> cases h
    exact hI.wakeSafe
  next => exact hI.drive h

theorem inv_of_reachable (h : (driver equality).Reachable s) : Inv s :=
  h.invariant (fun _ => Inv.init) fun _ _ _ hI _ hs => hI.step hs

/-! ## Runs -/

theorem settled_of_step {a : Action F E M} {o : Outcome E}
    (hs : s.settled = [o]) (h : step equality s a = some s') : s'.settled = [o] := by
  unfold step at h
  split at h
  · rw [if_neg (by rw [hs]; nofun)] at h
    cases h
    exact hs
  · cases h
    unfold State.uncancel
    simp only
    split <;> exact hs
  · split at h <;> cases h
    exact hs
  · split at h <;> cases h
    split <;> exact hs
  · split at h <;> cases h
    exact hs
  · have hsettle : ∀ o', (s.settle o').settled = [o] := by
      intro o'
      simp only [State.settle, hs]
      rfl
    unfold drive at h
    split at h
    · cases h
      unfold State.spawnDriver
      split
      · exact hsettle _
      · exact hs
    · cases h
      exact hs
    · cases h
      exact hs
    · cases h
      unfold State.await
      simp only
      split <;> exact hs
    · cases h
      exact hs
    · cases h
      exact hs
    · cases h
      exact hsettle _
    · cases h
      exact hs
    · cases h
      exact hs
    · split at h <;> cases h <;> exact hs
    · cases h
      exact hs
    · cases h
      unfold State.check
      split <;> exact hs
    · cases h

/-- Every await ends with one resumption, and the driver is never left parked on a future that is done. -/
theorem awaits_completed_once {equality : F → Bool} (h : (driver equality).Reachable s) :
    (∀ e ∈ s.log, ∀ f, e.awaited = some f → e.consumed = true ∧ (∃ msg, e.got = .throw (.cancelled msg)) ∨
      ∃ o, e.outcome = some o ∧ e.got = o.delivery) ∧
    s.log.countP (·.awaited.isSome) + s.pc.inAwait.toNat = s.awaits ∧
    s.log.countP (·.consumed) ≤ s.cancels ∧
    (s.settled.length = if s.pc.ended then 1 else 0) ∧
    (∀ o as s', s.settled = [o] → (driver equality).run s as = some s' → s'.settled = [o]) ∧
    ∀ f, s.pc = .parked f → s.fut f ≠ none → 0 < s.credit ∨ 0 < s.calls := by
  have hI := inv_of_reachable h
  refine ⟨?_, hI.awaits, ?_, ?_, ?_, ?_⟩
  · intro e he f hf
    rcases hI.log e he with h | h | h
    · rw [h] at hf
      cases hf
    · exact .inl ⟨h.1, h.2.1⟩
    · exact .inr h
  · have := hI.cancels
    omega
  · rw [hI.settled]
    cases s.pc.ended <;> rfl
  · intro o as s' hs hrun
    apply System.run_invariant (P := fun s => s.settled = [o]) _ hs hrun
    exact fun _ _ _ hs ha => settled_of_step hs ha
  · intro f hf hdone
    have hwoken := hI.woken
    rw [hf] at hwoken
    exact .inr (hwoken.2 hdone)

/-- A cancel that comes while the coroutine runs is given to it at its next await. -/
theorem awaits_completed_once_cancelled :
    ∃ s : State (Fin 2) Unit Unit, (driver fun _ => false).Reachable s ∧ s.settled = [.cancelled] ∧
      s.awaits = 2 ∧ s.log.countP (·.awaited.isSome) = 2 ∧ s.log.countP (·.consumed) ≤ s.cancels := by
  obtain ⟨s, hr, hset, haw, hpc⟩ := (driver (F := Fin 2) (E := Unit) (M := Unit) fun _ => false).reaches
    (fun s => s.settled = [.cancelled] ∧ s.awaits = 2 ∧ s.pc = .finished)
    [.spawn, .start, .resume, .await 0, .park, .complete 0 .result, .callback, .unpark, .check,
      .resume, .cancel none true false, .await 1, .park, .check, .resume, .finish .cancelled]
    ⟨rfl, rfl, rfl, rfl, rfl, rfl, rfl, fun _ => rfl, rfl, rfl, rfl, rfl, rfl, rfl⟩
    (s := ⟨.unspawned, false, false, false, 0, none, none, 0, fun _ => none, fun _ => 0, 0, [], [], 0,
      0, [], false, false⟩) (by decide +kernel)
  obtain ⟨-, hcount, hcons, -⟩ := awaits_completed_once hr
  rw [hpc, haw] at hcount
  exact ⟨s, hr, hset, haw, hcount, hcons⟩

/-! ## Cancellation and the awaited future -/

/-- A cancel that came while the task did not wait is given before the future is done. -/
theorem cancel_overtakes_future : ¬∀ s : State (Fin 1) Unit Unit, (driver fun _ => false).Reachable s →
      ∀ e ∈ s.log, ∀ f, e.awaited = some f → e.outcome ≠ none := by
  intro hclaim
  obtain ⟨s, hr, hp⟩ := (driver (F := Fin 1) (E := Unit) (M := Unit) fun _ => false).reaches
    (fun s => ⟨some 0, .throw (.cancelled none), none, true, true, false⟩ ∈ s.log ∧ s.asked = [])
    [.spawn, .start, .resume, .cancel none false false, .await 0, .park, .check, .resume]
    ⟨rfl, rfl, rfl, rfl, rfl, rfl, rfl, fun _ => rfl, rfl, rfl, rfl, rfl, rfl, rfl⟩
    (s := ⟨.unspawned, false, false, false, 0, none, none, 0, fun _ => none, fun _ => 0, 0, [], [], 0,
      0, [], false, false⟩) (by decide +kernel)
  exact hclaim s hr _ hp.1 0 rfl rfl

/-- At an await of a future that did not refuse a cancel, the coroutine is resumed when that is done, or for a
cancel from between its waits. -/
theorem cancel_waits_for_future {equality : F → Bool} (h : (driver equality).Reachable s) :
    (∀ e ∈ s.log, ∀ f, e.awaited = some f → e.refused = false → e.outcome ≠ none ∨
      e.consumed = true ∧ (∃ msg, e.got = .throw (.cancelled msg)) ∧ e.early = true) ∧
    ∀ f msg taken netpoll s', s.pc.waiting = some f →
      (driver equality).step s (.cancel msg taken netpoll) = some s' →
      s'.asked = s.asked ++ [(f, msg)] ∧ s'.pc = s.pc ∧ s'.credit = s.credit ∧
      (taken = true → s'.mustCancel = s.mustCancel ∧ s'.early = s.early ∧ s'.refused = s.refused) := by
  have hI := inv_of_reachable h
  constructor
  · intro e he f hf hr
    rcases hI.log e he with h | ⟨hcons, hgot, h⟩ | ⟨o, ho, -⟩
    · rw [h] at hf
      cases hf
    · rcases h with h | h | h
      · exact .inl h
      · rw [h] at hr
        cases hr
      · exact .inr ⟨hcons, hgot, h⟩
    · rw [ho]
      exact .inl nofun
  · intro f msg taken netpoll s' hf hstep
    have hset : s.settled = [] := by
      have hlen := hI.settled
      cases hpc : s.pc with
      | finished =>
        rw [hpc] at hf
        cases hf
      | _ =>
        rw [hpc] at hlen
        exact length_eq_zero_iff.mp hlen
    rw [← hI.waiter] at hf
    simp only [driver, step, if_pos hset, State.cancel, hf] at hstep
    split at hstep
    next ht =>
      split at hstep <;> cases hstep
      exact ⟨rfl, rfl, rfl, fun _ => ⟨rfl, rfl, rfl⟩⟩
    next ht =>
      cases hstep
      exact ⟨rfl, rfl, rfl, fun h => absurd h ht⟩

/-- The future takes the cancel and completes later. -/
theorem cancel_waits_for_future_taken : ∃ s : State (Fin 1) Unit Unit, (driver fun _ => false).Reachable s ∧
      ∃ e ∈ s.log, e.awaited = some 0 ∧ e.refused = false ∧ e.outcome ≠ none := by
  obtain ⟨s, hr, he⟩ := (driver (F := Fin 1) (E := Unit) (M := Unit) fun _ => false).reaches
    (fun s => ⟨some 0, .throw .futureCancelled, some .cancelled, false, false, false⟩ ∈ s.log)
    [.spawn, .start, .resume, .await 0, .park, .cancel none true false, .wake, .unpark, .check, .park,
      .complete 0 .cancelled, .callback, .unpark, .check, .resume]
    ⟨rfl, rfl, rfl, rfl, rfl, rfl, rfl, fun _ => rfl, rfl, rfl, rfl, rfl, rfl, rfl⟩
    (s := ⟨.unspawned, false, false, false, 0, none, none, 0, fun _ => none, fun _ => 0, 0, [], [], 0,
      0, [], false, false⟩) (by decide +kernel)
  rcases (cancel_waits_for_future hr).1 _ he 0 rfl rfl with h | h
  · exact ⟨s, hr, _, he, rfl, rfl, h⟩
  · cases h.1

end Runloom.Task
