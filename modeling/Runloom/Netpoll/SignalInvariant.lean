import Runloom.Netpoll.SignalModel

/-!
# Who is responsible for an exception

An exception handed to `signal_wake` is first with the delivery that looks for a parker, then with the call whose
parker was claimed, and a slot is never taken without one of the two behind it.
-/

namespace Runloom.Netpoll.Signal

open Transition Commit State

/-! ## Reading the counters -/

def WaitPc.isReturned : WaitPc → Bool
  | .returned .. => true
  | _ => false

def WaitPc.asleep : WaitPc → Bool
  | .park => true
  | .yielded => true
  | _ => false

def SigPc.exc : SigPc → Option ℕ
  | .idle => none
  | .pools e => some e
  | .walk e _ => some e
  | .load e _ => some e
  | .cas e _ _ => some e
  | .giveBack e _ => some e
  | .store e _ _ => some e
  | .unlink e _ _ => some e
  | .requeue e _ _ => some e
  | .unlock e _ => some e

def SigPc.loose : SigPc → Option ℕ
  | .pools e => some e
  | .walk e _ => some e
  | .load e _ => some e
  | .cas e _ _ => some e
  | .giveBack e _ => some e
  | _ => none

def SigPc.reserved : SigPc → Option ℕ
  | .load _ c => some c
  | .cas _ c _ => some c
  | .giveBack _ c => some c
  | _ => none

def SigPc.owes : SigPc → Option ℕ
  | .store _ c .parked => some c
  | .unlink _ c .parked => some c
  | .requeue _ c .parked => some c
  | _ => none

/-! ## The invariant -/

variable {cfg : Setup}

def WaitOk (s : State) (c : ℕ) : WaitPc → Prop
  | .idle => s.linked c = false ∧ s.claimed c = none ∧ s.commit c = .armed
  | .consume _ => s.commit c ≠ .parked
  | .register => s.commit c ≠ .parked
  | .commit => s.commit c ≠ .parked
  | .leaveEarly _ => s.commit c ≠ .parked
  | .park => s.commit c ≠ .armed
  | .yielded => s.commit c ≠ .armed
  | .check => s.linked c = false
  | .take => s.linked c = false ∧ s.claimed c ≠ none
  | .clear exc => s.linked c = false ∧ s.claimed c = exc ∧ exc ≠ none
  | .returned r raised =>
    s.linked c = false ∧ ∀ e, s.claimed c = some e → r = -1 ∧ raised = some e
  | _ => True

/-- What a `signal_wake` can rely on. -/
def SigOk (cfg : Setup) (s : State) (w : ℕ) : SigPc → Prop
  | .idle => True
  | .pools _ => True
  | .walk _ p => s.lock p = some w
  | .load e c => s.lock (cfg.pool c) = some w ∧ s.linked c = true ∧ s.slot (cfg.owner c) = some e
  | .cas e c cur =>
    s.lock (cfg.pool c) = some w ∧ s.linked c = true ∧ s.slot (cfg.owner c) = some e ∧ cur ≠ .woken
  | .giveBack e c =>
    s.lock (cfg.pool c) = some w ∧ s.linked c = true ∧ s.slot (cfg.owner c) = some e
  | .store e c _ => s.lock (cfg.pool c) = some w ∧ s.linked c = true ∧ s.claimed c = some e
  | .unlink e c _ =>
    s.lock (cfg.pool c) = some w ∧ s.claimed c = some e ∧ s.readyMask c = NETPOLL_SIGNALED
  | .requeue e c _ =>
    s.lock (cfg.pool c) = some w ∧ s.claimed c = some e ∧ s.readyMask c = NETPOLL_SIGNALED
  | .unlock e c =>
    s.lock (cfg.pool c) = some w ∧ s.claimed c = some e ∧ s.readyMask c = NETPOLL_SIGNALED ∧
      ((s.wait c).asleep = true → 0 < s.queued c)

/-- A parker claimed with `e` carries the sentinel, or is about to, and the slot holds `e` until the call returns. -/
structure Claimed (cfg : Setup) (s : State) (c e : ℕ) : Prop where
  used : e ∈ s.used
  commit : s.commit c = .woken
  sentinel : s.readyMask c = NETPOLL_SIGNALED ∨ ∃ w cur, s.sig w = .store e c cur
  slot : (s.wait c).isReturned = false → s.slot (cfg.owner c) = some e
  wake : (s.wait c).asleep = true → 0 < s.queued c ∨ ∃ w, (s.sig w).owes = some c

/-- Whoever put `e` into the slot of `o` is responsible for it. -/
def Holder (cfg : Setup) (s : State) (o e : ℕ) : Prop :=
  (∃ w c, (s.sig w).loose = some e ∧ (s.sig w).reserved = some c ∧ cfg.owner c = o) ∨
    ∃ c, s.claimed c = some e ∧ cfg.owner c = o ∧ (s.wait c).isReturned = false

structure Inv (cfg : Setup) (s : State) : Prop where
  wait : ∀ c, WaitOk s c (s.wait c)
  sig : ∀ w, SigOk cfg s w (s.sig w)
  claimed : ∀ c e, s.claimed c = some e → Claimed cfg s c e
  unique : ∀ c d e, s.claimed c = some e → s.claimed d = some e → c = d
  sentinel : ∀ c, s.readyMask c = NETPOLL_SIGNALED → s.claimed c ≠ none
  excUsed : ∀ w e, (s.sig w).exc = some e → e ∈ s.used
  excUnique : ∀ w v e, (s.sig w).exc = some e → (s.sig v).exc = some e → w = v
  loose : ∀ w e, (s.sig w).loose = some e → ∀ c, s.claimed c ≠ some e
  holder : ∀ o e, s.slot o = some e → Holder cfg s o e
  delivered : ∀ c e, (c, e) ∈ s.delivered → s.claimed c = some e ∧ ((s.wait c).asleep = true → 0 < s.queued c)

variable {s u : State} {c w : ℕ}

theorem Inv.of_init (h : Init s) : Inv cfg s where
  wait c := by
    rw [h.wait]
    exact ⟨h.linked c, h.claimed c, h.commit c⟩
  sig w := by
    rw [h.sig]
    trivial
  claimed c e he := by
    rw [h.claimed] at he
    cases he
  unique c d e he := by
    rw [h.claimed] at he
    cases he
  sentinel c hc := by
    rw [h.readyMask] at hc
    exact absurd hc (by decide)
  excUsed w e he := by
    rw [h.sig] at he
    cases he
  excUnique w v e he := by
    rw [h.sig] at he
    cases he
  loose w e he := by
    rw [h.sig] at he
    cases he
  holder o e he := by
    rw [h.slot] at he
    cases he
  delivered c e he := by
    rw [h.delivered] at he
    cases he

/-! ## Who may touch a parker -/

/-- The call whose parker a `signal_wake` has in its hands. -/
def SigPc.inHand : SigPc → Option ℕ
  | .load _ c => some c
  | .cas _ c _ => some c
  | .giveBack _ c => some c
  | .store _ c _ => some c
  | .unlink _ c _ => some c
  | .requeue _ c _ => some c
  | .unlock _ c => some c
  | _ => none

variable {pc : SigPc}

theorem SigOk.mono {v : ℕ} (h : SigOk cfg s v pc) (hlock : ∀ p, s.lock p = some v → u.lock p = some v)
    (hslot : ∀ d, pc.reserved = some d → u.slot (cfg.owner d) = s.slot (cfg.owner d))
    (hlinked : ∀ d, pc.inHand = some d → u.linked d = s.linked d)
    (hclaimed : ∀ d e, s.claimed d = some e → u.claimed d = some e)
    (hmask : ∀ d, pc.inHand = some d → s.claimed d ≠ none → u.readyMask d = s.readyMask d)
    (hwake : ∀ d, pc.inHand = some d → s.claimed d ≠ none → (u.wait d).asleep = true →
      (s.wait d).asleep = true ∧ s.queued d ≤ u.queued d) : SigOk cfg u v pc := by
  have hsome : ∀ d e, s.claimed d = some e → s.claimed d ≠ none := by
    intro d e hd hnone
    rw [hd] at hnone
    cases hnone
  cases pc with
  | idle | pools e => trivial
  | walk e p => exact hlock p h
  | load e d | giveBack e d =>
    obtain ⟨hheld, hlink, hs⟩ := h
    exact ⟨hlock _ hheld, (hlinked d rfl).trans hlink, (hslot d rfl).trans hs⟩
  | cas e d cur =>
    obtain ⟨hheld, hlink, hs, hcur⟩ := h
    exact ⟨hlock _ hheld, (hlinked d rfl).trans hlink, (hslot d rfl).trans hs, hcur⟩
  | store e d cur =>
    obtain ⟨hheld, hlink, hc⟩ := h
    exact ⟨hlock _ hheld, (hlinked d rfl).trans hlink, hclaimed d e hc⟩
  | unlink e d cur | requeue e d cur =>
    obtain ⟨hheld, hc, hm⟩ := h
    exact ⟨hlock _ hheld, hclaimed d e hc, (hmask d rfl (hsome d e hc)).trans hm⟩
  | unlock e d =>
    obtain ⟨hheld, hc, hm, hqueued⟩ := h
    refine ⟨hlock _ hheld, hclaimed d e hc, (hmask d rfl (hsome d e hc)).trans hm, fun ha => ?_⟩
    obtain ⟨hsleep, hle⟩ := hwake d rfl (hsome d e hc) ha
    exact Nat.lt_of_lt_of_le (hqueued hsleep) hle

theorem Inv.lock_of_inHand (hI : Inv cfg s) (h : (s.sig w).inHand = some c) : s.lock (cfg.pool c) = some w := by
  have hok := hI.sig w
  cases hw : s.sig w <;> rw [hw] at h hok <;> cases h <;> exact hok.1

theorem Inv.not_inHand (hI : Inv cfg s) (hlock : s.lock (cfg.pool c) = none) (w : ℕ) :
    (s.sig w).inHand ≠ some c := by
  intro h
  have hheld := hI.lock_of_inHand h
  rw [hlock] at hheld
  cases hheld

variable {e : ℕ}

theorem SigPc.exc_of_loose (h : pc.loose = some e) : pc.exc = some e := by
  cases pc <;> first | exact h | cases h

theorem SigPc.loose_of_reserved (h : pc.reserved = some c) : ∃ e, pc.loose = some e := by
  cases pc with
  | load e d | cas e d cur | giveBack e d => exact ⟨e, rfl⟩
  | _ => cases h

theorem SigPc.inHand_of_owes (h : pc.owes = some c) : pc.inHand = some c := by
  unfold owes at h
  split at h <;> cases h <;> rfl

theorem Inv.slot_of_reserved (hI : Inv cfg s) (hl : (s.sig w).loose = some e)
    (hr : (s.sig w).reserved = some c) : s.slot (cfg.owner c) = some e := by
  have hok := hI.sig w
  cases hw : s.sig w <;> rw [hw] at hl hr hok <;> cases hr <;> cases hl
  case load => exact hok.2.2
  case cas => exact hok.2.2.1
  case giveBack => exact hok.2.2

theorem Inv.sentinel_of_free (hI : Inv cfg s) (hlock : s.lock (cfg.pool c) = none)
    (he : s.claimed c = some e) : s.readyMask c = NETPOLL_SIGNALED := by
  rcases (hI.claimed c e he).sentinel with h | ⟨w, cur, h⟩
  · exact h
  · exact absurd (by rw [h]; rfl) (hI.not_inHand hlock w)

theorem Inv.sentinel_of_unlinked (hI : Inv cfg s) (hl : s.linked c = false)
    (he : s.claimed c = some e) : s.readyMask c = NETPOLL_SIGNALED := by
  rcases (hI.claimed c e he).sentinel with h | ⟨w, cur, h⟩
  · exact h
  · have hok := hI.sig w
    rw [h] at hok
    have hlinked : s.linked c = true := hok.2.1
    rw [hl] at hlinked
    cases hlinked

/-! ## Steps of a call -/

/-- A step on the side of the call `c`: the parker changes only under the pool lock. -/
structure CallStep (cfg : Setup) (s u : State) (c : ℕ) : Prop where
  slot : u.slot = s.slot
  lock : u.lock = s.lock
  sig : u.sig = s.sig
  used : u.used = s.used
  claimed : u.claimed = s.claimed
  delivered : u.delivered = s.delivered
  linked : ∀ d, d ≠ c → u.linked d = s.linked d
  readyMask : ∀ d, d ≠ c → u.readyMask d = s.readyMask d
  commit : ∀ d, d ≠ c → u.commit d = s.commit d
  queued : ∀ d, d ≠ c → u.queued d = s.queued d
  wait : ∀ d, d ≠ c → u.wait d = s.wait d
  parker : u.linked c = s.linked c ∧ u.readyMask c = s.readyMask c ∨ s.lock (cfg.pool c) = none

theorem WaitOk.congr {pc : WaitPc} (h : WaitOk s c pc) (hl : u.linked c = s.linked c)
    (hcl : u.claimed c = s.claimed c) (hcom : u.commit c = s.commit c) : WaitOk u c pc := by
  cases pc <;> simp only [WaitOk, hl, hcl, hcom] at h ⊢ <;> exact h

theorem Inv.callStep (hI : Inv cfg s) (hs : CallStep cfg s u c) (hok : WaitOk u c (u.wait c))
    (hcommit : s.claimed c ≠ none → u.commit c = .woken)
    (hmask : u.readyMask c = s.readyMask c ∨ s.claimed c = none ∧ u.readyMask c ≠ NETPOLL_SIGNALED)
    (hfinal : (s.wait c).isReturned = true → (u.wait c).isReturned = true)
    (hret : (u.wait c).isReturned = true → (s.wait c).isReturned = true ∨ s.claimed c = none)
    (hasleep : (u.wait c).asleep = true →
      (s.wait c).asleep = true ∧ s.queued c ≤ u.queued c ∨ s.claimed c = none) : Inv cfg u := by
  have hwake : ∀ d, s.claimed d ≠ none → (u.wait d).asleep = true →
      (s.wait d).asleep = true ∧ s.queued d ≤ u.queued d := by
    intro d hd ha
    by_cases hdc : d = c
    · subst hdc
      exact (hasleep ha).resolve_right hd
    · rw [hs.wait d hdc] at ha
      exact ⟨ha, Nat.le_of_eq (hs.queued d hdc).symm⟩
  have hreturned : ∀ d, s.claimed d ≠ none → (s.wait d).isReturned = false → (u.wait d).isReturned = false := by
    intro d hd hr
    by_cases hdc : d = c
    · subst hdc
      by_contra hne
      rcases hret ((Bool.not_eq_false _).mp hne) with h | h
      · rw [hr] at h
        cases h
      · exact hd h
    · rw [hs.wait d hdc]
      exact hr
  have hmasks : ∀ d, s.claimed d ≠ none → u.readyMask d = s.readyMask d := by
    intro d hd
    by_cases hdc : d = c
    · subst hdc
      exact hmask.resolve_right fun h => hd h.1
    · exact hs.readyMask d hdc
  -- a parker in somebody's hands is not changed by its call
  have hhand : ∀ w d, (s.sig w).inHand = some d → u.linked d = s.linked d := by
    intro w d hd
    by_cases hdc : d = c
    · subst hdc
      refine (hs.parker.resolve_right ?_).1
      intro hlock
      exact hI.not_inHand hlock w hd
    · exact hs.linked d hdc
  constructor
  · intro d
    by_cases hdc : d = c
    · subst hdc
      exact hok
    · rw [hs.wait d hdc]
      exact (hI.wait d).congr (hs.linked d hdc) (by rw [hs.claimed]) (hs.commit d hdc)
  · intro w
    rw [hs.sig]
    refine (hI.sig w).mono (fun p hp => ?_) (fun d _ => ?_) (hhand w) (fun d e hd => ?_) (fun d _ => hmasks d)
      fun d _ => hwake d
    · rw [hs.lock]
      exact hp
    · rw [hs.slot]
    · rw [hs.claimed]
      exact hd
  · intro d e hd
    rw [hs.claimed] at hd
    have hne : s.claimed d ≠ none := by
      rw [hd]
      nofun
    have hold := hI.claimed d e hd
    constructor
    · rw [hs.used]
      exact hold.used
    · by_cases hdc : d = c
      · subst hdc
        exact hcommit hne
      · rw [hs.commit d hdc]
        exact hold.commit
    · rw [hmasks d hne, hs.sig]
      exact hold.sentinel
    · intro hr
      rw [hs.slot]
      apply hold.slot
      by_contra hne'
      have hret' := (Bool.not_eq_false _).mp hne'
      by_cases hdc : d = c
      · subst hdc
        rw [hfinal hret'] at hr
        cases hr
      · rw [hs.wait d hdc, hret'] at hr
        cases hr
    · intro ha
      obtain ⟨hsleep, hle⟩ := hwake d hne ha
      rw [hs.sig]
      exact (hold.wake hsleep).imp_left fun h => Nat.lt_of_lt_of_le h hle
  · rw [hs.claimed]
    exact hI.unique
  · intro d hd
    rw [hs.claimed]
    by_cases hdc : d = c
    · subst hdc
      rcases hmask with h | h
      · exact hI.sentinel d (h ▸ hd)
      · exact absurd hd h.2
    · rw [hs.readyMask d hdc] at hd
      exact hI.sentinel d hd
  · rw [hs.sig, hs.used]
    exact hI.excUsed
  · rw [hs.sig]
    exact hI.excUnique
  · rw [hs.sig, hs.claimed]
    exact hI.loose
  · intro o e he
    rw [hs.slot] at he
    rcases hI.holder o e he with h | ⟨d, hd, ho, hr⟩
    · refine .inl ?_
      rw [hs.sig]
      exact h
    · refine .inr ⟨d, ?_, ho, hreturned d (by rw [hd]; nofun) hr⟩
      rw [hs.claimed]
      exact hd
  · intro d e hd
    rw [hs.delivered] at hd
    obtain ⟨hcl, hq⟩ := hI.delivered d e hd
    rw [hs.claimed]
    refine ⟨hcl, ?_⟩
    intro ha
    obtain ⟨hsleep, hle⟩ := hwake d (by rw [hcl]; nofun) ha
    exact Nat.lt_of_lt_of_le (hq hsleep) hle

theorem CallStep.waitTo (s : State) (pc : WaitPc) : CallStep cfg s (s.waitTo c pc) c := by
  refine ⟨rfl, rfl, rfl, rfl, rfl, rfl, fun _ _ => rfl, fun _ _ => rfl, fun _ _ => rfl,
    fun _ _ => rfl, ?_, .inl ⟨rfl, rfl⟩⟩
  intro d hd
  exact update_of_ne hd ..

theorem wait_waitTo (s : State) (c : ℕ) (pc : WaitPc) : (s.waitTo c pc).wait c = pc :=
  update_self ..

theorem Inv.waitTo (hI : Inv cfg s) {x : WaitPc} (hold : (s.wait c).isReturned = false)
    (hok : WaitOk s c x) (hret : x.isReturned = true → s.claimed c = none)
    (hasleep : x.asleep = true → (s.wait c).asleep = true ∨ s.claimed c = none) :
    Inv cfg (s.waitTo c x) := by
  apply hI.callStep (CallStep.waitTo s x)
  · rw [wait_waitTo]
    exact hok.congr rfl rfl rfl
  · intro hcl
    obtain ⟨e, he⟩ := Option.ne_none_iff_exists'.mp hcl
    exact (hI.claimed c e he).commit
  · exact .inl rfl
  · intro h
    rw [hold] at h
    cases h
  · rw [wait_waitTo]
    exact fun h => .inr (hret h)
  · rw [wait_waitTo]
    exact fun h => (hasleep h).imp_left fun h => ⟨h, Nat.le_refl _⟩

theorem Inv.setLinked (hI : Inv cfg s) {b : Bool} (hlock : s.lock (cfg.pool c) = none)
    (hok : WaitOk { s with linked := update s.linked c b } c (s.wait c)) :
    Inv cfg { s with linked := update s.linked c b } := by
  apply hI.callStep (c := c)
  · exact ⟨rfl, rfl, rfl, rfl, rfl, rfl, fun d hd => update_of_ne hd .., fun _ _ => rfl,
      fun _ _ => rfl, fun _ _ => rfl, fun _ _ => rfl, .inr hlock⟩
  · exact hok
  · intro hcl
    obtain ⟨e, he⟩ := Option.ne_none_iff_exists'.mp hcl
    exact (hI.claimed c e he).commit
  · exact .inl rfl
  · exact id
  · exact .inl
  · exact fun h => .inl ⟨h, Nat.le_refl _⟩

theorem Inv.leave (hI : Inv cfg s) {x : WaitPc} (hold : (s.wait c).isReturned = false)
    (hfree : WaitOk (s.unlinkParker c) c (s.wait c)) (hlock : s.lock (cfg.pool c) = none)
    (hok : WaitOk (s.unlinkParker c) c x) (hret : x.isReturned = true → s.claimed c = none)
    (hasleep : x.asleep = false) : Inv cfg ((s.unlinkParker c).waitTo c x) := by
  have hunlink : Inv cfg (s.unlinkParker c) := hI.setLinked hlock hfree
  apply hunlink.waitTo hold hok hret
  intro h
  rw [hasleep] at h
  cases h

theorem linked_unlinkParker (s : State) (c : ℕ) : (s.unlinkParker c).linked c = false :=
  update_self ..

theorem Inv.clear (hI : Inv cfg s) {exc : Option ℕ} (hpc : s.wait c = .clear exc) :
    Inv cfg ((s.setSlot (cfg.owner c) none).waitTo c (.returned (-1) exc)) := by
  have hok := hI.wait c
  rw [hpc] at hok
  obtain ⟨hlinked, hcl, hexc⟩ := hok
  obtain ⟨e, rfl⟩ := Option.ne_none_iff_exists'.mp hexc
  have hslot : s.slot (cfg.owner c) = some e :=
    (hI.claimed c e hcl).slot (by rw [hpc]; rfl)
  have hwaitc : ((s.setSlot (cfg.owner c) none).waitTo c (.returned (-1) (some e))).wait c =
      .returned (-1) (some e) := update_self ..
  have hwait : ∀ d, d ≠ c →
      ((s.setSlot (cfg.owner c) none).waitTo c (.returned (-1) (some e))).wait d = s.wait d :=
    fun d hd => update_of_ne hd ..
  -- nobody else is responsible for this slot, so every other slot that matters is another one
  have hother : ∀ d e', s.claimed d = some e' → d ≠ c → (s.wait d).isReturned = false →
      cfg.owner d ≠ cfg.owner c := by
    intro d e' hd hdc hr ho
    have hsame := (hI.claimed d e' hd).slot hr
    rw [ho, hslot] at hsame
    cases hsame
    exact hdc (hI.unique d c e hd hcl)
  have hsigs : ∀ w d, (s.sig w).reserved = some d → cfg.owner d ≠ cfg.owner c := by
    intro w d hd ho
    obtain ⟨e', hw⟩ := SigPc.loose_of_reserved hd
    have hsame := hI.slot_of_reserved hw hd
    rw [ho, hslot] at hsame
    cases hsame
    exact hI.loose w e hw c hcl
  constructor
  · intro d
    by_cases hdc : d = c
    · subst hdc
      rw [hwaitc]
      refine ⟨hlinked, ?_⟩
      intro e' he'
      have hee : s.claimed d = some e' := he'
      rw [hcl] at hee
      exact ⟨rfl, hee⟩
    · rw [hwait d hdc]
      exact (hI.wait d).congr rfl rfl rfl
  · intro w
    refine (hI.sig w).mono (fun p hp => hp) (fun d hd => ?_) (fun d _ => rfl) (fun d e' hd => hd) (fun d _ _ => rfl)
      fun d _ _ ha => ⟨?_, Nat.le_refl _⟩
    · exact update_of_ne (hsigs w d hd) ..
    · by_cases hdc : d = c
      · subst hdc
        rw [hwaitc] at ha
        cases ha
      · rw [hwait d hdc] at ha
        exact ha
  · intro d e' hd
    have hold := hI.claimed d e' hd
    by_cases hdc : d = c
    · subst hdc
      refine ⟨hold.used, hold.commit, hold.sentinel, ?_, ?_⟩
      · rw [hwaitc]
        nofun
      · rw [hwaitc]
        nofun
    · refine ⟨hold.used, hold.commit, hold.sentinel, ?_, ?_⟩
      · rw [hwait d hdc]
        intro hr
        exact (update_of_ne (hother d e' hd hdc hr) ..).trans (hold.slot hr)
      · rw [hwait d hdc]
        exact hold.wake
  · exact hI.unique
  · exact hI.sentinel
  · exact hI.excUsed
  · exact hI.excUnique
  · exact hI.loose
  · intro o e' he'
    by_cases ho : o = cfg.owner c
    · subst ho
      simp only [State.waitTo, setSlot, update_self] at he'
      cases he'
    · simp only [State.waitTo, setSlot, update_of_ne ho] at he'
      rcases hI.holder o e' he' with h | ⟨d, hd, hdo, hr⟩
      · exact .inl h
      · refine .inr ⟨d, hd, hdo, ?_⟩
        rw [hwait d (by rintro rfl; exact ho hdo.symm)]
        exact hr
  · intro d e' hd
    obtain ⟨hcl', hq⟩ := hI.delivered d e' hd
    refine ⟨hcl', ?_⟩
    by_cases hdc : d = c
    · subst hdc
      rw [hwaitc]
      nofun
    · rw [hwait d hdc]
      exact hq

/-! ## Steps of a delivery -/

/-- A `signal_wake` moves on, but touches no parker and no slot. -/
structure SigStep (s u : State) (w : ℕ) : Prop where
  slot : u.slot = s.slot
  commit : u.commit = s.commit
  linked : u.linked = s.linked
  readyMask : u.readyMask = s.readyMask
  queued : u.queued = s.queued
  wait : u.wait = s.wait
  claimed : u.claimed = s.claimed
  sig : ∀ v, v ≠ w → u.sig v = s.sig v
  lock : ∀ p v, v ≠ w → s.lock p = some v → u.lock p = some v
  used : ∀ e ∈ s.used, e ∈ u.used

theorem Inv.sigStep (hI : Inv cfg s) (hs : SigStep s u w) (hok : SigOk cfg u w (u.sig w))
    (hexc : ∀ e, (u.sig w).exc = some e → (s.sig w).exc = some e ∨ e ∉ s.used ∧ e ∈ u.used)
    (hloose : ∀ e, (u.sig w).loose = some e → (s.sig w).loose = some e ∨ e ∉ s.used)
    (hres : ∀ d, (s.sig w).reserved = some d → (u.sig w).reserved = some d ∧ (u.sig w).loose = (s.sig w).loose)
    (hstore : ∀ e d cur, s.sig w ≠ .store e d cur) (howes : (s.sig w).owes = none)
    (hdel : ∀ d e, (d, e) ∈ u.delivered → (d, e) ∈ s.delivered ∨
      s.claimed d = some e ∧ ((s.wait d).asleep = true → 0 < s.queued d)) : Inv cfg u := by
  constructor
  · intro d
    rw [hs.wait]
    exact (hI.wait d).congr (by rw [hs.linked]) (by rw [hs.claimed]) (by rw [hs.commit])
  · intro v
    by_cases hv : v = w
    · subst hv
      exact hok
    · rw [hs.sig v hv]
      refine (hI.sig v).mono (fun p => hs.lock p v hv) (fun d _ => ?_) (fun d _ => ?_) (fun d e hd => ?_)
        (fun d _ _ => ?_) fun d _ _ ha => ?_
      · rw [hs.slot]
      · rw [hs.linked]
      · rw [hs.claimed]
        exact hd
      · rw [hs.readyMask]
      · rw [hs.wait] at ha
        rw [hs.queued]
        exact ⟨ha, Nat.le_refl _⟩
  · intro d e hd
    rw [hs.claimed] at hd
    have hold := hI.claimed d e hd
    refine ⟨hs.used e hold.used, by rw [hs.commit]; exact hold.commit, ?_, ?_, ?_⟩
    · rw [hs.readyMask]
      refine hold.sentinel.imp_right ?_
      rintro ⟨v, cur, hv⟩
      refine ⟨v, cur, ?_⟩
      rw [hs.sig v (by rintro rfl; exact hstore _ _ _ hv)]
      exact hv
    · rw [hs.wait, hs.slot]
      exact hold.slot
    · rw [hs.wait, hs.queued]
      intro ha
      refine (hold.wake ha).imp_right ?_
      rintro ⟨v, hv⟩
      refine ⟨v, ?_⟩
      rw [hs.sig v (by rintro rfl; rw [howes] at hv; cases hv)]
      exact hv
  · rw [hs.claimed]
    exact hI.unique
  · rw [hs.readyMask, hs.claimed]
    exact hI.sentinel
  · intro v e hv
    by_cases hvw : v = w
    · subst hvw
      rcases hexc e hv with h | h
      · exact hs.used e (hI.excUsed v e h)
      · exact h.2
    · rw [hs.sig v hvw] at hv
      exact hs.used e (hI.excUsed v e hv)
  · -- a new exception is nobody else's
    have hnew : ∀ v e, v ≠ w → (u.sig w).exc = some e → (u.sig v).exc = some e → False := by
      intro v e hvw hw hv
      rw [hs.sig v hvw] at hv
      rcases hexc e hw with h | h
      · exact hvw (hI.excUnique v w e hv h)
      · exact h.1 (hI.excUsed v e hv)
    intro v v' e hv hv'
    by_cases hvw : v = w
    · subst hvw
      by_contra hne
      exact hnew v' e (Ne.symm hne) hv hv'
    · by_cases hvw' : v' = w
      · subst hvw'
        exact (hnew v e hvw hv' hv).elim
      · rw [hs.sig v hvw] at hv
        rw [hs.sig v' hvw'] at hv'
        exact hI.excUnique v v' e hv hv'
  · intro v e hv d hd
    rw [hs.claimed] at hd
    by_cases hvw : v = w
    · subst hvw
      rcases hloose e hv with h | h
      · exact hI.loose v e h d hd
      · exact h (hI.claimed d e hd).used
    · rw [hs.sig v hvw] at hv
      exact hI.loose v e hv d hd
  · intro o e he
    rw [hs.slot] at he
    rcases hI.holder o e he with ⟨v, d, hl, hr, ho⟩ | ⟨d, hd, ho, hr⟩
    · refine .inl ⟨v, d, ?_⟩
      by_cases hvw : v = w
      · subst hvw
        obtain ⟨hr', hl'⟩ := hres d hr
        exact ⟨hl'.trans hl, hr', ho⟩
      · rw [hs.sig v hvw]
        exact ⟨hl, hr, ho⟩
    · refine .inr ⟨d, ?_, ho, ?_⟩
      · rw [hs.claimed]
        exact hd
      · rw [hs.wait]
        exact hr
  · intro d e hd
    rw [hs.claimed, hs.wait, hs.queued]
    rcases hdel d e hd with h | h
    · exact hI.delivered d e h
    · exact h

theorem SigStep.sigTo (s : State) (w : ℕ) (pc : SigPc) : SigStep s (s.sigTo w pc) w :=
  ⟨rfl, rfl, rfl, rfl, rfl, rfl, rfl, fun _ hv => update_of_ne hv .., fun _ _ _ h => h, fun _ h => h⟩

theorem sig_sigTo (s : State) (w : ℕ) (pc : SigPc) : (s.sigTo w pc).sig w = pc :=
  update_self ..

theorem Inv.sigTo (hI : Inv cfg s) {a x : SigPc} (hpc : s.sig w = a) (hok : SigOk cfg s w x)
    (hexc : x.exc = a.exc ∨ x.exc = none) (hloose : x.loose = a.loose ∨ x.loose = none)
    (hres : a.reserved = none ∨ x.reserved = a.reserved ∧ x.loose = a.loose)
    (hstore : ∀ e d cur, a ≠ .store e d cur) (howes : a.owes = none) :
    Inv cfg (s.sigTo w x) := by
  subst hpc
  refine hI.sigStep (SigStep.sigTo s w x) ?_ ?_ ?_ ?_ hstore howes fun _ _ => .inl
  · rw [sig_sigTo]
    exact hok
  · rw [sig_sigTo]
    intro e he
    rcases hexc with h | h
    · exact .inl (h ▸ he)
    · rw [h] at he
      cases he
  · rw [sig_sigTo]
    intro e he
    rcases hloose with h | h
    · exact .inl (h ▸ he)
    · rw [h] at he
      cases he
  · rw [sig_sigTo]
    intro d hd
    rcases hres with h | h
    · rw [h] at hd
      cases hd
    · exact ⟨h.1.trans hd, h.2⟩

/-- A step of a `signal_wake` on the parker of `c`, which it has in its hands. -/
structure HandStep (s u : State) (w c : ℕ) : Prop where
  inHand : (s.sig w).inHand = some c
  slot : u.slot = s.slot
  lock : u.lock = s.lock
  used : u.used = s.used
  wait : u.wait = s.wait
  delivered : u.delivered = s.delivered
  sig : ∀ v, v ≠ w → u.sig v = s.sig v
  linked : ∀ d, d ≠ c → u.linked d = s.linked d
  readyMask : ∀ d, d ≠ c → u.readyMask d = s.readyMask d
  commit : ∀ d, d ≠ c → u.commit d = s.commit d
  queued : ∀ d, d ≠ c → u.queued d = s.queued d
  claimed : ∀ d, d ≠ c → u.claimed d = s.claimed d

theorem Inv.handStep (hI : Inv cfg s) (hs : HandStep s u w c) (hok : SigOk cfg u w (u.sig w))
    (hwait : WaitOk u c (s.wait c)) (hexc : (u.sig w).exc = (s.sig w).exc)
    (hloose : ∀ e, (u.sig w).loose = some e → (s.sig w).loose = some e ∧ u.claimed c ≠ some e)
    (hclaimed : ∀ e, u.claimed c = some e → Claimed cfg u c e)
    (hkeep : ∀ e, s.claimed c = some e → u.claimed c = some e)
    (hnew : ∀ e, u.claimed c = some e → s.claimed c = some e ∨ (s.sig w).loose = some e)
    (hsentinel : u.readyMask c = NETPOLL_SIGNALED → u.claimed c ≠ none)
    (hholder : ∀ e d, (s.sig w).loose = some e → (s.sig w).reserved = some d → Holder cfg u (cfg.owner d) e)
    (hqueued : s.queued c ≤ u.queued c) : Inv cfg u := by
  have hlock := hI.lock_of_inHand hs.inHand
  -- the lock is ours, so the others hold parkers of other calls
  have hothers : ∀ v d, v ≠ w → (s.sig v).inHand = some d → d ≠ c := by
    rintro v d hv hd rfl
    have hheld := hI.lock_of_inHand hd
    rw [hlock] at hheld
    cases hheld
    exact hv rfl
  have hours : ∀ d, (s.sig w).inHand = some d → d = c := by
    intro d hd
    rw [hs.inHand] at hd
    cases hd
    rfl
  have hkeepAll : ∀ d e, s.claimed d = some e → u.claimed d = some e := by
    intro d e hd
    by_cases hdc : d = c
    · subst hdc
      exact hkeep e hd
    · rw [hs.claimed d hdc]
      exact hd
  constructor
  · intro d
    rw [hs.wait]
    by_cases hdc : d = c
    · subst hdc
      exact hwait
    · exact (hI.wait d).congr (hs.linked d hdc) (hs.claimed d hdc) (hs.commit d hdc)
  · intro v
    by_cases hv : v = w
    · subst hv
      exact hok
    · rw [hs.sig v hv]
      have hne := fun d => hothers v d hv
      refine (hI.sig v).mono (fun p hp => ?_) (fun d _ => ?_) (fun d hd => hs.linked d (hne d hd)) hkeepAll
        (fun d hd _ => hs.readyMask d (hne d hd)) fun d hd _ ha => ?_
      · rw [hs.lock]
        exact hp
      · rw [hs.slot]
      · rw [hs.wait] at ha
        rw [hs.queued d (hne d hd)]
        exact ⟨ha, Nat.le_refl _⟩
  · intro d e hd
    by_cases hdc : d = c
    · subst hdc
      exact hclaimed e hd
    · rw [hs.claimed d hdc] at hd
      have hold := hI.claimed d e hd
      refine ⟨?_, ?_, ?_, ?_, ?_⟩
      · rw [hs.used]
        exact hold.used
      · rw [hs.commit d hdc]
        exact hold.commit
      · rw [hs.readyMask d hdc]
        refine hold.sentinel.imp_right ?_
        rintro ⟨v, cur, hv⟩
        refine ⟨v, cur, ?_⟩
        rw [hs.sig v (by rintro rfl; exact hdc (hours d (by rw [hv]; rfl)))]
        exact hv
      · rw [hs.wait, hs.slot]
        exact hold.slot
      · rw [hs.wait, hs.queued d hdc]
        intro ha
        refine (hold.wake ha).imp_right ?_
        rintro ⟨v, hv⟩
        refine ⟨v, ?_⟩
        rw [hs.sig v (by rintro rfl; exact hdc (hours d (SigPc.inHand_of_owes hv)))]
        exact hv
  · -- the exception that the parker gets is no other parker's
    have hfresh : ∀ d e, d ≠ c → u.claimed c = some e → u.claimed d = some e → False := by
      intro d e hdc hc hd
      rw [hs.claimed d hdc] at hd
      rcases hnew e hc with h | h
      · exact hdc (hI.unique d c e hd h)
      · exact hI.loose w e h d hd
    intro d d' e hd hd'
    by_cases hdc : d = c
    · subst hdc
      by_contra hne
      exact hfresh d' e (Ne.symm hne) hd hd'
    · by_cases hdc' : d' = c
      · subst hdc'
        exact (hfresh d e hdc hd' hd).elim
      · rw [hs.claimed d hdc] at hd
        rw [hs.claimed d' hdc'] at hd'
        exact hI.unique d d' e hd hd'
  · intro d hd
    by_cases hdc : d = c
    · subst hdc
      exact hsentinel hd
    · rw [hs.readyMask d hdc] at hd
      rw [hs.claimed d hdc]
      exact hI.sentinel d hd
  · intro v e hv
    rw [hs.used]
    by_cases hvw : v = w
    · subst hvw
      rw [hexc] at hv
      exact hI.excUsed v e hv
    · rw [hs.sig v hvw] at hv
      exact hI.excUsed v e hv
  · have hexcs : ∀ v, (u.sig v).exc = (s.sig v).exc := by
      intro v
      by_cases hvw : v = w
      · subst hvw
        exact hexc
      · rw [hs.sig v hvw]
    intro v v' e hv hv'
    rw [hexcs] at hv hv'
    exact hI.excUnique v v' e hv hv'
  · intro v e hv d hd
    by_cases hvw : v = w
    · subst hvw
      obtain ⟨hl, hne⟩ := hloose e hv
      by_cases hdc : d = c
      · subst hdc
        exact hne hd
      · rw [hs.claimed d hdc] at hd
        exact hI.loose v e hl d hd
    · rw [hs.sig v hvw] at hv
      by_cases hdc : d = c
      · subst hdc
        rcases hnew e hd with h | h
        · exact hI.loose v e hv d h
        · apply hvw
          apply hI.excUnique v w e
          · exact SigPc.exc_of_loose hv
          · exact SigPc.exc_of_loose h
      · rw [hs.claimed d hdc] at hd
        exact hI.loose v e hv d hd
  · intro o e he
    rw [hs.slot] at he
    rcases hI.holder o e he with ⟨v, d, hl, hr, rfl⟩ | ⟨d, hd, ho, hr⟩
    · by_cases hvw : v = w
      · subst hvw
        exact hholder e d hl hr
      · refine .inl ⟨v, d, ?_⟩
        rw [hs.sig v hvw]
        exact ⟨hl, hr, rfl⟩
    · refine .inr ⟨d, hkeepAll d e hd, ho, ?_⟩
      rw [hs.wait]
      exact hr
  · intro d e hd
    rw [hs.delivered] at hd
    obtain ⟨hcl, hq⟩ := hI.delivered d e hd
    refine ⟨hkeepAll d e hcl, ?_⟩
    rw [hs.wait]
    intro ha
    by_cases hdc : d = c
    · subst hdc
      exact Nat.lt_of_lt_of_le (hq ha) hqueued
    · rw [hs.queued d hdc]
      exact hq ha

variable {cur : ParkCommit}

section

variable (hI : Inv cfg s)
include hI

theorem Inv.claimSwap (hpc : s.sig w = .cas e c cur) (hcur : s.commit c = cur) : Inv cfg ({ s with
      commit := update s.commit c .woken
      claimed := update s.claimed c (some e) }.sigTo w (.store e c cur)) := by
  have hsig := hI.sig w
  rw [hpc] at hsig
  obtain ⟨hlock, hlinked, hslot, hnw⟩ := hsig
  have hnone : s.claimed c = none := by
    by_contra hcl
    obtain ⟨e', he'⟩ := Option.ne_none_iff_exists'.mp hcl
    exact hnw (hcur ▸ (hI.claimed c e' he').commit)
  have hwaitc := hI.wait c
  -- the parker is linked, so its call is between the link and its own unlink
  have hret : (s.wait c).isReturned = false := by
    cases hw : s.wait c <;> rw [hw] at hwaitc <;> first | rfl | skip
    case returned r raised =>
      have hgone : s.linked c = false := hwaitc.1
      rw [hlinked] at hgone
      cases hgone
  have hself : ∀ f : SigPc, ({ s with
      commit := update s.commit c .woken
      claimed := update s.claimed c (some e) }.sigTo w f).claimed c = some e :=
    fun _ => update_self ..
  apply hI.handStep (w := w) (c := c)
  · refine ⟨by rw [hpc]; rfl, rfl, rfl, rfl, rfl, rfl, fun v hv => update_of_ne hv ..,
      fun _ _ => rfl, fun _ _ => rfl, fun d hd => update_of_ne hd .., fun _ _ => rfl,
      fun d hd => update_of_ne hd ..⟩
  · rw [sig_sigTo]
    exact ⟨hlock, hlinked, hself _⟩
  · have hcommit : ({ s with
        commit := update s.commit c .woken
        claimed := update s.claimed c (some e) }.sigTo w (.store e c cur)).commit c = .woken := update_self ..
    cases hw : s.wait c <;> rw [hw] at hwaitc <;>
      simp only [WaitOk, hcommit, ne_eq, reduceCtorEq, not_false_eq_true] at hwaitc ⊢
    case idle => exact absurd (hwaitc.1.symm.trans hlinked) (by decide)
    case check => exact hwaitc
    case take => exact absurd (hwaitc.1.symm.trans hlinked) (by decide)
    case clear => exact absurd (hwaitc.1.symm.trans hlinked) (by decide)
    case returned => exact absurd (hwaitc.1.symm.trans hlinked) (by decide)
  · rw [sig_sigTo, hpc]
    rfl
  · rw [sig_sigTo]
    nofun
  · intro e' he'
    rw [hself] at he'
    cases he'
    refine ⟨hI.excUsed w e (by rw [hpc]; rfl), update_self .., .inr ⟨w, cur, ?_⟩, fun _ => hslot, ?_⟩
    · exact update_self ..
    · intro ha
      refine .inr ⟨w, ?_⟩
      rw [sig_sigTo]
      -- a sleeping call has committed, so the word was `PARKED`
      have hne : s.commit c ≠ .armed := by
        have ha' : (s.wait c).asleep = true := ha
        cases hw : s.wait c <;> rw [hw] at hwaitc ha' <;> first | exact hwaitc | cases ha'
      cases cur with
      | armed => exact absurd hcur hne
      | parked => rfl
      | woken => exact absurd rfl hnw
  · intro e' he'
    rw [hnone] at he'
    cases he'
  · intro e' he'
    rw [hself] at he'
    cases he'
    exact .inr (by rw [hpc]; rfl)
  · intro _
    rw [hself]
    nofun
  · intro e' d hl hr
    rw [hpc] at hl hr
    cases hl
    cases hr
    exact .inr ⟨c, hself _, rfl, hret⟩
  · exact Nat.le_refl _

theorem Inv.afterClaim (hs : HandStep s u w c) (hcl : s.claimed c = some e) (hsame : u.claimed c = s.claimed c)
    (hcommit : u.commit c = s.commit c) (hmask : u.readyMask c = NETPOLL_SIGNALED)
    (hlinked : u.linked c = s.linked c ∨ u.linked c = false)
    (hexc : (u.sig w).exc = (s.sig w).exc) (hloose : (u.sig w).loose = none)
    (hold : (s.sig w).reserved = none) (hok : SigOk cfg u w (u.sig w))
    (hqueued : s.queued c ≤ u.queued c)
    (hwake : (s.wait c).asleep = true → 0 < u.queued c ∨ (u.sig w).owes = some c) :
    Inv cfg u := by
  have hold' := hI.claimed c e hcl
  apply hI.handStep hs hok
  · have hwaitc := hI.wait c
    have hgone : s.linked c = false → u.linked c = false := by
      intro h
      rcases hlinked with h' | h'
      · exact h'.trans h
      · exact h'
    cases hw : s.wait c <;> rw [hw] at hwaitc <;> simp only [WaitOk, hsame, hcommit] at hwaitc ⊢
    case idle => exact ⟨hgone hwaitc.1, hwaitc.2⟩
    case check => exact hgone hwaitc
    case take => exact ⟨hgone hwaitc.1, hwaitc.2⟩
    case clear => exact ⟨hgone hwaitc.1, hwaitc.2⟩
    case returned => exact ⟨hgone hwaitc.1, hwaitc.2⟩
    all_goals exact hwaitc
  · exact hexc
  · intro e' he'
    rw [hloose] at he'
    cases he'
  · intro e' he'
    rw [hsame, hcl] at he'
    cases he'
    refine ⟨?_, ?_, .inl hmask, ?_, ?_⟩
    · rw [hs.used]
      exact hold'.used
    · rw [hcommit]
      exact hold'.commit
    · rw [hs.wait, hs.slot]
      exact hold'.slot
    · rw [hs.wait]
      intro ha
      exact (hwake ha).imp_right fun h => ⟨w, h⟩
  · intro e' he'
    rw [hsame]
    exact he'
  · intro e' he'
    rw [hsame] at he'
    exact .inl he'
  · intro _
    rw [hsame, hcl]
    nofun
  · intro e' d _ hr
    rw [hold] at hr
    cases hr
  · exact hqueued

theorem Inv.owes_of_asleep (hcl : s.claimed c = some e)
    (hhand : (s.sig w).inHand = some c) (ha : (s.wait c).asleep = true) :
    0 < s.queued c ∨ (s.sig w).owes = some c := by
  refine ((hI.claimed c e hcl).wake ha).imp_right ?_
  rintro ⟨v, hv⟩
  have hlock := hI.lock_of_inHand hhand
  rw [hI.lock_of_inHand (SigPc.inHand_of_owes hv)] at hlock
  cases hlock
  exact hv

theorem Inv.storeSentinel (hpc : s.sig w = .store e c cur) : Inv cfg ({ s with
      readyMask := update s.readyMask c NETPOLL_SIGNALED }.sigTo w (.unlink e c cur)) := by
  have hsig := hI.sig w
  rw [hpc] at hsig
  obtain ⟨hlock, hlinked, hcl⟩ := hsig
  have hhand : (s.sig w).inHand = some c := by rw [hpc]; rfl
  apply hI.afterClaim (w := w) (c := c) (e := e)
  · exact ⟨hhand, rfl, rfl, rfl, rfl, rfl, fun v hv => update_of_ne hv .., fun _ _ => rfl,
      fun d hd => update_of_ne hd .., fun _ _ => rfl, fun _ _ => rfl, fun _ _ => rfl⟩
  · exact hcl
  · rfl
  · rfl
  · exact update_self ..
  · exact .inl rfl
  · rw [sig_sigTo, hpc]
    rfl
  · rw [sig_sigTo]
    rfl
  · rw [hpc]
    rfl
  · rw [sig_sigTo]
    exact ⟨hlock, hcl, update_self ..⟩
  · exact Nat.le_refl _
  · intro ha
    refine (hI.owes_of_asleep hcl hhand ha).imp_right ?_
    rw [hpc, sig_sigTo]
    cases cur <;> exact id

theorem Inv.unlinkClaimed (hpc : s.sig w = .unlink e c cur) :
    Inv cfg ((s.unlinkParker c).sigTo w (.requeue e c cur)) := by
  have hsig := hI.sig w
  rw [hpc] at hsig
  obtain ⟨hlock, hcl, hmask⟩ := hsig
  have hhand : (s.sig w).inHand = some c := by rw [hpc]; rfl
  apply hI.afterClaim (w := w) (c := c) (e := e)
  · exact ⟨hhand, rfl, rfl, rfl, rfl, rfl, fun v hv => update_of_ne hv ..,
      fun d hd => update_of_ne hd .., fun _ _ => rfl, fun _ _ => rfl, fun _ _ => rfl,
      fun _ _ => rfl⟩
  · exact hcl
  · rfl
  · rfl
  · exact hmask
  · exact .inr (linked_unlinkParker s c)
  · rw [sig_sigTo, hpc]
    rfl
  · rw [sig_sigTo]
    rfl
  · rw [hpc]
    rfl
  · rw [sig_sigTo]
    exact ⟨hlock, hcl, hmask⟩
  · exact Nat.le_refl _
  · intro ha
    refine (hI.owes_of_asleep hcl hhand ha).imp_right ?_
    rw [hpc, sig_sigTo]
    cases cur <;> exact id

end

theorem queued_wakeIf (s : State) (c : ℕ) (cur : ParkCommit) :
    s.queued c ≤ (s.wakeIf c cur).queued c ∧ (cur = .parked → 0 < (s.wakeIf c cur).queued c) := by
  unfold wakeIf
  split
  · simp only [update_self]
    exact ⟨Nat.le_succ _, fun _ => Nat.succ_pos _⟩
  · rename_i hne
    exact ⟨Nat.le_refl _, fun h => absurd h hne⟩

theorem HandStep.wakeIf (hhand : (s.sig w).inHand = some c) : HandStep s ((s.wakeIf c cur).sigTo w pc) w c := by
  unfold State.wakeIf
  split
  · exact ⟨hhand, rfl, rfl, rfl, rfl, rfl, fun v hv => update_of_ne hv .., fun _ _ => rfl,
      fun _ _ => rfl, fun _ _ => rfl, fun d hd => update_of_ne hd .., fun _ _ => rfl⟩
  · exact ⟨hhand, rfl, rfl, rfl, rfl, rfl, fun v hv => update_of_ne hv .., fun _ _ => rfl,
      fun _ _ => rfl, fun _ _ => rfl, fun _ _ => rfl, fun _ _ => rfl⟩

theorem wakeIf_same (s : State) (c : ℕ) (cur : ParkCommit) :
    (s.wakeIf c cur).claimed = s.claimed ∧ (s.wakeIf c cur).commit = s.commit ∧
      (s.wakeIf c cur).readyMask = s.readyMask ∧ (s.wakeIf c cur).linked = s.linked ∧
      (s.wakeIf c cur).wait = s.wait ∧ (s.wakeIf c cur).lock = s.lock := by
  unfold wakeIf
  split <;> exact ⟨rfl, rfl, rfl, rfl, rfl, rfl⟩

theorem Inv.requeueClaimed (hI : Inv cfg s) (hpc : s.sig w = .requeue e c cur) :
    Inv cfg ((s.wakeIf c cur).sigTo w (.unlock e c)) := by
  have hsig := hI.sig w
  rw [hpc] at hsig
  obtain ⟨hlock, hcl, hmask⟩ := hsig
  obtain ⟨hle, hpos⟩ := queued_wakeIf s c cur
  obtain ⟨hs1, hs2, hs3, hs4, hs5, hs6⟩ := wakeIf_same s c cur
  have hhand : (s.sig w).inHand = some c := by rw [hpc]; rfl
  have hwoken : (s.wait c).asleep = true → 0 < (s.wakeIf c cur).queued c := by
    intro ha
    rcases hI.owes_of_asleep hcl hhand ha with h | h
    · exact Nat.lt_of_lt_of_le h hle
    · apply hpos
      rw [hpc] at h
      cases cur with
      | parked => rfl
      | armed | woken => cases h
  apply hI.afterClaim (w := w) (c := c) (e := e) (HandStep.wakeIf hhand) hcl
  · exact congrFun hs1 c
  · exact congrFun hs2 c
  · exact (congrFun hs3 c).trans hmask
  · exact .inl (congrFun hs4 c)
  · rw [sig_sigTo, hpc]
    rfl
  · rw [sig_sigTo]
    rfl
  · rw [hpc]
    rfl
  · rw [sig_sigTo]
    refine ⟨(congrFun hs6 _).trans hlock, (congrFun hs1 c).trans hcl, (congrFun hs3 c).trans hmask, ?_⟩
    intro ha
    exact hwoken (congrFun hs5 c ▸ ha)
  · exact hle
  · exact fun ha => .inl (hwoken ha)

/-! ## The slot -/

theorem Inv.setSlot (hI : Inv cfg s) {o : ℕ} {v : Option ℕ}
    (hfree : ∀ d e, s.claimed d = some e → (s.wait d).isReturned = false → cfg.owner d ≠ o)
    (hothers : ∀ x d e, x ≠ w → (s.sig x).loose = some e → (s.sig x).reserved = some d → cfg.owner d ≠ o)
    (hown : ∀ d, (s.sig w).reserved = some d → cfg.owner d = o)
    (hexc : pc.exc = (s.sig w).exc) (hloose : pc.loose = (s.sig w).loose)
    (hstore : ∀ e d cur, s.sig w ≠ .store e d cur) (howes : (s.sig w).owes = none)
    (hok : SigOk cfg (s.setSlot o v) w pc)
    (hholder : ∀ e, v = some e → pc.loose = some e ∧ ∃ d, pc.reserved = some d ∧ cfg.owner d = o) :
    Inv cfg ((s.setSlot o v).sigTo w pc) := by
  have hsig : ∀ x, x ≠ w → ((s.setSlot o v).sigTo w pc).sig x = s.sig x :=
    fun x hx => update_of_ne hx ..
  have hexcs : ∀ x, (((s.setSlot o v).sigTo w pc).sig x).exc = (s.sig x).exc := by
    intro x
    by_cases hx : x = w
    · subst hx
      rw [sig_sigTo]
      exact hexc
    · rw [hsig x hx]
  have hlooses : ∀ x, (((s.setSlot o v).sigTo w pc).sig x).loose = (s.sig x).loose := by
    intro x
    by_cases hx : x = w
    · subst hx
      rw [sig_sigTo]
      exact hloose
    · rw [hsig x hx]
  have hslot : ∀ o', o' ≠ o → ((s.setSlot o v).sigTo w pc).slot o' = s.slot o' :=
    fun o' ho' => update_of_ne ho' ..
  constructor
  · intro d
    exact (hI.wait d).congr rfl rfl rfl
  · intro x
    by_cases hx : x = w
    · subst hx
      rw [sig_sigTo]
      exact hok
    · rw [hsig x hx]
      refine (hI.sig x).mono (fun p hp => hp) (fun d hd => ?_) (fun d _ => rfl) (fun d e hd => hd) (fun d _ _ => rfl)
        fun d _ _ ha => ⟨ha, Nat.le_refl _⟩
      obtain ⟨e, he⟩ := SigPc.loose_of_reserved hd
      exact hslot _ (hothers x d e hx he hd)
  · intro d e hd
    have hold := hI.claimed d e hd
    refine ⟨hold.used, hold.commit, ?_, ?_, ?_⟩
    · refine hold.sentinel.imp_right ?_
      rintro ⟨x, cur, hx⟩
      refine ⟨x, cur, ?_⟩
      rw [hsig x (by rintro rfl; exact hstore _ _ _ hx)]
      exact hx
    · intro hr
      exact (hslot _ (hfree d e hd hr)).trans (hold.slot hr)
    · intro ha
      refine (hold.wake ha).imp_right ?_
      rintro ⟨x, hx⟩
      refine ⟨x, ?_⟩
      rw [hsig x (by rintro rfl; rw [howes] at hx; cases hx)]
      exact hx
  · exact hI.unique
  · exact hI.sentinel
  · intro x e hx
    rw [hexcs] at hx
    exact hI.excUsed x e hx
  · intro x y e hx hy
    rw [hexcs] at hx hy
    exact hI.excUnique x y e hx hy
  · intro x e hx
    rw [hlooses] at hx
    exact hI.loose x e hx
  · intro o' e he
    by_cases ho' : o' = o
    · subst ho'
      simp only [State.sigTo, State.setSlot, update_self] at he
      obtain ⟨hl, d, hr, hd⟩ := hholder e he
      refine .inl ⟨w, d, ?_⟩
      rw [sig_sigTo]
      exact ⟨hl, hr, hd⟩
    · rw [hslot o' ho'] at he
      rcases hI.holder o' e he with ⟨x, d, hl, hr, hd⟩ | h
      · refine .inl ⟨x, d, ?_⟩
        have hx : x ≠ w := by
          rintro rfl
          exact ho' (hd.symm.trans (hown d hr))
        rw [hsig x hx]
        exact ⟨hl, hr, hd⟩
      · exact .inr h
  · exact hI.delivered

theorem Inv.reserve (hI : Inv cfg s) {p : ℕ} (hpc : s.sig w = .walk e p) (hp : cfg.pool c = p)
    (hlinked : s.linked c = true) (hslot : s.slot (cfg.owner c) = none) :
    Inv cfg ((s.setSlot (cfg.owner c) (some e)).sigTo w (.load e c)) := by
  have hsig := hI.sig w
  rw [hpc] at hsig
  apply hI.setSlot
  · intro d e' hd hr ho
    have hheld := (hI.claimed d e' hd).slot hr
    rw [ho, hslot] at hheld
    cases hheld
  · intro x d e' _ hl hr ho
    have hheld := hI.slot_of_reserved hl hr
    rw [ho, hslot] at hheld
    cases hheld
  · rw [hpc]
    nofun
  · rw [hpc]
    rfl
  · rw [hpc]
    rfl
  · rw [hpc]
    nofun
  · rw [hpc]
    rfl
  · subst hp
    exact ⟨hsig, hlinked, update_self ..⟩
  · intro e' he'
    cases he'
    exact ⟨rfl, c, rfl, rfl⟩

theorem Inv.giveBack (hI : Inv cfg s) (hpc : s.sig w = .giveBack e c) :
    Inv cfg ((s.setSlot (cfg.owner c) none).sigTo w (.walk e (cfg.pool c))) := by
  have hsig := hI.sig w
  rw [hpc] at hsig
  obtain ⟨hlock, -, hslot⟩ := hsig
  apply hI.setSlot
  · intro d e' hd hr ho
    have hheld := (hI.claimed d e' hd).slot hr
    rw [ho, hslot] at hheld
    cases hheld
    exact hI.loose w e (by rw [hpc]; rfl) d hd
  · intro x d e' hx hl hr ho
    have hheld := hI.slot_of_reserved hl hr
    rw [ho, hslot] at hheld
    cases hheld
    exact hx (hI.excUnique x w e (SigPc.exc_of_loose hl) (by rw [hpc]; rfl))
  · intro d hd
    rw [hpc] at hd
    cases hd
    rfl
  · rw [hpc]
    rfl
  · rw [hpc]
    rfl
  · rw [hpc]
    nofun
  · rw [hpc]
    rfl
  · exact hlock
  · nofun

end Runloom.Netpoll.Signal
