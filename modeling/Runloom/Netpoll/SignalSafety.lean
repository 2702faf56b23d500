import Runloom.Netpoll.SignalInvariant

/-!
# Whether a delivered signal is raised

The two exits behind the commit look for the sentinel and take the exception. The three exits before it (a pending
wake before or after the register, and a failed register) unlink the parker and return without a look, although a
signal may have claimed the parker by then: the exception stays in the slot, where it also blocks every later
delivery.
-/

namespace Runloom.Netpoll.Signal

open Transition Commit State

variable {cfg : Setup} {s u : State} {c w : ℕ}

/-! ## The step lemma -/

def WaitPc.isEarly : WaitPc → Bool
  | .leaveEarly _ => true
  | _ => false

/-- No exit before the commit unlinks a parker that carries the sentinel. -/
def Heeded (s : State) : Action → Prop
  | .leave c => (s.wait c).isEarly = true → s.readyMask c ≠ NETPOLL_SIGNALED
  | _ => True

instance (s : State) (a : Action) : Decidable (Heeded s a) := by
  unfold Heeded
  split <;> infer_instance

section

variable (hI : Inv cfg s)
include hI

theorem Inv.leaveStep (hC : Heeded s (.leave c)) (h : step cfg s (.leave c) = some u) : Inv cfg u := by
  simp only [step] at h
  split at h
  · rename_i hlock
    have hwaitc := hI.wait c
    have hunl := linked_unlinkParker s c
    split at h
    case h_1 r hpc =>
      cases h
      rw [hpc] at hwaitc
      have hnone : s.claimed c = none := by
        by_contra hcl
        obtain ⟨e, he⟩ := Option.ne_none_iff_exists'.mp hcl
        exact hC (by rw [hpc]; rfl) (hI.sentinel_of_free hlock he)
      apply hI.leave (by rw [hpc]; rfl) _ hlock _ (fun _ => hnone) rfl
      · rw [hpc]
        exact hwaitc
      · refine ⟨hunl, ?_⟩
        intro e he
        rw [show (s.unlinkParker c).claimed c = s.claimed c from rfl, hnone] at he
        cases he
    case h_2 hpc =>
      cases h
      apply hI.leave (x := .check) (by rw [hpc]; rfl) _ hlock hunl nofun rfl
      rw [hpc]
      trivial
    case h_3 hpc =>
      cases h
      apply hI.leave (x := .check) (by rw [hpc]; rfl) _ hlock hunl nofun rfl
      rw [hpc]
      trivial
    case h_4 => cases h
  · cases h

theorem Inv.finishStep (h : finishStep cfg s c = some u) : Inv cfg u := by
  have hwaitc := hI.wait c
  unfold Signal.finishStep at h
  split at h
  case h_1 hpc =>
    cases h
    rw [hpc] at hwaitc
    have hunl : s.linked c = false := hwaitc
    by_cases hmask : s.readyMask c = NETPOLL_SIGNALED
    · rw [if_pos hmask]
      apply hI.waitTo (x := .take) (by rw [hpc]; rfl) _ nofun nofun
      exact ⟨hunl, hI.sentinel c hmask⟩
    · rw [if_neg hmask]
      have hnone : s.claimed c = none := by
        by_contra hcl
        obtain ⟨e, he⟩ := Option.ne_none_iff_exists'.mp hcl
        exact hmask (hI.sentinel_of_unlinked hunl he)
      apply hI.waitTo (x := .returned _ none) (by rw [hpc]; rfl) _ (fun _ => hnone) nofun
      refine ⟨hunl, ?_⟩
      intro e he
      rw [hnone] at he
      cases he
  case h_2 hpc =>
    cases h
    rw [hpc] at hwaitc
    obtain ⟨hunl, hcl⟩ := hwaitc
    obtain ⟨e, he⟩ := Option.ne_none_iff_exists'.mp hcl
    have hslot : s.slot (cfg.owner c) = some e := (hI.claimed c e he).slot (by rw [hpc]; rfl)
    apply hI.waitTo (x := .clear _) (by rw [hpc]; rfl) _ nofun nofun
    rw [hslot]
    exact ⟨hunl, he, nofun⟩
  case h_3 exc hpc =>
    cases h
    exact hI.clear hpc
  case h_4 => cases h

theorem Inv.commitStep (hpc : s.wait c = .commit) (harmed : s.commit c = .armed) :
    Inv cfg ({ s with commit := update s.commit c .parked }.waitTo c .park) := by
  have hnone : s.claimed c = none := by
    by_contra hcl
    obtain ⟨e, he⟩ := Option.ne_none_iff_exists'.mp hcl
    rw [(hI.claimed c e he).commit] at harmed
    cases harmed
  apply hI.callStep (c := c)
  · exact ⟨rfl, rfl, rfl, rfl, rfl, rfl, fun _ _ => rfl, fun _ _ => rfl,
      fun d hd => update_of_ne hd .., fun _ _ => rfl,
      fun d hd => update_of_ne hd .., .inl ⟨rfl, rfl⟩⟩
  · rw [wait_waitTo]
    show update s.commit c .parked c ≠ .armed
    rw [update_self]
    nofun
  · exact fun h => absurd hnone h
  · exact .inl rfl
  · rw [hpc]
    nofun
  · rw [wait_waitTo]
    nofun
  · exact fun _ => .inr hnone

theorem Inv.otherClaim {v : ℤ} (hlock : s.lock (cfg.pool c) = none)
    (hlinked : s.linked c = true) (hcommit : s.commit c ≠ .woken) (hv : v ≠ NETPOLL_SIGNALED) :
    Inv cfg (({ s with
      commit := update s.commit c .woken
      readyMask := update s.readyMask c v }.unlinkParker c).wakeIf c (s.commit c)) := by
  have hnone : s.claimed c = none := by
    by_contra hcl
    obtain ⟨e, he⟩ := Option.ne_none_iff_exists'.mp hcl
    exact hcommit (hI.claimed c e he).commit
  have hwaitc := hI.wait c
  have hstep : ∀ q : ℕ → ℕ, (∀ d, d ≠ c → q d = s.queued d) → Inv cfg { s with
      commit := update s.commit c .woken
      readyMask := update s.readyMask c v
      linked := update s.linked c false
      queued := q } := by
    intro q hq
    apply hI.callStep (c := c)
    · exact ⟨rfl, rfl, rfl, rfl, rfl, rfl, fun d hd => update_of_ne hd ..,
        fun d hd => update_of_ne hd .., fun d hd => update_of_ne hd .., hq,
        fun _ _ => rfl, .inr hlock⟩
    · cases hw : s.wait c <;> rw [hw] at hwaitc <;>
        simp only [WaitOk, update_self, ne_eq, reduceCtorEq, not_false_eq_true] at hwaitc ⊢
      case idle => exact absurd (hwaitc.1.symm.trans hlinked) (by decide)
      case take => exact absurd (hwaitc.1.symm.trans hlinked) (by decide)
      case clear => exact absurd (hwaitc.1.symm.trans hlinked) (by decide)
      case returned => exact absurd (hwaitc.1.symm.trans hlinked) (by decide)
    · exact fun h => absurd hnone h
    · refine .inr ⟨hnone, ?_⟩
      simp only [update_self]
      exact hv
    · exact id
    · exact .inl
    · exact fun _ => .inr hnone
  unfold State.wakeIf
  split
  · apply hstep
    intro d hd
    exact update_of_ne hd ..
  · exact hstep s.queued fun _ _ => rfl

theorem Inv.sigNext (h : Signal.sigStep cfg s w = some u) : Inv cfg u := by
  have hsig := hI.sig w
  unfold Signal.sigStep at h
  split at h
  case h_1 e d hpc =>
    cases h
    rw [hpc] at hsig
    by_cases hwoken : s.commit d = .woken
    · rw [if_pos hwoken]
      exact hI.sigTo hpc hsig (.inl rfl) (.inl rfl) (.inr ⟨rfl, rfl⟩) nofun rfl
    · rw [if_neg hwoken]
      exact hI.sigTo hpc ⟨hsig.1, hsig.2.1, hsig.2.2, hwoken⟩ (.inl rfl) (.inl rfl) (.inr ⟨rfl, rfl⟩) nofun rfl
  case h_2 e d cur hpc =>
    split at h
    · rename_i hcur
      cases h
      exact hI.claimSwap hpc hcur
    · cases h
      rw [hpc] at hsig
      exact hI.sigTo hpc ⟨hsig.1, hsig.2.1, hsig.2.2.1⟩ (.inl rfl) (.inl rfl) (.inr ⟨rfl, rfl⟩) nofun
        rfl
  case h_3 e d hpc =>
    cases h
    exact hI.giveBack hpc
  case h_4 e d cur hpc =>
    cases h
    exact hI.storeSentinel hpc
  case h_5 e d cur hpc =>
    cases h
    exact hI.unlinkClaimed hpc
  case h_6 e d cur hpc =>
    cases h
    exact hI.requeueClaimed hpc
  case h_7 e d hpc =>
    cases h
    rw [hpc] at hsig
    obtain ⟨hlock, hcl, -, hq⟩ := hsig
    refine hI.sigStep (w := w) ?_ ?_ ?_ ?_ ?_ ?_ ?_ ?_
    · refine ⟨rfl, rfl, rfl, rfl, rfl, rfl, rfl, fun v hv => update_of_ne hv .., ?_, fun _ h => h⟩
      intro p v hv hp
      -- the lock that is dropped is this delivery's own
      refine (update_of_ne ?_ ..).trans hp
      rintro rfl
      rw [hlock] at hp
      cases hp
      exact hv rfl
    · rw [sig_sigTo]
      trivial
    · rw [sig_sigTo]
      nofun
    · rw [sig_sigTo]
      nofun
    · rw [hpc]
      nofun
    · rw [hpc]
      nofun
    · rw [hpc]
      rfl
    · intro d' e' hd'
      rcases List.mem_cons.mp hd' with heq | hd'
      · cases heq
        exact .inr ⟨hcl, hq⟩
      · exact .inl hd'
  case h_8 => cases h

end

theorem SigStep.setLock {p : ℕ} {x : Option ℕ} {y : SigPc} (hp : ∀ v, v ≠ w → s.lock p ≠ some v) :
    SigStep s ({ s with lock := update s.lock p x }.sigTo w y) w := by
  refine ⟨rfl, rfl, rfl, rfl, rfl, rfl, rfl, fun v hv => update_of_ne hv .., ?_, fun _ h => h⟩
  intro q v hv hq
  refine (update_of_ne ?_ ..).trans hq
  rintro rfl
  exact hp v hv hq

theorem Inv.step (hI : Inv cfg s) {a : Action} (hC : Heeded s a)
    (ha : Signal.step cfg s a = some u) : Inv cfg u := by
  cases a with
  | link c =>
    simp only [Signal.step] at ha
    split at ha
    · rename_i hguard
      cases ha
      have hwaitc := hI.wait c
      rw [hguard.1] at hwaitc
      obtain ⟨hlinked, hnone, harmed⟩ := hwaitc
      apply hI.callStep (c := c)
      · exact ⟨rfl, rfl, rfl, rfl, rfl, rfl, fun d hd => update_of_ne hd ..,
          fun _ _ => rfl, fun _ _ => rfl, fun _ _ => rfl, fun d hd => update_of_ne hd ..,
          .inr hguard.2⟩
      · rw [wait_waitTo]
        show s.commit c ≠ .parked
        rw [harmed]
        nofun
      · exact fun h => absurd hnone h
      · exact .inl rfl
      · rw [hguard.1]
        nofun
      · rw [wait_waitTo]
        nofun
      · rw [wait_waitTo]
        nofun
    · cases ha
  | consume c pending =>
    simp only [Signal.step] at ha
    split at ha
    · rename_i after hpc
      cases ha
      have hwaitc := hI.wait c
      rw [hpc] at hwaitc
      split
      · exact hI.waitTo (x := .leaveEarly pending) (by rw [hpc]; rfl) hwaitc nofun nofun
      · split
        · exact hI.waitTo (x := .commit) (by rw [hpc]; rfl) hwaitc nofun nofun
        · exact hI.waitTo (x := .register) (by rw [hpc]; rfl) hwaitc nofun nofun
    · cases ha
  | register c ok =>
    simp only [Signal.step] at ha
    split at ha
    · rename_i hpc
      cases ha
      have hwaitc := hI.wait c
      rw [hpc] at hwaitc
      split
      · exact hI.waitTo (x := .consume true) (by rw [hpc]; rfl) hwaitc nofun nofun
      · exact hI.waitTo (x := .leaveEarly (-1)) (by rw [hpc]; rfl) hwaitc nofun nofun
    · cases ha
  | commit c =>
    simp only [Signal.step] at ha
    split at ha
    · rename_i hpc
      split at ha
      · rename_i harmed
        cases ha
        exact hI.commitStep hpc harmed
      · cases ha
        exact hI.waitTo (x := .commitFailed) (by rw [hpc]; rfl) trivial nofun nofun
    · cases ha
  | leave c => exact hI.leaveStep hC ha
  | yield c =>
    simp only [Signal.step] at ha
    split at ha
    · rename_i hpc
      cases ha
      have hwaitc := hI.wait c
      rw [hpc] at hwaitc
      apply hI.waitTo (x := .yielded) (by rw [hpc]; rfl) hwaitc nofun
      rw [hpc]
      exact fun _ => .inl rfl
    · cases ha
  | resume c =>
    simp only [Signal.step] at ha
    split at ha
    · rename_i hguard
      cases ha
      apply hI.callStep (c := c)
      · exact ⟨rfl, rfl, rfl, rfl, rfl, rfl, fun _ _ => rfl, fun _ _ => rfl, fun _ _ => rfl,
          fun d hd => update_of_ne hd .., fun d hd => update_of_ne hd ..,
          .inl ⟨rfl, rfl⟩⟩
      · rw [wait_waitTo]
        trivial
      · intro hcl
        obtain ⟨e, he⟩ := Option.ne_none_iff_exists'.mp hcl
        exact (hI.claimed c e he).commit
      · exact .inl rfl
      · rw [hguard.1]
        nofun
      · rw [wait_waitTo]
        nofun
      · rw [wait_waitTo]
        nofun
    · cases ha
  | spurious c =>
    simp only [Signal.step] at ha
    split at ha
    · rename_i hpc
      cases ha
      exact hI.waitTo (x := .resumed) (by rw [hpc]; rfl) trivial nofun nofun
    · cases ha
  | finish c => exact hI.finishStep ha
  | claim c v =>
    simp only [Signal.step] at ha
    split at ha
    · rename_i hguard
      cases ha
      exact hI.otherClaim hguard.1 hguard.2.1 hguard.2.2.1 hguard.2.2.2
    · cases ha
  | signal w e =>
    simp only [Signal.step] at ha
    split at ha
    · rename_i hguard
      obtain ⟨hpc, hnew⟩ := hguard
      cases ha
      refine hI.sigStep (w := w) ?_ ?_ ?_ ?_ ?_ ?_ ?_ fun _ _ => .inl
      · exact ⟨rfl, rfl, rfl, rfl, rfl, rfl, rfl, fun v hv => update_of_ne hv ..,
          fun _ _ _ h => h, fun _ h => List.mem_cons_of_mem e h⟩
      · rw [sig_sigTo]
        trivial
      · rw [sig_sigTo]
        intro e' he'
        cases he'
        exact .inr ⟨hnew, List.mem_cons_self⟩
      · rw [sig_sigTo]
        intro e' he'
        cases he'
        exact .inr hnew
      · rw [hpc]
        nofun
      · rw [hpc]
        nofun
      · rw [hpc]
        rfl
    · cases ha
  | lockPool w p =>
    simp only [Signal.step] at ha
    split at ha
    · rename_i e hpc
      split at ha
      · rename_i hlock
        cases ha
        have hfree : ∀ v, v ≠ w → s.lock p ≠ some v := fun v _ h => nomatch hlock.symm.trans h
        refine hI.sigStep (SigStep.setLock hfree) ?_ ?_ ?_ ?_ ?_ ?_ fun _ _ => .inl
        · rw [sig_sigTo]
          exact update_self ..
        · rw [sig_sigTo, hpc]
          exact fun _ => .inl
        · rw [sig_sigTo, hpc]
          exact fun _ => .inl
        · rw [hpc]
          nofun
        · rw [hpc]
          nofun
        · rw [hpc]
          rfl
      · cases ha
    · cases ha
  | unlockPool w =>
    simp only [Signal.step] at ha
    split at ha
    · rename_i e p hpc
      cases ha
      have hlock := hI.sig w
      rw [hpc] at hlock
      have hours : ∀ v, v ≠ w → s.lock p ≠ some v := by
        intro v hv h
        rw [show s.lock p = some w from hlock] at h
        cases h
        exact hv rfl
      refine hI.sigStep (SigStep.setLock hours) ?_ ?_ ?_ ?_ ?_ ?_ fun _ _ => .inl
      · rw [sig_sigTo]
        trivial
      · rw [sig_sigTo, hpc]
        exact fun _ => .inl
      · rw [sig_sigTo, hpc]
        exact fun _ => .inl
      · rw [hpc]
        nofun
      · rw [hpc]
        nofun
      · rw [hpc]
        rfl
    · cases ha
  | reserve w c =>
    simp only [Signal.step] at ha
    split at ha
    · rename_i e p hpc
      split at ha
      · rename_i hguard
        cases ha
        exact hI.reserve hpc hguard.1 hguard.2.1 hguard.2.2.2
      · cases ha
    · cases ha
  | sigNext w => exact hI.sigNext ha
  | giveUp w =>
    simp only [Signal.step] at ha
    split at ha
    · rename_i e hpc
      cases ha
      exact hI.sigTo hpc trivial (.inr rfl) (.inr rfl) (.inl rfl) nofun rfl
    · cases ha

theorem Inv.of_reachable (hs : (signalWake cfg).ReachableWith Heeded s) : Inv cfg s :=
  hs.invariant (fun _ => .of_init) fun _ _ _ hI hC ha => hI.step hC ha

/-! ## The way to the return -/

def Action.caller : Action → Option ℕ
  | .link c => some c
  | .consume c _ => some c
  | .register c _ => some c
  | .commit c => some c
  | .leave c => some c
  | .yield c => some c
  | .resume c => some c
  | .finish c => some c
  | _ => none

def CanReturn (cfg : Setup) (s : State) (c : ℕ) : Prop :=
  ∃ as t, (∀ a ∈ as, a.caller = some c) ∧ (signalWake cfg).Meets Heeded s as ∧
    (signalWake cfg).run s as = some t ∧ (t.wait c).isReturned = true

theorem CanReturn.step {a : Action} (h : CanReturn cfg u c) (ha : Signal.step cfg s a = some u)
    (hcall : a.caller = some c) (hC : Heeded s a) : CanReturn cfg s c := by
  obtain ⟨as, t, hown, hmeets, hrun, hret⟩ := h
  refine ⟨a :: as, t, ?_, ?_, ?_, hret⟩
  · intro b hb
    rcases List.mem_cons.mp hb with rfl | hb
    · exact hcall
    · exact hown b hb
  · refine ⟨hC, ?_⟩
    intro t' ht'
    cases ha.symm.trans ht'
    exact hmeets
  · exact (System.run_cons ha).trans hrun

theorem CanReturn.of_clear {exc : Option ℕ} (hpc : s.wait c = .clear exc) : CanReturn cfg s c := by
  refine ⟨[.finish c], (s.setSlot (cfg.owner c) none).waitTo c (.returned (-1) exc), ?_,
    ⟨trivial, fun _ _ => trivial⟩, ?_, ?_⟩
  · intro a ha
    cases List.mem_singleton.mp ha
    rfl
  · refine System.run_cons ?_
    show finishStep cfg s c = _
    unfold finishStep
    rw [hpc]
  · rw [wait_waitTo]
    rfl

theorem CanReturn.of_take (hpc : s.wait c = .take) : CanReturn cfg s c := by
  refine CanReturn.step (of_clear (wait_waitTo s c (.clear (s.slot (cfg.owner c))))) ?_ ?_ trivial
    (a := .finish c)
  · show finishStep cfg s c = _
    unfold finishStep
    rw [hpc]
  · rfl

theorem CanReturn.of_check (hpc : s.wait c = .check) (hmask : s.readyMask c = NETPOLL_SIGNALED) :
    CanReturn cfg s c := by
  refine CanReturn.step (of_take (wait_waitTo s c .take)) ?_ ?_ trivial (a := .finish c)
  · show finishStep cfg s c = _
    unfold finishStep
    rw [hpc]
    exact congrArg (fun pc => some (s.waitTo c pc)) (if_pos hmask)
  · rfl

theorem CanReturn.of_leave (hpc : s.wait c = .commitFailed ∨ s.wait c = .resumed)
    (hmask : s.readyMask c = NETPOLL_SIGNALED) (hlock : s.lock (cfg.pool c) = none) :
    CanReturn cfg s c := by
  have hnext : CanReturn cfg ((s.unlinkParker c).waitTo c .check) c :=
    of_check (wait_waitTo _ c .check) hmask
  refine hnext.step ?_ ?_ ?_ (a := .leave c)
  · simp only [Signal.step]
    rw [if_pos hlock]
    rcases hpc with h | h <;> rw [h]
  · rfl
  · intro hearly
    rcases hpc with h | h <;> rw [h] at hearly <;> cases hearly

theorem CanReturn.of_yielded (hpc : s.wait c = .yielded) (hq : 0 < s.queued c)
    (hmask : s.readyMask c = NETPOLL_SIGNALED) (hlock : s.lock (cfg.pool c) = none) :
    CanReturn cfg s c := by
  have hnext : CanReturn cfg ({ s with
      queued := update s.queued c (s.queued c - 1) }.waitTo c .resumed) c :=
    of_leave (.inr (wait_waitTo _ c .resumed)) hmask hlock
  refine hnext.step ?_ ?_ trivial (a := .resume c)
  · simp only [Signal.step]
    rw [if_pos ⟨hpc, hq⟩]
  · rfl

theorem CanReturn.of_park (hpc : s.wait c = .park) (hq : 0 < s.queued c)
    (hmask : s.readyMask c = NETPOLL_SIGNALED) (hlock : s.lock (cfg.pool c) = none) :
    CanReturn cfg s c := by
  have hnext : CanReturn cfg (s.waitTo c .yielded) c :=
    of_yielded (wait_waitTo s c .yielded) hq hmask hlock
  refine hnext.step ?_ ?_ trivial (a := .yield c)
  · simp only [Signal.step]
    rw [if_pos hpc]
  · rfl

theorem CanReturn.of_commit (hpc : s.wait c = .commit) (hcommit : s.commit c = .woken)
    (hmask : s.readyMask c = NETPOLL_SIGNALED) (hlock : s.lock (cfg.pool c) = none) :
    CanReturn cfg s c := by
  have hnext : CanReturn cfg (s.waitTo c .commitFailed) c :=
    of_leave (.inl (wait_waitTo s c .commitFailed)) hmask hlock
  refine hnext.step ?_ ?_ trivial (a := .commit c)
  · simp only [Signal.step]
    rw [if_pos hpc, if_neg (by rw [hcommit]; nofun)]
  · rfl

theorem CanReturn.of_consume_true (hpc : s.wait c = .consume true) (hcommit : s.commit c = .woken)
    (hmask : s.readyMask c = NETPOLL_SIGNALED) (hlock : s.lock (cfg.pool c) = none) :
    CanReturn cfg s c := by
  have hnext : CanReturn cfg (s.waitTo c .commit) c :=
    of_commit (wait_waitTo s c .commit) hcommit hmask hlock
  refine hnext.step ?_ ?_ trivial (a := .consume c 0)
  · simp only [Signal.step, hpc]
    rfl
  · rfl

theorem CanReturn.of_register (hpc : s.wait c = .register) (hcommit : s.commit c = .woken)
    (hmask : s.readyMask c = NETPOLL_SIGNALED) (hlock : s.lock (cfg.pool c) = none) :
    CanReturn cfg s c := by
  have hnext : CanReturn cfg (s.waitTo c (.consume true)) c :=
    of_consume_true (wait_waitTo s c (.consume true)) hcommit hmask hlock
  refine hnext.step ?_ ?_ trivial (a := .register c true)
  · simp only [Signal.step]
    rw [if_pos hpc]
    rfl
  · rfl

theorem CanReturn.of_consume_false (hpc : s.wait c = .consume false)
    (hcommit : s.commit c = .woken) (hmask : s.readyMask c = NETPOLL_SIGNALED)
    (hlock : s.lock (cfg.pool c) = none) : CanReturn cfg s c := by
  have hnext : CanReturn cfg (s.waitTo c .register) c :=
    of_register (wait_waitTo s c .register) hcommit hmask hlock
  refine hnext.step ?_ ?_ trivial (a := .consume c 0)
  · simp only [Signal.step, hpc]
    rfl
  · rfl

theorem Inv.canReturn (hI : Inv cfg s) {e : ℕ} (hcl : s.claimed c = some e)
    (hq : (s.wait c).asleep = true → 0 < s.queued c) (hlock : s.lock (cfg.pool c) = none)
    (hret : (s.wait c).isReturned = false) (hearly : (s.wait c).isEarly = false) :
    CanReturn cfg s c := by
  have hwoken := (hI.claimed c e hcl).commit
  have hmask := hI.sentinel_of_free hlock hcl
  have hwaitc := hI.wait c
  cases hpc : s.wait c with
  | idle =>
    rw [hpc] at hwaitc
    rw [hwaitc.2.1] at hcl
    cases hcl
  | consume after =>
    cases after with
    | false => exact .of_consume_false hpc hwoken hmask hlock
    | true => exact .of_consume_true hpc hwoken hmask hlock
  | register => exact .of_register hpc hwoken hmask hlock
  | commit => exact .of_commit hpc hwoken hmask hlock
  | leaveEarly r =>
    rw [hpc] at hearly
    cases hearly
  | commitFailed => exact .of_leave (.inl hpc) hmask hlock
  | park => exact .of_park hpc (hq (by rw [hpc]; rfl)) hmask hlock
  | yielded => exact .of_yielded hpc (hq (by rw [hpc]; rfl)) hmask hlock
  | resumed => exact .of_leave (.inr hpc) hmask hlock
  | check => exact .of_check hpc hmask
  | take => exact .of_take hpc
  | clear exc => exact .of_clear hpc
  | returned r raised =>
    rw [hpc] at hret
    cases hret

/-! ## Main result -/

/-- The call `c` has returned `-1` with the exception `e`, which is out of every slot. -/
def Raised (s : State) (c e : ℕ) : Prop :=
  s.wait c = .returned (-1) (some e) ∧ ∀ o, s.slot o ≠ some e

theorem Inv.raised (hI : Inv cfg s) {e : ℕ} (hcl : s.claimed c = some e)
    (hret : (s.wait c).isReturned = true) : Raised s c e := by
  have hwaitc := hI.wait c
  cases hpc : s.wait c <;> rw [hpc] at hret hwaitc <;> cases hret
  case returned r raised =>
    obtain ⟨rfl, rfl⟩ := hwaitc.2 e hcl
    refine ⟨hpc, ?_⟩
    intro o ho
    -- somebody would be responsible for `e`: a delivery still looking, or a call still to return
    rcases hI.holder o e ho with ⟨w, d, hl, -⟩ | ⟨d, hd, -, hnot⟩
    · exact hI.loose w e hl c hcl
    · cases hI.unique d c e hd hcl
      rw [hpc] at hnot
      cases hnot

theorem claimed_of_caller {a : Action} {d : ℕ} (ha : Signal.step cfg s a = some u)
    (hcall : a.caller = some d) : u.claimed = s.claimed := by
  cases a <;> cases hcall <;> simp only [Signal.step, Signal.finishStep] at ha <;>
    (repeat' split at ha) <;> cases ha <;> rfl

/-- If no exit before the commit meets the sentinel, a call for which `signal_wake` has returned 1 raises the
exception. -/
theorem delivered_signal_raised (cfg : Setup) (s : State)
    (hs : (signalWake cfg).ReachableWith Heeded s) (c e : ℕ) (hd : (c, e) ∈ s.delivered) :
    ((s.wait c).isReturned = true → Raised s c e) ∧
      ((s.wait c).asleep = true → 0 < s.queued c) ∧
      ((s.wait c).isReturned = false → (s.wait c).isEarly = false →
        s.lock (cfg.pool c) = none → ∃ as t, (∀ a ∈ as, a.caller = some c) ∧
          (signalWake cfg).run s as = some t ∧ Raised t c e) := by
  have hI := Inv.of_reachable hs
  obtain ⟨hcl, hq⟩ := hI.delivered c e hd
  refine ⟨hI.raised hcl, hq, ?_⟩
  intro hret hearly hlock
  obtain ⟨as, t, hown, hmeets, hrun, htret⟩ := hI.canReturn hcl hq hlock hret hearly
  refine ⟨as, t, hown, hrun, ?_⟩
  have hclt : t.claimed c = some e := by
    have hkeep := System.run_invariant_of_forall (M := signalWake cfg)
      (P := fun s' => s'.claimed c = some e) (Q := fun a => a.caller = some c)
      (fun s' a u' hcall hcl' ha => by rw [claimed_of_caller ha hcall]; exact hcl') hown hcl hrun
    exact hkeep
  exact (Inv.of_reachable (hs.run hmeets hrun)).raised hclt htret

def oneCall : Setup := ⟨fun _ => 0, fun _ => 1, fun _ => true, fun _ => 0⟩

def State.initial : State where
  slot _ := none
  lock _ := none
  commit _ := .armed
  linked _ := false
  readyMask _ := 0
  queued _ := 0
  wait _ := .idle
  sig _ := .idle
  used := []
  claimed _ := none
  delivered := []

theorem init_initial : Init State.initial :=
  ⟨fun _ => rfl, fun _ => rfl, fun _ => rfl, fun _ => rfl, fun _ => rfl, fun _ => rfl, fun _ => rfl,
    fun _ => rfl, fun _ => rfl, rfl, rfl⟩

def deliver : List Action :=
  [.signal 0 7, .lockPool 0 0, .reserve 0 0, .sigNext 0, .sigNext 0, .sigNext 0, .sigNext 0,
    .sigNext 0, .sigNext 0]

def signalParked : List Action :=
  [Action.link 0, .consume 0 0, .register 0 true, .consume 0 0, .commit 0, .yield 0] ++ deliver ++
    [Action.resume 0, .leave 0, .finish 0, .finish 0, .finish 0]

theorem delivered_signal_raised_signalParked :
    ∃ s, (signalWake oneCall).ReachableWith Heeded s ∧ (0, 7) ∈ s.delivered ∧
      s.wait 0 = .returned (-1) (some 7) ∧ s.slot 1 ≠ some 7 := by
  obtain ⟨s, hs, hp⟩ := (signalWake oneCall).reachesWith Heeded
    (fun s => (0, 7) ∈ s.delivered ∧ s.wait 0 = .returned (-1) (some 7))
    signalParked init_initial (by decide +kernel)
  have hmain := (delivered_signal_raised oneCall s hs 0 7 hp.1).1 (by rw [hp.2]; rfl)
  exact ⟨s, hs, hp.1, hp.2, hmain.2 1⟩

/-- The signal claims the parker; the call then finds a pending wake and returns, and the exception stays in the
slot. -/
theorem pending_exit_drops_signal : ∃ s, (signalWake oneCall).Reachable s ∧ (0, 7) ∈ s.delivered ∧
      s.wait 0 = .returned 1 none ∧ s.slot 1 = some 7 := by
  exact (signalWake oneCall).reaches (fun s => (0, 7) ∈ s.delivered ∧ s.wait 0 = .returned 1 none ∧ s.slot 1 = some 7)
    ([Action.link 0] ++ deliver ++ [Action.consume 0 1, .leave 0]) init_initial (by decide +kernel)

end Runloom.Netpoll.Signal
