import Runloom.Netpoll.ArmModel

/-!
# Which parked directions are armed

A waiter that has registered is linked, and each direction it asked for is armed or about to be dispatched again: some
handler dropped the arm after the waiter had relied on it and has still to visit the waiter's pool.
-/

namespace Runloom.Netpoll.Arm

open Transition List

variable {cfg : Config} {s t : State} {w x h : ℕ} {p q : Pool} {d : Dir} {mask : Finset Dir}

/-! ## What a program counter says -/

def WaitPc.linked : WaitPc → Bool
  | .consumeFirst | .register | .consumeAgain | .commit | .unlink | .parked => true
  | _ => false

def WaitPc.registered : WaitPc → Bool
  | .consumeAgain | .commit | .parked => true
  | _ => false

def WaitPc.committing : WaitPc → Bool
  | .consumeFirst | .register | .consumeAgain | .commit | .unlink => true
  | _ => false

/-- The handler has dropped `d` and will visit pool `p` in its second dispatch. -/
def HandlePc.covers (d : Dir) (p : Pool) : HandlePc → Prop
  | .redispatch d' _ => d' = d
  | .revisit d' _ todo => d' = d ∧ p ∈ todo
  | _ => False

def Registered (s : State) (w : ℕ) : Prop :=
  w ∈ s.bucket (s.pool w) ∧ (s.waiter w).registered = true

/-! ## Links -/

structure Links (s : State) : Prop where
  nodup : ∀ p, (s.bucket p).Nodup
  linked : ∀ p, ∀ w ∈ s.bucket p, s.pool w = p ∧ (s.waiter w).linked = true ∧ s.commit w ≠ .woken
  mask : ∀ p, p ≠ defaultPool → s.bucket p ≠ [] → s.poolmask p = true
  parked : ∀ w, s.commit w = .parked → s.waiter w = .parked
  held : ∀ w, (s.waiter w).linked = true → s.commit w ≠ .woken → w ∈ s.bucket (s.pool w)

section

variable (hL : Links s)
include hL

theorem Links.goWait {c : WaitPc} (hlinked : w ∈ s.bucket (s.pool w) → c.linked = true)
    (hold : c.linked = true → (s.waiter w).linked = true)
    (hparked : s.commit w = .parked → c = .parked) : Links (s.goWait w c) where
  nodup := hL.nodup
  linked := by
    intro p x hx
    rcases hL.linked p x hx with ⟨hpool, hlink, hcommit⟩
    refine ⟨hpool, ?_, hcommit⟩
    by_cases hxw : x = w
    · subst hxw
      simp only [State.goWait, update_self]
      exact hlinked (by rw [hpool]; exact hx)
    · simpa only [State.goWait, update_of_ne hxw] using hlink
  mask := hL.mask
  parked := by
    intro x hx
    by_cases hxw : x = w
    · subst hxw
      simpa only [State.goWait, update_self] using hparked hx
    · simpa only [State.goWait, update_of_ne hxw] using hL.parked x hx
  held := by
    intro x hx hcommit
    apply hL.held x _ hcommit
    by_cases hxw : x = w
    · subst hxw
      exact hold (by simpa only [State.goWait, update_self] using hx)
    · simpa only [State.goWait, update_of_ne hxw] using hx

theorem mem_unlink : x ∈ (s.unlink p w).bucket q ↔ x ∈ s.bucket q ∧ ¬(q = p ∧ x = w) := by
  unfold State.unlink
  by_cases hq : q = p
  · subst hq
    simp only [update_self, true_and]
    rw [(hL.nodup q).mem_erase_iff]
    exact and_comm
  · simp [hq]

theorem Links.mask_unlink (hq : q ≠ defaultPool)
    (hne : (s.unlink p w).bucket q ≠ []) : (s.unlink p w).poolmask q = true := by
  unfold State.unlink at hne ⊢
  by_cases hqp : q = p
  · subst hqp
    simp only [update_self] at hne ⊢
    rw [if_neg hne]
    apply hL.mask q hq
    intro hnil
    rw [hnil] at hne
    exact hne rfl
  · simp only [update_of_ne hqp] at hne ⊢
    split
    · rw [update_of_ne hqp]
      exact hL.mask q hq hne
    · exact hL.mask q hq hne

theorem nodup_unlink (q : Pool) : ((s.unlink p w).bucket q).Nodup := by
  unfold State.unlink
  by_cases hq : q = p
  · subst hq
    simpa only [update_self] using (hL.nodup q).erase w
  · simpa only [update_of_ne hq] using hL.nodup q

theorem Links.unlink (hcommit : s.commit w ≠ .parked) : Links ((s.unlink (s.pool w) w).goWait w .done) where
  nodup := nodup_unlink hL
  linked := by
    intro q x hx
    have hmem : x ∈ s.bucket q ∧ ¬(q = s.pool w ∧ x = w) := (mem_unlink hL).mp hx
    rcases hL.linked q x hmem.1 with ⟨hpool, hlink, hc⟩
    have hxw : x ≠ w := by
      rintro rfl
      exact hmem.2 ⟨hpool.symm, rfl⟩
    refine ⟨hpool, ?_, hc⟩
    simpa only [State.goWait, State.unlink, update_of_ne hxw] using hlink
  mask := fun _ hq hne => hL.mask_unlink hq hne
  parked := by
    intro x hx
    have hxw : x ≠ w := by
      rintro rfl
      exact hcommit hx
    simpa only [State.goWait, State.unlink, update_of_ne hxw] using hL.parked x hx
  held := by
    intro x hx hc
    have hxw : x ≠ w := by
      rintro rfl
      simp [State.goWait, WaitPc.linked] at hx
    have hlink : (s.waiter x).linked = true := by
      simpa only [State.goWait, State.unlink, update_of_ne hxw] using hx
    exact (mem_unlink hL).mpr ⟨hL.held x hlink hc, fun h => hxw h.2⟩

end

theorem claim_bucket (s : State) (p : Pool) (w : ℕ) : (s.claim p w).bucket = (s.unlink p w).bucket := rfl

theorem claim_poolmask (s : State) (p : Pool) (w : ℕ) : (s.claim p w).poolmask = (s.unlink p w).poolmask := rfl

theorem Links.claim (hL : Links s) (hw : w ∈ s.bucket p) : Links (s.claim p w) where
  nodup := by
    rw [claim_bucket]
    exact nodup_unlink hL
  linked := by
    intro q x hx
    rw [claim_bucket, mem_unlink hL] at hx
    rcases hL.linked q x hx.1 with ⟨hpool, hlink, hcommit⟩
    refine ⟨hpool, hlink, ?_⟩
    have hxw : x ≠ w := by
      rintro rfl
      have hp := (hL.linked p x hw).1
      exact hx.2 ⟨hpool.symm.trans hp, rfl⟩
    simpa only [State.claim, State.unlink, update_of_ne hxw] using hcommit
  mask := by
    rw [claim_bucket, claim_poolmask]
    exact fun _ hq hne => hL.mask_unlink hq hne
  parked := by
    intro x hx
    have hxw : x ≠ w := by
      rintro rfl
      simp [State.claim, State.unlink] at hx
    have hold : s.commit x = .parked := by
      simpa only [State.claim, State.unlink, update_of_ne hxw] using hx
    exact hL.parked x hold
  held := by
    intro x hx hc
    have hxw : x ≠ w := by
      rintro rfl
      simp [State.claim, State.unlink] at hc
    have hold : s.commit x ≠ .woken := by
      simpa only [State.claim, State.unlink, update_of_ne hxw] using hc
    rw [claim_bucket]
    exact (mem_unlink hL).mpr ⟨hL.held x hx hold, fun h => hxw h.2⟩

theorem Links.link (hL : Links s) (hw : s.waiter w = .idle) {ev : Finset Dir} : Links (({ s with
      events := update s.events w ev
      pool := update s.pool w p
      commit := update s.commit w .armed }.link p w).goWait w .consumeFirst) := by
  have hnot : ∀ q, w ∉ s.bucket q := by
    intro q hq
    have hlink := (hL.linked q w hq).2.1
    rw [hw] at hlink
    cases hlink
  constructor
  · intro q
    simp only [State.goWait, State.link]
    by_cases hq : q = p
    · subst hq
      rw [update_self, nodup_cons]
      exact ⟨hnot q, hL.nodup q⟩
    · rw [update_of_ne hq]
      exact hL.nodup q
  · intro q x hx
    simp only [State.goWait, State.link] at hx ⊢
    by_cases hxw : x = w
    · subst hxw
      simp only [update_self]
      refine ⟨?_, rfl, by simp⟩
      by_contra hq
      rw [update_of_ne (Ne.symm hq)] at hx
      exact hnot q hx
    · rw [update_of_ne hxw, update_of_ne hxw, update_of_ne hxw]
      apply hL.linked
      by_cases hq : q = p
      · subst hq
        rw [update_self, mem_cons] at hx
        exact hx.resolve_left hxw
      · rwa [update_of_ne hq] at hx
  · intro q hq hne
    simp only [State.goWait, State.link] at hne ⊢
    by_cases hqp : q = p
    · subst hqp
      rw [if_neg hq, update_self]
    · rw [update_of_ne hqp] at hne
      split
      · exact hL.mask q hq hne
      · rw [update_of_ne hqp]
        exact hL.mask q hq hne
  · intro x hx
    simp only [State.goWait, State.link] at hx ⊢
    by_cases hxw : x = w
    · subst hxw
      simp at hx
    · rw [update_of_ne hxw] at hx ⊢
      exact hL.parked x hx
  · intro x hx hc
    simp only [State.goWait, State.link] at hx hc ⊢
    by_cases hxw : x = w
    · subst hxw
      simp
    · rw [update_of_ne hxw] at hx hc ⊢
      have hmem := hL.held x hx hc
      by_cases hq : s.pool x = p
      · rw [hq, update_self]
        exact mem_cons_of_mem w (hq ▸ hmem)
      · rwa [update_of_ne hq]

/-! ## The kernel's interest set -/

/-- The owning epoll has exactly the arm cache, and no other epoll has the descriptor. -/
structure Kernel (cfg : Config) (s : State) : Prop where
  own : s.interest (s.ownerEpoll cfg) = s.armed
  other : ∀ e, e ≠ s.ownerEpoll cfg → s.interest e = ∅

theorem Kernel.congr (hK : Kernel cfg s) (harmed : t.armed = s.armed) (howner : t.owner = s.owner)
    (hinterest : t.interest = s.interest) : Kernel cfg t := by
  have hep : t.ownerEpoll cfg = s.ownerEpoll cfg := by
    unfold State.ownerEpoll
    rw [howner]
  constructor
  · rw [hep, harmed, hinterest]
    exact hK.own
  · rw [hep, hinterest]
    exact hK.other

variable {m : Finset Dir}

section

variable (hK : Kernel cfg s)
include hK

theorem Kernel.modify (harmed : t.armed = m) (hep : t.ownerEpoll cfg = s.ownerEpoll cfg)
    (hinterest : t.interest = update s.interest (s.ownerEpoll cfg) m) :
    Kernel cfg t := by
  constructor
  · rw [hep, harmed, hinterest, update_self]
  · intro e he
    rw [hep] at he
    rw [hinterest, update_of_ne he]
    exact hK.other e he

theorem Kernel.delete (harmed : t.armed = ∅)
    (hinterest : t.interest = update s.interest (s.ownerEpoll cfg) ∅) : Kernel cfg t := by
  have hempty : ∀ e, t.interest e = ∅ := by
    intro e
    rw [hinterest]
    by_cases he : e = s.ownerEpoll cfg
    · rw [he, update_self]
    · rw [update_of_ne he]
      exact hK.other e he
  exact ⟨by rw [hempty, harmed], fun e _ => hempty e⟩

theorem Kernel.add {e : Option Pool} (hold : s.armed = ∅) (harmed : t.armed = m) (hep : t.ownerEpoll cfg = e)
    (hinterest : t.interest = update s.interest e m) : Kernel cfg t := by
  constructor
  · rw [hep, harmed, hinterest, update_self]
  · intro e' he'
    rw [hep] at he'
    rw [hinterest, update_of_ne he']
    by_cases ho : e' = s.ownerEpoll cfg
    · rw [ho, hK.own, hold]
    · exact hK.other e' ho

theorem Kernel.migrate (hper : cfg.perhub = true) (harmed : t.armed = m) (howner : t.owner = none)
    (hinterest : t.interest = update (update s.interest s.owner ∅) none m) :
    Kernel cfg t := by
  have hold : s.ownerEpoll cfg = s.owner := if_pos hper
  have hnew : t.ownerEpoll cfg = none := (if_pos hper).trans howner
  constructor
  · rw [hnew, harmed, hinterest, update_self]
  · intro e he
    rw [hnew] at he
    rw [hinterest, update_of_ne he]
    by_cases heo : e = s.owner
    · rw [heo, update_self]
    · rw [update_of_ne heo]
      exact hK.other e (by rw [hold]; exact heo)

theorem Kernel.register (p : Pool) (need : Finset Dir) : Kernel cfg (s.register cfg p need) := by
  unfold State.register
  by_cases hmove : cfg.perhub ∧ s.armed ≠ ∅ ∧ s.owner ≠ none ∧ s.owner ≠ ownEpoll cfg p
  · rw [if_pos hmove]
    exact hK.migrate hmove.1 rfl rfl rfl
  rw [if_neg hmove]
  by_cases hskip : s.armed ≠ ∅ ∧ s.armed ∪ need = s.armed
  · rw [if_pos hskip]
    exact hK
  rw [if_neg hskip]
  by_cases hfresh : s.armed = ∅
  · rw [if_pos hfresh]
    refine hK.add (e := ownEpoll cfg p) hfresh rfl ?_ rfl
    unfold State.ownerEpoll ownEpoll
    by_cases hper : cfg.perhub = true <;> simp [hper]
  · rw [if_neg hfresh]
    exact hK.modify rfl rfl rfl

theorem Kernel.disarm (d : Dir) : Kernel cfg (s.disarm cfg d) := by
  unfold State.disarm
  by_cases hd : d ∉ s.armed
  · rw [if_pos hd]
    exact hK
  rw [if_neg hd]
  by_cases hempty : s.armed.erase d = ∅
  · exact hK.delete hempty (by rw [hempty])
  · refine hK.modify rfl ?_ rfl
    simp [State.ownerEpoll, hempty]

theorem Kernel.releaseIfIdle : Kernel cfg (s.releaseIfIdle cfg) := by
  unfold State.releaseIfIdle
  split_ifs with hidle hper
  · exact hK.delete rfl rfl
  · exact hK.delete rfl rfl
  · exact hK

end

/-! ## Armed or covered -/

def Armed (s : State) : Prop :=
  ∀ w d, Registered s w → d ∈ s.events w → d ∈ s.armed ∨ ∃ h, (s.handler h).covers d (s.pool w)

theorem Armed.mono (hA : Armed s)
    (hreg : ∀ w, Registered t w → Registered s w ∧ t.events w = s.events w ∧ t.pool w = s.pool w)
    (harmed : s.armed ⊆ t.armed)
    (hcovers : ∀ h d p, (s.handler h).covers d p → (t.handler h).covers d p) : Armed t := by
  intro w d hw hd
  rcases hreg w hw with ⟨hold, hev, hpool⟩
  rw [hev] at hd
  rw [hpool]
  rcases hA w d hold hd with hd' | ⟨h, hh⟩
  · exact .inl (harmed hd')
  · exact .inr ⟨h, hcovers h d _ hh⟩

theorem mem_snapshot (hL : Links s) (hw : w ∈ s.bucket p) : p ∈ s.snapshot cfg := by
  unfold State.snapshot
  rw [mem_filter]
  refine ⟨mem_finRange p, ?_⟩
  by_cases hp : p = defaultPool
  · simp [hp]
  · have hmask := hL.mask p hp (ne_nil_of_mem hw)
    simp [hmask]

theorem not_mem_of_match_none (hL : Links s) (hmatch : s.match? p {d} = none) (hw : w ∈ s.bucket p)
    (hd : d ∈ s.events w) : False := by
  unfold State.match? at hmatch
  have hnot := List.find?_eq_none.mp hmatch w hw
  apply hnot
  have hcommit := (hL.linked p w hw).2.2
  simp only [decide_eq_true_eq]
  refine ⟨⟨d, ?_⟩, hcommit⟩
  simp [hd]

theorem mem_of_match (hmatch : s.match? p mask = some w) : w ∈ s.bucket p :=
  mem_of_find?_eq_some hmatch

theorem Registered.of_claim (hL : Links s) {c : HandlePc}
    (hx : Registered ((s.claim p w).goHandle h c) x) : Registered s x ∧ ¬(s.pool x = p ∧ x = w) := by
  rcases hx with ⟨hmem, hpc⟩
  have hmem' : x ∈ (s.unlink p w).bucket (s.pool x) := hmem
  rw [mem_unlink hL] at hmem'
  exact ⟨⟨hmem'.1, hpc⟩, hmem'.2⟩

/-! ## Steps -/

structure Inv (cfg : Config) (s : State) : Prop where
  links : Links s
  kernel : Kernel cfg s
  armed : Armed s

theorem Inv.goWait {c : WaitPc} (hI : Inv cfg s) (hlinked : w ∈ s.bucket (s.pool w) → c.linked = true)
    (hold : c.linked = true → (s.waiter w).linked = true) (hparked : s.commit w = .parked → c = .parked)
    (hreg : c.registered = true → (s.waiter w).registered = true) : Inv cfg (s.goWait w c) where
  links := hI.links.goWait hlinked hold hparked
  kernel := hI.kernel.congr rfl rfl rfl
  armed := by
    apply hI.armed.mono
    · rintro x ⟨hmem, hpc⟩
      refine ⟨⟨hmem, ?_⟩, rfl, rfl⟩
      simp only [State.goWait] at hpc
      by_cases hxw : x = w
      · subst hxw
        rw [update_self] at hpc
        exact hreg hpc
      · rwa [update_of_ne hxw] at hpc
    · exact Finset.Subset.refl _
    · exact fun _ _ _ => id

theorem Inv.pending (hI : Inv cfg s) : Inv cfg { s with pending := m } :=
  ⟨⟨hI.links.nodup, hI.links.linked, hI.links.mask, hI.links.parked, hI.links.held⟩, hI.kernel.congr rfl rfl rfl,
    hI.armed⟩

theorem Inv.consume {ready : Bool} {c : WaitPc} (hI : Inv cfg s) (hc : c.linked = true)
    (hold : (s.waiter w).linked = true) (hpc : s.waiter w ≠ .parked) (hreg : c.registered = true → (s.waiter w).registered = true) :
    Inv cfg (consume s w ready c) := by
  have hnot : s.commit w ≠ .parked := fun h => hpc (hI.links.parked w h)
  unfold Arm.consume
  apply hI.pending.goWait
  · intro _
    split_ifs
    · rfl
    · exact hc
  · exact fun _ => hold
  · exact fun h => absurd h hnot
  · intro h
    split_ifs at h
    · cases h
    · exact hreg h

/-- `runloom_netpoll_register` never drops a direction and arms what the caller needs. -/
theorem subset_register (cfg : Config) (s : State) (p : Pool) (need : Finset Dir) :
    s.armed ∪ need ⊆ (s.register cfg p need).armed := by
  unfold State.register
  by_cases hmove : cfg.perhub ∧ s.armed ≠ ∅ ∧ s.owner ≠ none ∧ s.owner ≠ ownEpoll cfg p
  · rw [if_pos hmove]
  rw [if_neg hmove]
  by_cases hskip : s.armed ≠ ∅ ∧ s.armed ∪ need = s.armed
  · rw [if_pos hskip, hskip.2]
  rw [if_neg hskip]
  by_cases hfresh : s.armed = ∅
  · rw [if_pos hfresh]
  · rw [if_neg hfresh]

theorem register_frame (cfg : Config) (s : State) (p : Pool) (need : Finset Dir) :
    (s.register cfg p need).bucket = s.bucket ∧ (s.register cfg p need).poolmask = s.poolmask ∧
      (s.register cfg p need).events = s.events ∧ (s.register cfg p need).pool = s.pool ∧
      (s.register cfg p need).commit = s.commit ∧ (s.register cfg p need).waiter = s.waiter ∧
      (s.register cfg p need).handler = s.handler := by
  unfold State.register
  dsimp only
  split_ifs <;> exact ⟨rfl, rfl, rfl, rfl, rfl, rfl, rfl⟩

theorem Links.congr (hL : Links s) (hbucket : t.bucket = s.bucket) (hmask : t.poolmask = s.poolmask)
    (hpool : t.pool = s.pool) (hcommit : t.commit = s.commit) (hwaiter : t.waiter = s.waiter) :
    Links t := by
  constructor
  · rw [hbucket]
    exact hL.nodup
  · rw [hbucket, hpool, hwaiter, hcommit]
    exact hL.linked
  · rw [hbucket, hmask]
    exact hL.mask
  · rw [hwaiter, hcommit]
    exact hL.parked
  · rw [hbucket, hpool, hwaiter, hcommit]
    exact hL.held

section

variable (hI : Inv cfg s)
include hI

theorem Inv.register (hpc : s.waiter w = .register) :
    Inv cfg ((s.register cfg (s.pool w) (s.events w)).goWait w .consumeAgain) := by
  rcases register_frame cfg s (s.pool w) (s.events w) with
    ⟨hbucket, hmask, hevents, hpool, hcommit, hwaiter, hhandler⟩
  have hsub := subset_register cfg s (s.pool w) (s.events w)
  have hL : Links (s.register cfg (s.pool w) (s.events w)) :=
    hI.links.congr hbucket hmask hpool hcommit hwaiter
  refine ⟨hL.goWait (fun _ => rfl) ?_ ?_, (hI.kernel.register _ _).congr rfl rfl rfl, ?_⟩
  · intro _
    rw [hwaiter, hpc]
    rfl
  · intro hparked
    have hold := hL.parked w hparked
    rw [hwaiter, hpc] at hold
    cases hold
  · intro x d hx hd
    simp only [State.goWait] at hx hd ⊢
    rcases hx with ⟨hmem, hreg⟩
    simp only [hbucket, hpool, hwaiter, hevents, hhandler] at hmem hreg hd ⊢
    by_cases hxw : x = w
    · subst hxw
      exact .inl (hsub (Finset.mem_union_right _ hd))
    · rw [update_of_ne hxw] at hreg
      exact (hI.armed x d ⟨hmem, hreg⟩ hd).imp_left fun hd' =>
        hsub (Finset.mem_union_left _ hd')

theorem Inv.commit (hpc : s.waiter w = .commit) (harmed : s.commit w = .armed) :
    Inv cfg ({ s with commit := update s.commit w .parked }.goWait w .parked) := by
  have hL := hI.links
  have hmem : w ∈ s.bucket (s.pool w) := hL.held w (by rw [hpc]; rfl) (by simp [harmed])
  refine ⟨⟨hL.nodup, ?_, hL.mask, ?_, ?_⟩, hI.kernel.congr rfl rfl rfl, ?_⟩
  · intro q x hx
    rcases hL.linked q x hx with ⟨hpool, hlink, hcommit⟩
    refine ⟨hpool, ?_⟩
    simp only [State.goWait]
    by_cases hxw : x = w
    · subst hxw
      simp only [update_self]
      exact ⟨rfl, by simp⟩
    · simp only [update_of_ne hxw]
      exact ⟨hlink, hcommit⟩
  · intro x hx
    simp only [State.goWait] at hx ⊢
    by_cases hxw : x = w
    · subst hxw
      simp only [update_self]
    · rw [update_of_ne hxw] at hx ⊢
      exact hL.parked x hx
  · intro x hx hc
    simp only [State.goWait] at hx hc ⊢
    by_cases hxw : x = w
    · rw [hxw]
      exact hmem
    · rw [update_of_ne hxw] at hx hc
      exact hL.held x hx hc
  · apply hI.armed.mono
    · rintro x ⟨hx, hreg⟩
      refine ⟨⟨hx, ?_⟩, rfl, rfl⟩
      simp only [State.goWait] at hreg
      by_cases hxw : x = w
      · subst hxw
        rw [hpc]
        rfl
      · rwa [update_of_ne hxw] at hreg
    · exact Finset.Subset.refl _
    · exact fun _ _ _ => id

theorem Inv.unlink (hpc : s.waiter w = .unlink) : Inv cfg ((s.unlink (s.pool w) w).goWait w .done) := by
  have hL := hI.links
  refine ⟨hL.unlink ?_, hI.kernel.congr rfl rfl rfl, ?_⟩
  · intro hparked
    have hold := hL.parked w hparked
    rw [hpc] at hold
    cases hold
  · apply hI.armed.mono
    · rintro x ⟨hx, hreg⟩
      have hmem : x ∈ s.bucket (s.pool x) := ((mem_unlink hL).mp hx).1
      refine ⟨⟨hmem, ?_⟩, rfl, rfl⟩
      by_cases hxw : x = w
      · subst hxw
        simp [State.goWait, WaitPc.registered] at hreg
      · simpa only [State.goWait, State.unlink, update_of_ne hxw] using hreg
    · exact Finset.Subset.refl _
    · exact fun _ _ _ => id

theorem Inv.next {ready : Bool} (h : next cfg s w ready = some t) : Inv cfg t := by
  cases hpc : s.waiter w with
  | idle | done => simp [Arm.next, hpc] at h
  | consumeFirst =>
    simp only [Arm.next, hpc] at h
    cases h
    apply hI.consume rfl (by rw [hpc]; rfl) (by simp [hpc])
    intro hreg
    cases hreg
  | register =>
    simp only [Arm.next, hpc] at h
    cases h
    exact hI.register hpc
  | consumeAgain =>
    simp only [Arm.next, hpc] at h
    cases h
    apply hI.consume rfl (by rw [hpc]; rfl) (by simp [hpc])
    intro _
    rw [hpc]
    rfl
  | commit =>
    simp only [Arm.next, hpc] at h
    split at h
    · rename_i harmed
      cases h
      exact hI.commit hpc harmed
    · rename_i harmed
      cases h
      apply hI.goWait (fun _ => rfl)
      · intro _
        rw [hpc]
        rfl
      · intro hparked
        have hold := hI.links.parked w hparked
        rw [hpc] at hold
        cases hold
      · intro hreg
        cases hreg
  | unlink =>
    simp only [Arm.next, hpc] at h
    cases h
    exact hI.unlink hpc
  | parked =>
    simp only [Arm.next, hpc] at h
    split at h
    · rename_i hwoken
      cases h
      apply hI.goWait
      · intro hmem
        exact absurd hwoken (hI.links.linked _ w hmem).2.2
      · intro hc
        cases hc
      · simp [hwoken]
      · intro hreg
        cases hreg
    · cases h

theorem Inv.waitFd {ev : Finset Dir} (h : step cfg s (.waitFd w p ev) = some t) :
    Inv cfg t := by
  simp only [step] at h
  split at h
  swap
  · cases h
  rename_i hpc
  cases h
  refine ⟨hI.links.link hpc, hI.kernel.congr rfl rfl rfl, ?_⟩
  apply hI.armed.mono
  · rintro x ⟨hx, hreg⟩
    simp only [State.goWait, State.link] at hx hreg ⊢
    by_cases hxw : x = w
    · subst hxw
      simp [WaitPc.registered] at hreg
    · rw [update_of_ne hxw] at hx hreg ⊢
      rw [update_of_ne hxw]
      refine ⟨⟨?_, hreg⟩, rfl, rfl⟩
      by_cases hq : s.pool x = p
      · rw [hq, update_self, mem_cons] at hx
        rw [hq]
        exact hx.resolve_left hxw
      · rwa [update_of_ne hq] at hx
  · exact Finset.Subset.refl _
  · exact fun _ _ _ => id

end

/-! ## Steps of a handler -/

theorem Inv.goHandle {c : HandlePc} (hI : Inv cfg s)
    (hc : ∀ w d, Registered s w → d ∈ s.events w → (s.handler h).covers d (s.pool w) →
      c.covers d (s.pool w)) : Inv cfg (s.goHandle h c) where
  links := hI.links.congr rfl rfl rfl rfl rfl
  kernel := hI.kernel.congr rfl rfl rfl
  armed := by
    intro w d hw hd
    rcases hI.armed w d hw hd with hd' | ⟨x, hx⟩
    · exact .inl hd'
    · refine .inr ⟨x, ?_⟩
      simp only [State.goHandle]
      by_cases hxh : x = h
      · subst hxh
        rw [update_self]
        exact hc w d hw hd hx
      · rwa [update_of_ne hxh]

theorem Inv.claim {c : HandlePc} (hI : Inv cfg s) (hw : w ∈ s.bucket p)
    (hc : ∀ x d, Registered s x → x ≠ w → d ∈ s.events x → (s.handler h).covers d (s.pool x) →
      d ∈ s.armed ∨ c.covers d (s.pool x)) : Inv cfg ((s.claim p w).goHandle h c) where
  links := (hI.links.claim hw).congr rfl rfl rfl rfl rfl
  kernel := hI.kernel.congr rfl rfl rfl
  armed := by
    intro x d hx hd
    rcases hx.of_claim hI.links with ⟨hreg, hne⟩
    have hxw : x ≠ w := by
      rintro rfl
      exact hne ⟨(hI.links.linked p x hw).1, rfl⟩
    rcases hI.armed x d hreg hd with hd' | ⟨y, hy⟩
    · exact .inl hd'
    by_cases hyh : y = h
    · subst hyh
      rcases hc x d hreg hxw hd hy with hd' | hcov
      · exact .inl hd'
      · refine .inr ⟨y, ?_⟩
        simpa only [State.goHandle, State.claim, State.unlink, update_self] using hcov
    · refine .inr ⟨y, ?_⟩
      simpa only [State.goHandle, State.claim, State.unlink, update_of_ne hyh] using hy

theorem Inv.disarm (hI : Inv cfg s) (hpc : s.handler h = .disarm d mask) :
    Inv cfg ((s.disarm cfg d).goHandle h (.redispatch d mask)) := by
  have harmed : (s.disarm cfg d).armed = s.armed.erase d := by
    unfold State.disarm
    by_cases hd : d ∉ s.armed
    · rw [if_pos hd, Finset.erase_eq_of_notMem hd]
    · rw [if_neg hd]
  have hframe : (s.disarm cfg d).bucket = s.bucket ∧ (s.disarm cfg d).poolmask = s.poolmask ∧
      (s.disarm cfg d).events = s.events ∧ (s.disarm cfg d).pool = s.pool ∧
      (s.disarm cfg d).commit = s.commit ∧ (s.disarm cfg d).waiter = s.waiter ∧
      (s.disarm cfg d).handler = s.handler := by
    unfold State.disarm
    split_ifs <;> exact ⟨rfl, rfl, rfl, rfl, rfl, rfl, rfl⟩
  rcases hframe with ⟨hbucket, hmask, hevents, hpool, hcommit, hwaiter, hhandler⟩
  refine ⟨hI.links.congr hbucket hmask hpool hcommit hwaiter, (hI.kernel.disarm d).congr rfl rfl rfl, ?_⟩
  intro x d' hx hd'
  simp only [State.goHandle, Registered, hbucket, hpool, hwaiter, hevents, hhandler, harmed] at hx hd' ⊢
  by_cases hdd : d' = d
  · exact .inr ⟨h, by rw [update_self]; exact hdd.symm⟩
  rcases hI.armed x d' hx hd' with hd | ⟨y, hy⟩
  · exact .inl (Finset.mem_erase.mpr ⟨hdd, hd⟩)
  · have hyh : y ≠ h := by
      rintro rfl
      rw [hpc] at hy
      exact hy
    exact .inr ⟨y, by rwa [update_of_ne hyh]⟩

/-- When the second dispatch wakes a waiter, no other one of a direction that is not armed is left; and
`release_if_idle` runs outside the mask array only while nobody is parked on the descriptor. -/
def NoSecondWaiter (cfg : Config) (s : State) : Action → Prop
  | .handle h =>
    match s.handler h with
    | .revisit d _ (p :: _) =>
      ∀ w ∈ s.match? p {d}, d ∈ s.armed ∨ ∀ q, ∀ x ∈ s.bucket q, x ≠ w →
        (s.waiter x).registered = true → d ∉ s.events x
    | _ => True
  | .releaseIfIdle => cfg.masked = true ∨ ∀ q, s.bucket q = []
  | _ => True

theorem Inv.revisit {todo : List Pool} (hI : Inv cfg s)
    (hpc : s.handler h = .revisit d mask (p :: todo)) (hC : NoSecondWaiter cfg s (.handle h))
    (hstep : handle cfg s h = some t) : Inv cfg t := by
  simp only [NoSecondWaiter, hpc] at hC
  simp only [handle, hpc] at hstep
  split at hstep
  · rename_i w hmatch
    cases hstep
    apply hI.claim (mem_of_match hmatch)
    intro x d' hreg hxw hd' hcov
    rw [hpc] at hcov
    -- the dispatch stops here: by the condition nobody else of its direction is left unarmed
    cases (show d = d' from hcov.1)
    rcases hC w hmatch with harmed | hnone
    · exact .inl harmed
    · exact absurd hd' (hnone _ x hreg.1 hxw hreg.2)
  · rename_i hmatch
    cases hstep
    apply hI.goHandle
    intro w d' hreg hd' hcov
    rw [hpc] at hcov
    rcases hcov with ⟨rfl, hmem⟩
    refine ⟨rfl, ?_⟩
    rcases mem_cons.mp hmem with hp | hmem
    · have hw := hreg.1
      rw [hp] at hw
      exact (not_mem_of_match_none hI.links hmatch hw hd').elim
    · exact hmem

theorem Inv.handle (hI : Inv cfg s) (hC : NoSecondWaiter cfg s (.handle h))
    (hstep : handle cfg s h = some t) : Inv cfg t := by
  cases hpc : s.handler h with
  | idle => simp [Arm.handle, hpc] at hstep
  | dispatch mask todo =>
    cases todo with
    | nil =>
      simp only [Arm.handle, hpc] at hstep
      cases hstep
      apply hI.goHandle
      intro w d _ _ hcov
      rw [hpc] at hcov
      cases hcov
    | cons p todo =>
      simp only [Arm.handle, hpc] at hstep
      split at hstep
      · rename_i w hmatch
        cases hstep
        apply hI.claim (mem_of_match hmatch)
        intro x d _ _ _ hcov
        rw [hpc] at hcov
        cases hcov
      · cases hstep
        apply hI.goHandle
        intro w d _ _ hcov
        rw [hpc] at hcov
        cases hcov
  | setPending mask =>
    simp only [Arm.handle, hpc] at hstep
    cases hstep
    apply hI.pending.goHandle
    intro w d _ _ hcov
    rw [show (HandlePc.covers d (s.pool w) (s.handler h)) = False by rw [hpc]; rfl] at hcov
    exact hcov.elim
  | disarm d mask =>
    simp only [Arm.handle, hpc] at hstep
    cases hstep
    exact hI.disarm hpc
  | redispatch d mask =>
    simp only [Arm.handle, hpc] at hstep
    cases hstep
    apply hI.goHandle
    intro w d' hreg _ hcov
    rw [hpc] at hcov
    exact ⟨hcov, mem_snapshot hI.links hreg.1⟩
  | revisit d mask todo =>
    cases todo with
    | nil =>
      simp only [Arm.handle, hpc] at hstep
      cases hstep
      apply hI.goHandle
      intro w d' _ _ hcov
      rw [hpc] at hcov
      cases hcov.2
    | cons p todo => exact hI.revisit hpc hC hstep

theorem Links.bucket_eq_nil (hL : Links s) (hdefault : s.bucket defaultPool = [])
    (hmask : ∀ p, s.poolmask p = false) (q : Pool) : s.bucket q = [] := by
  by_cases hq : q = defaultPool
  · rw [hq]
    exact hdefault
  · by_contra hne
    have htrue := hL.mask q hq hne
    rw [hmask q] at htrue
    cases htrue

theorem Inv.releaseIfIdle (hI : Inv cfg s) (hC : NoSecondWaiter cfg s .releaseIfIdle) :
    Inv cfg (s.releaseIfIdle cfg) := by
  have hframe : (s.releaseIfIdle cfg).bucket = s.bucket ∧
      (s.releaseIfIdle cfg).poolmask = s.poolmask ∧ (s.releaseIfIdle cfg).pool = s.pool ∧
      (s.releaseIfIdle cfg).commit = s.commit ∧ (s.releaseIfIdle cfg).waiter = s.waiter := by
    unfold State.releaseIfIdle
    split_ifs <;> exact ⟨rfl, rfl, rfl, rfl, rfl⟩
  rcases hframe with ⟨hbucket, hmask, hpool, hcommit, hwaiter⟩
  refine ⟨hI.links.congr hbucket hmask hpool hcommit hwaiter, hI.kernel.releaseIfIdle, ?_⟩
  by_cases hidle : s.bucket defaultPool = [] ∧ (cfg.masked = true → ∀ p, s.poolmask p = false) ∧ s.armed ≠ ∅
  · have hempty : ∀ q, s.bucket q = [] := by
      rcases hC with hm | hall
      · exact hI.links.bucket_eq_nil hidle.1 (hidle.2.1 hm)
      · exact hall
    intro w d hw
    have hmem := hw.1
    rw [hbucket, hempty] at hmem
    cases hmem
  · have hsame : s.releaseIfIdle cfg = s := if_neg hidle
    rw [hsame]
    exact hI.armed

theorem Inv.step {a : Action} (hI : Inv cfg s) (hC : NoSecondWaiter cfg s a)
    (h : step cfg s a = some t) : Inv cfg t := by
  cases a with
  | waitFd w p ev => exact hI.waitFd h
  | next w ready => exact hI.next h
  | event x mask =>
    simp only [Arm.step] at h
    split at h
    · rename_i hpc
      cases h
      apply hI.goHandle
      intro w d _ _ hcov
      rw [hpc] at hcov
      cases hcov
    · cases h
  | handle x => exact hI.handle hC h
  | releaseIfIdle =>
    cases h
    exact hI.releaseIfIdle hC

theorem Inv.init (hI : Init s) : Inv cfg s := by
  refine ⟨⟨?_, ?_, ?_, ?_, ?_⟩, ⟨?_, ?_⟩, ?_⟩
  · intro p
    rw [hI.bucket p]
    exact nodup_nil
  · intro p w hw
    rw [hI.bucket p] at hw
    cases hw
  · intro p _ hne
    exact absurd (hI.bucket p) hne
  · intro w hw
    rw [hI.commit w] at hw
    cases hw
  · intro w hw
    rw [hI.waiter w] at hw
    cases hw
  · rw [hI.interest, hI.armed]
  · exact fun e _ => hI.interest e
  · intro w d hw
    have hmem := hw.1
    rw [hI.bucket] at hmem
    cases hmem

theorem armSystem_inv (hr : (armSystem cfg).ReachableWith (NoSecondWaiter cfg) s) : Inv cfg s :=
  hr.invariant (fun _ => Inv.init) fun _ _ _ hI hC h => hI.step hC h

/-! ## The result -/

/-- In a quiet state every direction a parked waiter asked for is in the arm cache and in the owning epoll. -/
theorem parked_directions_armed (hr : (armSystem cfg).ReachableWith (NoSecondWaiter cfg) s)
    (hquiet : ∀ h, s.handler h = .idle) :
    ∀ w d, s.commit w = .parked → d ∈ s.events w → d ∈ s.armed ∧ d ∈ s.interest (s.ownerEpoll cfg) := by
  have hI := armSystem_inv hr
  intro w d hw hd
  have hpc := hI.links.parked w hw
  have hreg : Registered s w := by
    refine ⟨hI.links.held w ?_ ?_, ?_⟩
    · rw [hpc]
      rfl
    · simp [hw]
    · rw [hpc]
      rfl
  have harmed : d ∈ s.armed := by
    rcases hI.armed w d hreg hd with hd' | ⟨h, hh⟩
    · exact hd'
    · rw [hquiet h] at hh
      cases hh
  exact ⟨harmed, by rwa [hI.kernel.own]⟩

/-! ## Concrete schedules -/

instance (s : State) : (a : Action) → Decidable (NoSecondWaiter cfg s a)
  | .waitFd _ _ _ | .next _ _ | .event _ _ => .isTrue trivial
  | .releaseIfIdle => inferInstanceAs (Decidable (cfg.masked = true ∨ ∀ q, s.bucket q = []))
  | .handle h =>
    match hpc : s.handler h with
    | .revisit d _ (p :: _) =>
      decidable_of_iff (∀ w ∈ s.match? p {d}, d ∈ s.armed ∨ ∀ q, ∀ x ∈ s.bucket q, x ≠ w →
        (s.waiter x).registered = true → d ∉ s.events x) (by simp only [NoSecondWaiter, hpc])
    | .revisit _ _ [] | .idle | .dispatch _ _ | .setPending _ | .disarm _ _ | .redispatch _ _ =>
      .isTrue (by simp only [NoSecondWaiter, hpc])

def sharedEpoll : Config := ⟨false, fun _ => false, true⟩

def noWaiter : State where
  bucket := fun _ => []
  poolmask := fun _ => false
  pending := ∅
  armed := ∅
  owner := none
  interest := fun _ => ∅
  events := fun _ => ∅
  pool := fun _ => 0
  commit := fun _ => .armed
  waiter := fun _ => .idle
  handler := fun _ => .idle

theorem noWaiter_init : (armSystem sharedEpoll).init noWaiter :=
  ⟨fun _ => rfl, fun _ => rfl, rfl, rfl, fun _ => rfl, fun _ => rfl, fun _ => rfl, fun _ => rfl⟩

/-- A writer in hub pool `0` waits and parks. -/
def parkWriter (w : ℕ) : List Action := .waitFd w 0 {.write} :: List.replicate 4 (.next w false)

/-- Writer `0` parks and is served; the next event finds nobody. -/
def writerServed : List Action :=
  parkWriter 0 ++ [Action.event 0 {.write}, .handle 0, .next 0 false, .event 0 {.write}, .handle 0, .handle 0]

def disarmAndRedispatch : List Action := List.replicate 4 (.handle 0)

/-- One writer is woken by the second dispatch; another comes after the disarm. -/
def oneInWindow : List Action :=
  writerServed ++ parkWriter 1 ++ disarmAndRedispatch ++ [Action.next 1 false] ++ parkWriter 2

def twoInWindow : List Action :=
  writerServed ++ parkWriter 1 ++ parkWriter 2 ++ disarmAndRedispatch

/-- The action is one of the waiters `0` to `2` or of the handler `0`. -/
def Action.small : Action → Bool
  | .waitFd w _ _ | .next w _ => w < 3
  | .event h _ | .handle h => h = 0
  | .releaseIfIdle => true

/-- All other calls are idle. -/
structure Small (s : State) : Prop where
  waiter : ∀ w, 3 ≤ w → s.waiter w = .idle
  handler : ∀ h, h ≠ 0 → s.handler h = .idle

theorem next_frame {ready : Bool} (h : next cfg s w ready = some t) :
    t.handler = s.handler ∧ ∃ c, t.waiter = update s.waiter w c := by
  cases hpc : s.waiter w with
  | idle | done => simp [next, hpc] at h
  | consumeFirst | consumeAgain | unlink =>
    simp only [next, hpc] at h
    cases h
    exact ⟨rfl, _, rfl⟩
  | register =>
    simp only [next, hpc] at h
    cases h
    rcases register_frame cfg s (s.pool w) (s.events w) with
      ⟨_, _, _, _, _, hwaiter, hhandler⟩
    exact ⟨hhandler, .consumeAgain, by rw [State.goWait, hwaiter]⟩
  | commit | parked =>
    simp only [next, hpc] at h
    split at h <;> cases h <;> exact ⟨rfl, _, rfl⟩

theorem handle_frame (hstep : handle cfg s h = some t) :
    t.waiter = s.waiter ∧ ∃ c, t.handler = update s.handler h c := by
  cases hpc : s.handler h with
  | idle => simp [handle, hpc] at hstep
  | dispatch mask todo | revisit d mask todo =>
    cases todo with
    | nil =>
      simp only [handle, hpc] at hstep
      cases hstep
      exact ⟨rfl, _, rfl⟩
    | cons p todo =>
      simp only [handle, hpc] at hstep
      split at hstep <;> cases hstep <;> exact ⟨rfl, _, rfl⟩
  | setPending | redispatch =>
    simp only [handle, hpc] at hstep
    cases hstep
    exact ⟨rfl, _, rfl⟩
  | disarm d mask =>
    simp only [handle, hpc] at hstep
    cases hstep
    have hframe : (s.disarm cfg d).waiter = s.waiter ∧ (s.disarm cfg d).handler = s.handler := by
      unfold State.disarm
      split_ifs <;> exact ⟨rfl, rfl⟩
    exact ⟨hframe.1, .redispatch d mask, by rw [State.goHandle, hframe.2]⟩

theorem Small.step {a : Action} (ha : a.small = true) (hs : Small s) (h : step cfg s a = some t) :
    Small t := by
  have hwait : ∀ {w : ℕ} {u : State} {c}, w < 3 → u.handler = s.handler →
      u.waiter = update s.waiter w c → Small u := by
    intro w u c hw hhandler hwaiter
    refine ⟨fun x hx => ?_, by rw [hhandler]; exact hs.handler⟩
    rw [hwaiter, update_of_ne (by omega)]
    exact hs.waiter x hx
  have hhandle : ∀ {u : State} {c}, u.waiter = s.waiter → u.handler = update s.handler 0 c → Small u := by
    intro u c hwaiter hhandler
    refine ⟨by rw [hwaiter]; exact hs.waiter, fun x hx => ?_⟩
    rw [hhandler, update_of_ne hx]
    exact hs.handler x hx
  cases a with
  | waitFd w p ev =>
    simp only [Arm.step] at h
    split at h <;> cases h
    exact hwait (of_decide_eq_true ha) rfl rfl
  | next w ready =>
    rcases next_frame h with ⟨hhandler, c, hc⟩
    exact hwait (of_decide_eq_true ha) hhandler hc
  | event x mask =>
    cases (of_decide_eq_true ha : x = 0)
    simp only [Arm.step] at h
    split at h <;> cases h
    exact hhandle rfl rfl
  | handle x =>
    cases (of_decide_eq_true ha : x = 0)
    rcases handle_frame h with ⟨hwaiter, c, hc⟩
    exact hhandle hwaiter hc
  | releaseIfIdle =>
    cases h
    have hframe : (s.releaseIfIdle cfg).waiter = s.waiter ∧ (s.releaseIfIdle cfg).handler = s.handler := by
      unfold State.releaseIfIdle
      split_ifs <;> exact ⟨rfl, rfl⟩
    exact ⟨by rw [hframe.1]; exact hs.waiter, by rw [hframe.2]; exact hs.handler⟩

theorem small_of_run {as : List Action} (has : ∀ a ∈ as, a.small = true)
    (h : (armSystem sharedEpoll).run noWaiter as = some t) : Small t :=
  System.run_invariant_of_forall (fun _ _ _ ha hs hu => Small.step ha hs hu) has
    ⟨fun _ _ => rfl, fun _ _ => rfl⟩ h

theorem Small.quiet (hs : Small s) (h0 : s.handler 0 = .idle) (h : ℕ) : s.handler h = .idle := by
  by_cases hh : h = 0
  · rw [hh]
    exact h0
  · exact hs.handler h hh

theorem Small.not_committing (hs : Small s) (h : ∀ w ∈ List.range 3, (s.waiter w).committing = false) (w : ℕ) :
    (s.waiter w).committing = false := by
  by_cases hw : w < 3
  · exact h w (mem_range.mpr hw)
  · rw [hs.waiter w (by omega)]
    rfl

/-- After `oneInWindow` writer `2` is parked, and `OUT` is armed for it. -/
theorem parked_directions_armed_oneInWindow :
    ∃ s, (armSystem sharedEpoll).run noWaiter oneInWindow = some s ∧ s.commit 2 = .parked ∧
      Dir.write ∈ s.armed ∧ Dir.write ∈ s.interest (s.ownerEpoll sharedEpoll) := by
  rcases System.exists_reachableWith_of_replay (M := armSystem sharedEpoll)
    (C := NoSecondWaiter sharedEpoll) (p := fun s => decide (s.handler 0 = .idle ∧
      s.commit 2 = .parked ∧ Dir.write ∈ s.events 2)) oneInWindow noWaiter_init (by decide +kernel)
    with ⟨s, hrun, hr, hp⟩
  rcases of_decide_eq_true hp with ⟨hhandler, hparked, hevents⟩
  have hquiet := (small_of_run (by decide) hrun).quiet hhandler
  exact ⟨s, hrun, hparked, parked_directions_armed hr hquiet 2 .write hparked hevents⟩

/-- Two writers park before the handler drops `OUT`; the second dispatch wakes one of them only. -/
theorem parked_writer_disarmed : ∃ s, (armSystem sharedEpoll).Reachable s ∧ (∀ h, s.handler h = .idle) ∧
      (∀ w, (s.waiter w).committing = false) ∧ s.commit 1 = .parked ∧ Dir.write ∈ s.events 1 ∧
      Dir.write ∉ s.armed ∧ Dir.write ∉ s.interest (s.ownerEpoll sharedEpoll) := by
  rcases System.exists_reachable_of_run (M := armSystem sharedEpoll) (p := fun s => decide (s.handler 0 = .idle ∧
      (∀ w ∈ List.range 3, (s.waiter w).committing = false) ∧ s.commit 1 = .parked ∧
      Dir.write ∈ s.events 1 ∧ Dir.write ∉ s.armed ∧
      Dir.write ∉ s.interest (s.ownerEpoll sharedEpoll))) twoInWindow noWaiter_init (by decide +kernel)
    with ⟨s, hrun, hr, hp⟩
  rcases of_decide_eq_true hp with ⟨hhandler, hcommitted, hrest⟩
  have hsmall : Small s := small_of_run (by decide) hrun
  exact ⟨s, hr, hsmall.quiet hhandler, hsmall.not_committing hcommitted, hrest⟩

end Runloom.Netpoll.Arm
