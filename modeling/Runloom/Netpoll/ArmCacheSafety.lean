import Runloom.Netpoll.ArmCacheModel

/-!
# The arm cache does not claim more than the kernel has

A call that fails to change the kernel puts the cache back, or clears it.
-/

namespace Runloom.Netpoll.ArmCache

open Transition
open Arm (Dir Pool)

variable {cfg : Config} {s t u : State} {fd fd' : ℤ} {faults : Faults} {ep : Option Pool} {op op' : Op}
  {ev : Finset Event} {mask cur target : Finset Dir} {hasWaiter : Bool}

/-- The directions that the kernel reports of the descriptor in the epoll `ep`. -/
def State.directions (s : State) (ep : Option Pool) (fd : ℤ) : Finset Dir :=
  match s.interest ep fd with
  | none => ∅
  | some ev => ({.read, .write} : Finset Dir).filter fun d => Dir.events d ⊆ ev

theorem mem_directions {d : Dir} (h : s.interest ep fd = some ev) :
    d ∈ s.directions ep fd ↔ Dir.events d ⊆ ev := by
  rw [State.directions, h]
  cases d <;> simp

theorem subset_directions (h : s.interest ep fd = some (eventsOf mask)) : mask ⊆ s.directions ep fd :=
  fun _ hd => (mem_directions h).2 (Finset.subset_biUnion_of_mem Dir.events hd)

theorem interest_ne_none_of_mem {d : Dir} (h : d ∈ s.directions ep fd) : s.interest ep fd ≠ none := by
  intro hn
  rw [State.directions, hn] at h
  exact absurd h (Finset.notMem_empty d)

/-! ## The accessors -/

/-- `t` is `s` but for the descriptor `fd`. -/
structure Frame (fd : ℤ) (s t : State) : Prop where
  armed : ∀ fd', fd' ≠ fd → t.armed fd' = s.armed fd'
  owner : ∀ fd', fd' ≠ fd → t.owner fd' = s.owner fd'
  interest : ∀ ep fd', fd' ≠ fd → t.interest ep fd' = s.interest ep fd'

theorem Frame.refl (fd : ℤ) (s : State) : Frame fd s s := ⟨fun _ _ => rfl, fun _ _ => rfl, fun _ _ _ => rfl⟩

theorem Frame.trans (h : Frame fd s t) (h' : Frame fd t u) : Frame fd s u where
  armed fd' hne := (h'.armed fd' hne).trans (h.armed fd' hne)
  owner fd' hne := (h'.owner fd' hne).trans (h.owner fd' hne)
  interest ep fd' hne := (h'.interest ep fd' hne).trans (h.interest ep fd' hne)

theorem armedSet_frame (h : s.armedSet cfg fd mask = some t) : Frame fd s t := by
  unfold State.armedSet at h
  split at h <;> cases h
  exact ⟨fun _ hne => Function.update_of_ne hne .., fun _ _ => rfl, fun _ _ _ => rfl⟩

theorem armedPut_frame (s : State) (fd : ℤ) (mask : Finset Dir) : Frame fd s (s.armedPut cfg fd mask) := by
  unfold State.armedPut
  cases h : s.armedSet cfg fd mask with
  | none => exact Frame.refl fd s
  | some t => exact armedSet_frame h

theorem poolSet_frame (s : State) (fd : ℤ) (idx : Option Pool) : Frame fd s (s.poolSet cfg fd idx) := by
  unfold State.poolSet
  split
  · exact ⟨fun _ _ => rfl, fun _ hne => Function.update_of_ne hne .., fun _ _ _ => rfl⟩
  · exact Frame.refl fd s

theorem forget_frame (s : State) (fd : ℤ) : Frame fd s (s.forget cfg fd) := by
  simp only [State.forget]
  split
  · exact (armedPut_frame s fd ∅).trans (poolSet_frame _ fd none)
  · exact armedPut_frame s fd ∅

theorem setInterest_frame (s : State) (ep : Option Pool) (fd : ℤ) (ev : Option (Finset Event)) :
    Frame fd s (s.setInterest ep fd ev) := by
  refine ⟨fun _ _ => rfl, fun _ _ => rfl, fun ep' fd' hne => ?_⟩
  by_cases hep : ep' = ep
  · subst hep
    simp [State.setInterest, hne]
  · simp [State.setInterest, hep]

@[simp] theorem setInterest_self (s : State) (ep : Option Pool) (fd : ℤ) (ev : Option (Finset Event)) :
    (s.setInterest ep fd ev).interest ep fd = ev := by simp [State.setInterest]

theorem armedGet_armedPut (s : State) (mask : Finset Dir) (hr : State.InRange cfg fd) :
    (s.armedPut cfg fd mask).armedGet cfg fd = mask := by
  simp [State.armedPut, State.armedSet, State.armedGet, hr]

theorem armedGet_armedPut_empty : (s.armedPut cfg fd ∅).armedGet cfg fd = ∅ := by
  by_cases hr : State.InRange cfg fd
  · exact armedGet_armedPut _ _ hr
  · simp [State.armedGet, hr]

variable {idx : Option Pool}

@[simp] theorem armedGet_poolSet : (s.poolSet cfg fd idx).armedGet cfg fd' = s.armedGet cfg fd' := by
  unfold State.poolSet
  split <;> rfl

theorem inRange_of_armedGet (h : s.armedGet cfg fd ≠ ∅) : State.InRange cfg fd := by
  by_contra hr
  exact h (if_neg hr)

theorem armedGet_forget : (s.forget cfg fd).armedGet cfg fd = ∅ := by
  simp only [State.forget]
  split
  · rw [armedGet_poolSet]
    exact armedGet_armedPut_empty
  · exact armedGet_armedPut_empty

/-! ## `epoll_ctl` -/

theorem ctl_cases (s : State) (faults : Faults) (ep : Option Pool) (op : Op) (fd : ℤ) (ev : Finset Event) :
    (∃ e, s.ctl faults ep op fd ev = (s, some e)) ∨
      ∃ o, s.ctl faults ep op fd ev = (s.setInterest ep fd o, none) ∧ (op ≠ .del → o = some ev) := by
  unfold State.ctl
  split
  next f _ => exact .inl ⟨_, rfl⟩
  next =>
    cases op <;> cases s.interest ep fd
    · exact .inr ⟨_, rfl, fun _ => rfl⟩
    · exact .inl ⟨_, rfl⟩
    · exact .inl ⟨_, rfl⟩
    · exact .inr ⟨_, rfl, fun _ => rfl⟩
    · exact .inl ⟨_, rfl⟩
    · exact .inr ⟨_, rfl, fun h => absurd rfl h⟩

theorem ctlOr_cases (s : State) (faults : Faults) (ep : Option Pool) (e : Errno) (fd : ℤ) (ev : Finset Event)
    (hop : op ≠ .del) (hop' : op' ≠ .del) :
    (∃ e', s.ctlOr faults ep op e op' fd ev = (s, some e')) ∨
      s.ctlOr faults ep op e op' fd ev = (s.setInterest ep fd (some ev), none) := by
  unfold State.ctlOr
  rcases ctl_cases s faults ep op fd ev with ⟨e₁, h₁⟩ | ⟨o, h₁, ho⟩
  · rw [h₁]
    simp only
    split
    · rcases ctl_cases s faults ep op' fd ev with ⟨e₂, h₂⟩ | ⟨o, h₂, ho⟩
      · exact .inl ⟨e₂, h₂⟩
      · rw [h₂, ho hop']
        exact .inr rfl
    · exact .inl ⟨e₁, rfl⟩
  · rw [h₁, ho hop]
    exact .inr rfl

theorem ctl_frame : Frame fd s (s.ctl faults ep op fd ev).1 := by
  rcases ctl_cases s faults ep op fd ev with ⟨e, h⟩ | ⟨o, h, -⟩
  · rw [h]
    exact Frame.refl fd s
  · rw [h]
    exact setInterest_frame s ep fd o

theorem ctlOr_frame {e : Errno} (hop : op ≠ .del) (hop' : op' ≠ .del) :
    Frame fd s (s.ctlOr faults ep op e op' fd ev).1 := by
  rcases ctlOr_cases s faults ep e fd ev hop hop' with ⟨e', h⟩ | h
  · rw [h]
    exact Frame.refl fd s
  · rw [h]
    exact setInterest_frame s ep fd (some ev)

@[simp] theorem ctl_armed : (s.ctl faults ep op fd ev).1.armed = s.armed := by
  rcases ctl_cases s faults ep op fd ev with ⟨e, h⟩ | ⟨o, h, -⟩
  · rw [h]
  · rw [h]
    rfl

@[simp] theorem ctl_owner : (s.ctl faults ep op fd ev).1.owner = s.owner := by
  rcases ctl_cases s faults ep op fd ev with ⟨e, h⟩ | ⟨o, h, -⟩
  · rw [h]
  · rw [h]
    rfl

theorem ctl_mod_ne_enoent (faults : Faults) (ev : Finset Event) (h : s.interest ep fd ≠ none) :
    (s.ctl faults ep .mod fd ev).2 ≠ some .enoent := by
  unfold State.ctl
  split
  next f _ => exact fun he => f.2.2 (Option.some.inj he)
  next =>
    obtain ⟨ev', hev⟩ := Option.ne_none_iff_exists'.1 h
    rw [hev]
    exact nofun

/-! ## The invariant -/

structure InvAt (cfg : Config) (s : State) (fd : ℤ) : Prop where
  registered : s.armedGet cfg fd ⊆ s.directions (s.poolGet cfg fd) fd
  shared : cfg.perhub = false → s.poolGet cfg fd = none

def Inv (cfg : Config) (s : State) : Prop := ∀ fd, InvAt cfg s fd

theorem InvAt.of_empty (h : s.armedGet cfg fd = ∅) (hs : cfg.perhub = false → s.poolGet cfg fd = none) :
    InvAt cfg s fd := ⟨by rw [h]; exact Finset.empty_subset _, hs⟩

theorem Inv.of_frame (hI : Inv cfg s) (hf : Frame fd s t) (h : InvAt cfg t fd) : Inv cfg t := by
  intro fd'
  by_cases hfd : fd' = fd
  · subst hfd
    exact h
  have harmed : t.armedGet cfg fd' = s.armedGet cfg fd' := by simp [State.armedGet, hf.armed fd' hfd]
  have hpool : t.poolGet cfg fd' = s.poolGet cfg fd' := by simp [State.poolGet, hf.owner fd' hfd]
  refine ⟨?_, fun hp => hpool.trans ((hI fd').shared hp)⟩
  rw [harmed, hpool, State.directions, hf.interest _ fd' hfd]
  exact (hI fd').registered

theorem Inv.init (h : Init s) : Inv cfg s := by
  refine fun fd => InvAt.of_empty ?_ fun _ => ?_
  · simp [State.armedGet, h.armed]
  · simp [State.poolGet, h.owner]

theorem InvAt.ownerEpoll (hI : InvAt cfg s fd) : s.ownerEpoll cfg fd = s.poolGet cfg fd := by
  unfold State.ownerEpoll
  cases hp : cfg.perhub with
  | false => exact (hI.shared hp).symm
  | true => rfl

theorem InvAt.interest (hI : InvAt cfg s fd) (h : s.armedGet cfg fd ≠ ∅) :
    s.interest (s.ownerEpoll cfg fd) fd ≠ none := by
  obtain ⟨d, hd⟩ := Finset.nonempty_iff_ne_empty.2 h
  rw [hI.ownerEpoll]
  exact interest_ne_none_of_mem (hI.registered hd)

theorem InvAt.forget (hI : InvAt cfg s fd) : InvAt cfg (s.forget cfg fd) fd := by
  refine InvAt.of_empty armedGet_forget fun hp => ?_
  have hforget : (s.forget cfg fd).owner = s.owner := by
    simp only [State.forget, hp, Bool.false_eq_true, if_false, State.armedPut, State.armedSet]
    split <;> rfl
  simp only [State.poolGet, hforget]
  exact hI.shared hp

/-! ## The calls that narrow or check the cache -/

theorem Frame.heals (h : Frame fd s t) (n : ℕ) : Frame fd s { t with heals := n } := ⟨h.armed, h.owner, h.interest⟩

theorem InvAt.heals (hI : InvAt cfg s fd) (n : ℕ) : InvAt cfg { s with heals := n } fd := ⟨hI.registered, hI.shared⟩

theorem InvAt.ctl_del (hI : InvAt cfg s fd) (h : s.armedGet cfg fd = ∅) :
    InvAt cfg (s.ctl faults ep .del fd ev).1 fd := by
  refine InvAt.of_empty ?_ fun hp => ?_
  · simpa [State.armedGet] using h
  · simpa [State.poolGet] using hI.shared hp

theorem validateArm_cases (hI : InvAt cfg s fd) (hasWaiter : Bool) (faults : Faults) :
    (∃ t, s.validateArm cfg fd hasWaiter faults = (t, none) ∧ Frame fd s t ∧ InvAt cfg t fd ∧
        t.armedGet cfg fd = s.armedGet cfg fd) ∨
      ∃ t e, s.validateArm cfg fd hasWaiter faults = (t, some e) ∧ Frame fd s t ∧ InvAt cfg t fd ∧
        t.armedGet cfg fd = ∅ := by
  simp only [State.validateArm]
  split
  next => exact .inl ⟨s, rfl, Frame.refl fd s, hI, rfl⟩
  next hcur =>
    have hcur : s.armedGet cfg fd ≠ ∅ := fun h => hcur (.inr h)
    have hmod := ctl_mod_ne_enoent faults (eventsOf (s.armedGet cfg fd)) (hI.interest hcur)
    rcases ctl_cases s faults (s.ownerEpoll cfg fd) .mod fd (eventsOf (s.armedGet cfg fd)) with ⟨e, h⟩ | ⟨o, h, ho⟩
    · rw [h] at hmod ⊢
      cases e with
      | enoent => exact absurd rfl hmod
      | _ => exact .inr ⟨_, _, rfl, (forget_frame s fd).heals _, hI.forget.heals _, armedGet_forget⟩
    · rw [h, ho nofun]
      refine .inl ⟨_, rfl, setInterest_frame .., ⟨?_, hI.shared⟩, rfl⟩
      rw [hI.ownerEpoll]
      exact subset_directions (setInterest_self ..)

theorem Inv.validateArm (hI : Inv cfg s) : Inv cfg (s.validateArm cfg fd hasWaiter faults).1 := by
  rcases validateArm_cases (hI fd) hasWaiter faults with
    ⟨t, h, hf, ht, -⟩ | ⟨t, e, h, hf, ht, -⟩
  · rw [h]
    exact hI.of_frame hf ht
  · rw [h]
    exact hI.of_frame hf ht

theorem Inv.forget_del (hI : Inv cfg s) : Inv cfg ((s.forget cfg fd).ctl faults ep .del fd ev).1 :=
  hI.of_frame ((forget_frame s fd).trans ctl_frame) ((hI fd).forget.ctl_del armedGet_forget)

theorem Inv.disarm {d : Dir} (hI : Inv cfg s) : Inv cfg (s.disarm cfg d fd faults) := by
  simp only [State.disarm]
  split
  next => exact hI
  next hd =>
    split
    next => exact hI.forget_del
    next hne =>
      have hcur : s.armedGet cfg fd ≠ ∅ := by
        intro h
        rw [h] at hne
        exact hne rfl
      have hr := inRange_of_armedGet hcur
      have hput := armedGet_armedPut s ((s.armedGet cfg fd).erase d) hr
      have hpool : (s.armedPut cfg fd ((s.armedGet cfg fd).erase d)).poolGet cfg fd = s.poolGet cfg fd := by
        simp [State.poolGet, State.armedPut, State.armedSet, hr]
      refine hI.of_frame ((armedPut_frame s fd _).trans (ctlOr_frame nofun nofun)) ?_
      rcases ctlOr_cases (s.armedPut cfg fd ((s.armedGet cfg fd).erase d)) faults (s.ownerEpoll cfg fd) .enoent fd
        (eventsOf ((s.armedGet cfg fd).erase d)) (show Op.mod ≠ .del from nofun) (show Op.add ≠ .del from nofun) with
        ⟨e, h⟩ | h
      -- The narrowing has failed: the kernel has more than the cache.
      · rw [h]
        refine ⟨?_, fun hp => hpool.trans ((hI fd).shared hp)⟩
        rw [hput, hpool]
        refine (Finset.erase_subset _ _).trans ((hI fd).registered.trans (Eq.subset ?_))
        simp [State.directions, State.armedPut, State.armedSet, hr]
      · rw [h]
        refine ⟨?_, fun hp => hpool.trans ((hI fd).shared hp)⟩
        show (s.armedPut cfg fd _).armedGet cfg fd ⊆ _
        rw [hput]
        refine subset_directions ?_
        rw [(hI fd).ownerEpoll, ← hpool]
        exact setInterest_self ..

theorem Inv.releaseIfIdle (hI : Inv cfg s) : Inv cfg (s.releaseIfIdle cfg fd hasWaiter faults) := by
  simp only [State.releaseIfIdle]
  split
  · exact hI
  · exact hI.forget_del

/-! ## The registration -/

/-- What `publish` is called with: a mask that the epoll `ep` has, or none. -/
structure Published (cfg : Config) (s : State) (fd : ℤ) (ep idx : Option Pool) (cur : Finset Dir) : Prop where
  widen : cur ≠ ∅ → s.armedGet cfg fd = cur ∧ cur ⊆ s.directions ep fd ∧ s.poolGet cfg fd = ep
  fresh : cfg.perhub = true → cur = ∅ → idx = ep
  shared : cfg.perhub = false → s.poolGet cfg fd = none ∧ ep = none

theorem record_frame : Frame fd s (s.record cfg fd idx cur target) := by
  simp only [State.record]
  split
  · exact (armedPut_frame s fd target).trans (poolSet_frame _ fd idx)
  · exact armedPut_frame s fd target

theorem record_armed (hr : State.InRange cfg fd) : (s.record cfg fd idx cur target).armedGet cfg fd = target := by
  simp only [State.record]
  split
  · rw [armedGet_poolSet]
    exact armedGet_armedPut _ _ hr
  · exact armedGet_armedPut _ _ hr

theorem record_interest : (s.record cfg fd idx cur target).interest = s.interest := by
  simp only [State.record, State.armedPut, State.armedSet, State.poolSet]
  split <;> split <;> rfl

theorem record_pool (hr : State.InRange cfg fd) : (s.record cfg fd idx cur target).poolGet cfg fd =
      if cfg.perhub ∧ cur = ∅ then idx else s.poolGet cfg fd := by
  simp only [State.record, State.armedPut, State.armedSet, State.poolSet, State.poolGet, hr, if_true,
    Option.getD_some]
  split
  · exact Function.update_self ..
  · rfl

theorem Published.poolGet (h : Published cfg s fd ep idx cur) (hr : State.InRange cfg fd) :
    (s.record cfg fd idx cur target).poolGet cfg fd = ep := by
  rw [record_pool hr]
  split
  next hc => exact h.fresh hc.1 hc.2
  next hc =>
    cases hp : cfg.perhub with
    | false => rw [(h.shared hp).1, (h.shared hp).2]
    | true => exact (h.widen fun hcur => hc ⟨hp, hcur⟩).2.2

theorem enter_cases (s : State) (faults : Faults) (ep : Option Pool) (fd : ℤ) (cur target : Finset Dir) :
    (∃ e, s.enter faults ep fd cur target = (s, some e)) ∨
      s.enter faults ep fd cur target = (s.setInterest ep fd (some (eventsOf target)), none) := by
  unfold State.enter
  split <;> exact ctlOr_cases s faults ep _ fd _ nofun nofun

theorem Published.publish_cases (h : Published cfg s fd ep idx cur) (target : Finset Dir) (faults : Faults) :
    (∃ t, s.publish cfg fd ep idx cur target faults = (t, none) ∧ Frame fd s t ∧ InvAt cfg t fd ∧
        t.armedGet cfg fd = target) ∨
      ∃ t e, s.publish cfg fd ep idx cur target faults = (t, some e) ∧ Frame fd s t ∧ InvAt cfg t fd ∧
        t.armedGet cfg fd = cur := by
  by_cases hr : State.InRange cfg fd
  · simp only [State.publish, State.armedSet, hr, if_true]
    rcases enter_cases (s.record cfg fd idx cur target) faults ep fd cur target with ⟨e, he⟩ | he
    · rw [he]
      refine .inr ⟨_, e, rfl, record_frame.trans record_frame, ?_, record_armed hr⟩
      have hpool : ((s.record cfg fd idx cur target).record cfg fd none cur cur).poolGet cfg fd =
          if cfg.perhub ∧ cur = ∅ then none else ep := by rw [record_pool hr, h.poolGet hr]
      by_cases hcur : cur = ∅
      · refine InvAt.of_empty ((record_armed hr).trans hcur) fun hp => ?_
        rw [hpool, (h.shared hp).2]
        exact ite_self none
      · rw [if_neg (fun hc => hcur hc.2)] at hpool
        refine ⟨?_, fun hp => hpool.trans (h.shared hp).2⟩
        rw [record_armed hr, hpool, State.directions, record_interest, record_interest]
        exact (h.widen hcur).2.1
    · rw [he]
      refine .inl ⟨_, rfl, record_frame.trans (setInterest_frame ..), ⟨?_, fun hp => ?_⟩, record_armed hr⟩
      · refine (Eq.subset (record_armed hr)).trans (subset_directions ?_)
        show State.interest _ ((s.record cfg fd idx cur target).poolGet cfg fd) fd = _
        rw [h.poolGet hr]
        exact setInterest_self ..
      · exact (h.poolGet hr).trans (h.shared hp).2
  -- Outside of the array there is nothing to arm.
  · have harmed : s.armedGet cfg fd = ∅ := if_neg hr
    have hcur : cur = ∅ := by
      by_contra hcur
      exact hcur ((h.widen hcur).1.symm.trans harmed)
    refine .inr ⟨s, .enomem, ?_, Frame.refl fd s, InvAt.of_empty harmed fun _ => if_neg hr, harmed.trans hcur.symm⟩
    simp [State.publish, State.armedSet, hr]

theorem published_of_migrates {pool : Pool} (hm : s.Migrates cfg pool fd) (faults : Faults) (ep : Option Pool)
    (ev : Finset Event) :
    Published cfg (s.ctl faults ep .del fd ev).1 fd none none ∅ := by
  refine ⟨fun h => absurd rfl h, fun _ _ => rfl, fun hp => ?_⟩
  rw [hm.1] at hp
  cases hp

theorem published_of_inv (hI : InvAt cfg s fd) (pool : Pool) : Published cfg s fd
      (if cfg.perhub ∧ s.armedGet cfg fd ≠ ∅ then s.ownerEpoll cfg fd else State.ownEpoll cfg pool)
      (State.ownEpoll cfg pool) (s.armedGet cfg fd) := by
  have hshared : cfg.perhub = false → State.ownEpoll cfg pool = none := by
    intro hp
    simp [State.ownEpoll, hp]
  refine ⟨fun hcur => ?_, fun _ hcur => ?_, fun hp => ?_⟩
  · have hep : (if cfg.perhub ∧ s.armedGet cfg fd ≠ ∅ then s.ownerEpoll cfg fd else State.ownEpoll cfg pool) =
        s.poolGet cfg fd := by
      split
      next => exact hI.ownerEpoll
      next hc =>
        have hp : cfg.perhub = false := Bool.not_eq_true _ ▸ fun hp => hc ⟨hp, hcur⟩
        rw [hshared hp, hI.shared hp]
    rw [hep]
    exact ⟨rfl, hI.registered, rfl⟩
  · rw [if_neg fun hc => hc.2 hcur]
  · refine ⟨hI.shared hp, ?_⟩
    rw [if_neg fun hc => Bool.false_ne_true (hp.symm.trans hc.1)]
    exact hshared hp

/-- A registration that fails leaves the mask, but when the descriptor has left the epoll of its old owner or a
check of an arm that was there has failed. -/
theorem register_cases (hI : Inv cfg s) (pool : Pool) (fd : ℤ) (need : Finset Dir) (hasWaiter : Bool)
    (faults : Faults) :
    (∃ t, s.register cfg pool fd need hasWaiter faults = (t, none) ∧ Inv cfg t ∧ need ⊆ t.armedGet cfg fd) ∨
      ∃ t e, s.register cfg pool fd need hasWaiter faults = (t, some e) ∧ Inv cfg t ∧ t.armedGet cfg fd =
          if s.Migrates cfg pool fd ∨ cfg.dbg ∧ s.Skips cfg fd need then ∅ else s.armedGet cfg fd := by
  simp only [State.register]
  split
  next hm =>
    rcases (published_of_migrates hm faults (s.ownerEpoll cfg fd) ∅).publish_cases (s.armedGet cfg fd ∪ need) faults with ⟨t, h, hf, ht, ha⟩ | ⟨t, e, h, hf, ht, ha⟩
    · refine .inl ⟨t, h, hI.of_frame (ctl_frame.trans hf) ht, ?_⟩
      rw [ha]
      exact Finset.subset_union_right
    · refine .inr ⟨t, e, h, hI.of_frame (ctl_frame.trans hf) ht, ?_⟩
      rw [ha, if_pos (.inl hm)]
  next hm =>
    split
    next hskip =>
      have hneed : need ⊆ s.armedGet cfg fd := Finset.union_eq_left.1 hskip.2
      split
      next hdbg =>
        rcases validateArm_cases (hI fd) hasWaiter faults with
          ⟨t, h, hf, ht, ha⟩ | ⟨t, e, h, hf, ht, ha⟩
        · exact .inl ⟨t, h, hI.of_frame hf ht, by rw [ha]; exact hneed⟩
        · exact .inr ⟨t, e, h, hI.of_frame hf ht, by rw [ha, if_pos (.inr ⟨hdbg, hskip⟩)]⟩
      next => exact .inl ⟨s, rfl, hI, hneed⟩
    next hskip =>
      rcases (published_of_inv (hI fd) pool).publish_cases (s.armedGet cfg fd ∪ need) faults with
        ⟨t, h, hf, ht, ha⟩ | ⟨t, e, h, hf, ht, ha⟩
      · refine .inl ⟨t, h, hI.of_frame hf ht, ?_⟩
        rw [ha]
        exact Finset.subset_union_right
      · refine .inr ⟨t, e, h, hI.of_frame hf ht, ?_⟩
        rw [ha, if_neg]
        rintro (h' | h')
        · exact hm h'
        · exact hskip h'.2

/-! ## Runs -/

theorem Inv.step {c : Call} (hI : Inv cfg s) (h : ArmCache.step cfg s c = some t) : Inv cfg t := by
  cases c with
  | register pool fd need hasWaiter faults =>
    cases h
    rcases register_cases hI pool fd need hasWaiter faults with
      ⟨t, h, ht, -⟩ | ⟨t, e, h, ht, -⟩
    · rw [h]
      exact ht
    · rw [h]
      exact ht
  | disarm d fd faults =>
    cases h
    exact hI.disarm
  | validateArm fd hasWaiter faults =>
    cases h
    exact hI.validateArm
  | releaseIfIdle fd hasWaiter faults =>
    cases h
    exact hI.releaseIfIdle

theorem inv_of_reachable (h : (armCache cfg).Reachable s) : Inv cfg s :=
  h.invariant (fun _ hs => Inv.init hs) fun _ _ _ hI _ hs => hI.step hs

/-- The mask of each descriptor is registered in the epoll recorded as its owner; a registration that succeeds has
the wanted directions; one that fails leaves the mask, unless it has moved the descriptor or was a check. -/
theorem arm_cache_never_overclaims (h : (armCache cfg).Reachable s) :
    (∀ fd, s.armedGet cfg fd ⊆ s.directions (s.poolGet cfg fd) fd) ∧
      ∀ pool fd need hasWaiter faults t r, s.register cfg pool fd need hasWaiter faults = (t, r) →
        (r = none → need ⊆ t.armedGet cfg fd) ∧
        ∀ e, r = some e → t.armedGet cfg fd =
          if s.Migrates cfg pool fd ∨ cfg.dbg ∧ s.Skips cfg fd need then ∅ else s.armedGet cfg fd := by
  have hI := inv_of_reachable h
  refine ⟨fun fd => (hI fd).registered, fun pool fd need hasWaiter faults t r hr => ?_⟩
  rcases register_cases hI pool fd need hasWaiter faults with
    ⟨t', h', -, hneed⟩ | ⟨t', e', h', -, harmed⟩
  · rw [h'] at hr
    cases hr
    exact ⟨fun _ => hneed, nofun⟩
  · rw [h'] at hr
    cases hr
    exact ⟨nofun, fun _ _ => harmed⟩

def unarmed : State := ⟨fun _ => ∅, fun _ => none, fun _ _ => none, 0⟩

def perHub (dbg : Bool) : Config := ⟨true, fun _ => true, dbg, 16⟩

def addFails : Faults
  | .add => some ⟨.enospc, nofun, nofun⟩
  | _ => none

/-- Hub 1 moves descriptor 3 from the epoll of hub 0, and its ADD to the shared one fails; hub 0 can arm it again. -/
theorem arm_cache_never_overclaims_failedMigration :
    ∃ s, (armCache (perHub false)).Reachable s ∧ s.armedGet (perHub false) 3 = {.write} ∧
      s.armedGet (perHub false) 3 ⊆ s.directions (s.poolGet (perHub false) 3) 3 := by
  obtain ⟨s, hr, hp⟩ := (armCache (perHub false)).reaches (fun s => s.armedGet (perHub false) 3 = {.write})
    [.register 0 3 {.read} false fun _ => none, .register 1 3 {.write} false addFails,
      .register 0 3 {.write} false fun _ => none]
    (s := unarmed) ⟨fun _ => rfl, fun _ => rfl⟩ (by decide +kernel)
  exact ⟨s, hr, hp, (arm_cache_never_overclaims hr).1 3⟩

def modFails : Faults
  | .mod => some ⟨.ebadf, nofun, nofun⟩
  | _ => none

/-- Under `RUNLOOM_DBG_NETPOLL` the MOD that checks an arm fails, and the mask is cleared. -/
theorem failed_check_clears_mask : ∃ s t, (armCache (perHub true)).Reachable s ∧ ¬s.Migrates (perHub true) 0 3 ∧
      s.register (perHub true) 0 3 {.read} true modFails = (t, some .ebadf) ∧
      s.armedGet (perHub true) 3 = {.read} ∧ t.armedGet (perHub true) 3 = ∅ := by
  refine ⟨(unarmed.register (perHub true) 0 3 {.read} true fun _ => none).1, _, ?_, by decide, rfl, by decide,
    by decide⟩
  exact .step (.init ⟨fun _ => rfl, fun _ => rfl⟩) trivial
    (show (armCache (perHub true)).step unarmed (.register 0 3 {.read} true fun _ => none) = some _ from rfl)

end Runloom.Netpoll.ArmCache
