import Runloom.HubQueue.Invariant

/-!
# Steps of wakers and hubs

How every step keeps the accounts.  Three of them need more than the accounts: the exchange in which a waker
sets the flag, and the two in which a fiber goes on a ready ring without a reference; `Orderly` says what.
-/

namespace Runloom.HubQueue

open Transition
open State (entries setHub)

variable {F H W : Type*} [DecidableEq F] [DecidableEq H] [DecidableEq W] {s t : State F H W}
  {loc : Entry F → Option (Place H W)} {f : F} {h : H} {w : W}

/-! ## Entries -/

omit [DecidableEq W] in
theorem entries_setFiber (x : Fiber) : (s.setFiber f x).entries = s.entries := by
  funext p
  cases p <;> rfl

omit [DecidableEq F] in
theorem entries_setHub (pc : HubPc F) : (s.setHub h pc).entries =
    update (update s.entries (.route h) pc.chain) (.popped h) pc.entry := by
  funext p
  cases p with
  | route h' | popped h' =>
    by_cases hh : h' = h
    · subst hh
      simp [entries, setHub]
    · simp [entries, setHub, hh]
  | sub h' | ready h' | deque h' | push w h' => simp [entries, setHub]

variable {pc : HubPc F}

section

omit [DecidableEq F]

theorem entries_setHub_chain (he : pc.entry = (s.hub h).entry) :
    (s.setHub h pc).entries = update s.entries (.route h) pc.chain := by
  have hsame : pc.entry = update s.entries (.route h) pc.chain (.popped h) := by
    rw [update_of_ne (by simp)]
    exact he
  rw [entries_setHub, hsame, update_eq_self]

theorem entries_setHub_entry (hc : pc.chain = (s.hub h).chain) :
    (s.setHub h pc).entries = update s.entries (.popped h) pc.entry := by
  have hsame : pc.chain = s.entries (.route h) := hc
  rw [entries_setHub, hsame, update_eq_self]

theorem entries_setHub_of_eq (hc : pc.chain = (s.hub h).chain)
    (he : pc.entry = (s.hub h).entry) : (s.setHub h pc).entries = s.entries := by
  have hsame : pc.entry = s.entries (.popped h) := he
  rw [entries_setHub_entry hc, hsame, update_eq_self]

theorem entries_setWaker_of_eq {pc : WakerPc F H} (he : ∀ h, pc.entry h = (s.waker w).entry h) :
    (s.setWaker w pc).entries = s.entries := by
  funext p
  cases p with
  | push w' h' =>
    by_cases hw : w' = w
    · subst hw
      simp [entries, State.setWaker, he]
    · simp [entries, State.setWaker, hw]
  | _ => rfl

end

variable {e : Entry F}

section

omit [DecidableEq F]

theorem entries_setWaker_push (he : ∀ h, (s.waker w).entry h = []) :
    (s.setWaker w (.push h e)).entries = update s.entries (.push w h) [e] := by
  funext p
  cases p with
  | push w' h' =>
    by_cases hw : w' = w
    · subst hw
      by_cases hh : h' = h
      · subst hh
        simp [entries, State.setWaker, WakerPc.entry]
      · have := he h'
        simpa [entries, State.setWaker, WakerPc.entry, hh, Ne.symm hh] using this
    · simp [entries, State.setWaker, hw]
  | sub h' | ready h' | deque h' | route h' | popped h' => simp [entries, State.setWaker]

theorem entries_setWaker_pushed (hpc : s.waker w = .push h e) :
    (s.setWaker w .idle).entries = update s.entries (.push w h) [] := by
  funext p
  cases p with
  | push w' h' =>
    by_cases hw : w' = w
    · subst hw
      by_cases hh : h' = h
      · subst hh
        simp [entries, State.setWaker, WakerPc.entry]
      · simp [entries, State.setWaker, WakerPc.entry, hpc, hh, Ne.symm hh]
    · simp [entries, State.setWaker, hw]
  | sub h' | ready h' | deque h' | route h' | popped h' => simp [entries, State.setWaker]

theorem entries_sub (l : List (Entry F)) :
    { s with sub := update s.sub h l }.entries = update s.entries (.sub h) l := by
  funext p
  cases p with
  | sub h' => by_cases hh : h' = h <;> simp [entries, hh]
  | ready h' | deque h' | route h' | popped h' | push w h' => simp [entries]

theorem entries_ready (l : List (Entry F)) :
    { s with ready := update s.ready h l }.entries = update s.entries (.ready h) l := by
  funext p
  cases p with
  | ready h' => by_cases hh : h' = h <;> simp [entries, hh]
  | sub h' | deque h' | route h' | popped h' | push w h' => simp [entries]

theorem entries_deque (l : List (Entry F)) :
    { s with deque := update s.deque h l }.entries = update s.entries (.deque h) l := by
  funext p
  cases p with
  | deque h' => by_cases hh : h' = h <;> simp [entries, hh]
  | sub h' | ready h' | route h' | popped h' | push w h' => simp [entries]

end

/-! ## Wakers -/

omit [DecidableEq F] [DecidableEq H] [DecidableEq W] in
theorem HubOk.congr {x x' : Fiber} {l : Option (Place H W)} (hok : HubOk h pc f x l)
    (hs : x'.spawnRef = x.spawnRef) (hd : x'.done = x.done) (hy : x'.yielded = x.yielded) :
    HubOk h pc f x' l := by
  refine ⟨fun hb => ?_, fun hb hd' => ?_, fun hf => ?_⟩
  · rw [hs]
    exact hok.spawned (hd ▸ hb)
  · rw [hd] at hb hd'
    exact hok.near hb hd'
  · have := hok.pc hf
    cases pc <;> simp only [PcOk, hd, hy] at this ⊢ <;> exact this

theorem decref_fields (x : Fiber) : x.decref.refcount = x.refcount - 1 ∧ x.decref.inc = x.inc ∧
    x.decref.spawnRef = x.spawnRef ∧ x.decref.done = x.done ∧ x.decref.yielded = x.yielded ∧
      x.decref.inSubQueue = x.inSubQueue ∧ (x.decref.free = true ↔ x.refcount - 1 ≤ 0 ∨ x.free = true) := by
  unfold Fiber.decref
  split
  next hle => exact ⟨rfl, rfl, rfl, rfl, rfl, rfl, iff_of_true rfl (.inl hle)⟩
  next hgt => exact ⟨rfl, rfl, rfl, rfl, rfl, rfl, ⟨.inr, fun h => h.resolve_left hgt⟩⟩

theorem FiberOk.decref {x : Fiber} (hok : FiberOk x) (hpos : 1 ≤ x.refcount) : FiberOk x.decref := by
  obtain ⟨hr, -, hs, hd, hy, hq, hfree⟩ := decref_fields x
  have hnot : x.free ≠ true := by
    intro he
    have := hok.free.mp he
    omega
  refine ⟨?_, fun hf hsp => ?_, fun hyl => ?_⟩
  · rw [hfree, hr]
    constructor
    · rintro (hle | he)
      · omega
      · exact absurd he hnot
    · intro he
      exact .inl (by omega)
  · rw [hd]
    exact hok.ended (by simpa using hnot) (hs ▸ hsp)
  · rw [hs, hq, hd]
    exact hok.yielded (hy ▸ hyl)

theorem Inv.setWaker (hI : Inv s loc) {pc : WakerPc F H} (hr : pc.ref = (s.waker w).ref)
    (he : ∀ h, pc.entry h = (s.waker w).entry h) : Inv (s.setWaker w pc) loc := by
  refine hI.moveTokens rfl (fun h => .inl rfl) (fun w' => ?_) ?_ (fun e p hp => ⟨p, hp⟩) (fun _ _ _ hn => hn)
  · by_cases hw : w' = w
    · subst hw
      simp only [State.setWaker, update_self, hr]
    · simp only [State.setWaker, update_of_ne hw]
  · rw [entries_setWaker_of_eq he]
    exact hI.placed

omit [DecidableEq F] [DecidableEq H] in
theorem holds_setWaker {x : Fiber} {pc : WakerPc F H} (y : Holder H W) : Holds x s.hub (update s.waker w pc) f y ↔
      y = .waker w ∧ pc.ref = some f ∨ y ≠ .waker w ∧ Holds x s.hub s.waker f y := by
  cases y with
  | spawn | queue | hub h => simp [Holds]
  | waker w' =>
    by_cases hw : w' = w
    · subst hw
      simp [Holds]
    · simp [Holds, hw]

section

variable (hI : Inv s loc)
include hI

theorem Inv.cas {old : ℤ} (hpc : s.waker w = .cas h f old) (hold : 0 < old) (hrc : (s.fiber f).refcount = old) :
    Inv ((s.setFiber f { s.fiber f with refcount := old + 1 }).setWaker w (.flag h f)) loc := by
  have hok := hI.fiber f
  refine hI.atWaker rfl rfl rfl ?_ ?_ rfl ?_ ?_ ?_ (fun _ _ => rfl) (fun p hp => (hI.queued _ p hp).2)
    (fun h => (hI.hub h f).congr rfl rfl rfl) rfl
  · rw [hpc]
    exact nofun
  · exact fun g hg => (Option.some.inj hg).symm
  · rw [← hrc]
    refine (hI.refs f).gain (x := .waker w) ?_ fun y => ?_
    · show (s.waker w).ref ≠ some f
      rw [hpc]
      exact nofun
    · rw [holds_setWaker]
      cases y with
      | waker w' =>
        by_cases hw : w' = w
        · simp [hw, WakerPc.ref]
        · simp [hw, Holds]
      | spawn | queue | hub h => simp [Holds]
  · refine ⟨?_, hok.ended, hok.yielded⟩
    have := hok.free
    show (s.fiber f).free = true ↔ old + 1 = 0
    rw [this, hrc]
    omega
  · rw [entries_setWaker_of_eq, entries_setFiber]
    · exact hI.placed
    · intro h'
      show _ = (s.waker w).entry h'
      rw [hpc]
      rfl

theorem Inv.loc_none (hq : (s.fiber f).inSubQueue = false)
    (hy : (s.fiber f).yielded = false) : loc (s.entry f) = none := by
  cases hl : loc (s.entry f) with
  | none => rfl
  | some p =>
    rcases (hI.queued _ p hl).2 with h | h
    · rw [show (s.entry f).fiber = f from rfl, hq] at h
      cases h
    · rw [show (s.entry f).fiber = f from rfl, hy] at h
      cases h

theorem Inv.flag (hpc : s.waker w = .flag h f) (hq : (s.fiber f).inSubQueue = false)
    (hy : (s.fiber f).yielded = false)
    (hnear : ∀ h', Busy (s.hub h') f (s.fiber f).done → (s.fiber f).done = false → h' = h) :
    Inv ((s.setFiber f { s.fiber f with inSubQueue := true }).setWaker w (.push h (s.entry f)))
      (update loc (s.entry f) (some (.push w h))) := by
  have hok := hI.fiber f
  have hnone := hI.loc_none hq hy
  refine hI.atWaker rfl rfl rfl ?_ nofun rfl ?_ ⟨hok.free, hok.ended, ?_⟩ ?_
    (fun e he => update_of_ne he ..) (fun _ _ => .inl rfl) (fun h' => ?_) rfl
  · rw [hpc]
    exact fun g hg => (Option.some.inj hg).symm
  -- The reference of the waker becomes that of the queue.
  · refine (hI.refs f).pass (x := .waker w) (y := .queue) ?_ ?_ fun y => ?_
    · show (s.waker w).ref = some f
      rw [hpc]
      rfl
    · show (s.fiber f).inSubQueue ≠ true
      rw [hq]
      exact nofun
    · rw [holds_setWaker]
      cases y with
      | queue | spawn | hub h => simp [Holds]
      | waker w' => simp [Holds, WakerPc.ref]
  · intro hy'
    rw [show _ = (s.fiber f).yielded from rfl, hy] at hy'
    cases hy'
  · rw [entries_setWaker_push]
    · rw [entries_setFiber]
      refine hI.placed.add hnone ?_
      have hempty : s.entries (.push w h) = [] := by
        show (s.waker w).entry h = []
        rw [hpc]
        rfl
      rw [hempty]
    · intro h'
      show (s.waker w).entry h' = []
      rw [hpc]
      rfl
  · rw [update_self]
    refine ⟨(hI.hub h' f).spawned, fun hb hd => (hnear h' hb hd).symm, (hI.hub h' f).pc⟩

theorem Inv.drop (hpc : s.waker w = .drop f) : Inv ((s.setFiber f (s.fiber f).decref).setWaker w .idle) loc := by
  obtain ⟨hr, hinc, hs, hd, hy, hq, -⟩ := decref_fields (s.fiber f)
  have hmine : Holds (s.fiber f) s.hub s.waker f (.waker w) := by
    show (s.waker w).ref = some f
    rw [hpc]
    rfl
  refine hI.atWaker rfl rfl rfl ?_ nofun hinc ?_ ((hI.fiber f).decref ((hI.refs f).pos hmine)) ?_
    (fun _ _ => rfl) (fun p hp => ?_) (fun h => (hI.hub h f).congr hs hd hy) hd
  · rw [hpc]
    exact fun g hg => (Option.some.inj hg).symm
  · rw [hr]
    refine (hI.refs f).lose hmine fun y => ?_
    rw [holds_setWaker]
    cases y with
    | queue => simp [Holds, hq]
    | spawn => simp [Holds, hs]
    | hub h => simp [Holds]
    | waker w' => simp [Holds, WakerPc.ref]
  · rw [entries_setWaker_of_eq, entries_setFiber]
    · exact hI.placed
    · intro h'
      show _ = (s.waker w).entry h'
      rw [hpc]
      rfl
  · rw [hq, hy]
    exact (hI.queued _ p hp).2

theorem Inv.push (hpc : s.waker w = .push h e) :
    Inv ((s.pushSub h e).setWaker w .idle) (update loc e (some (.sub h))) := by
  have hat : s.entries (.push w h) = [e] := by
    show (s.waker w).entry h = [e]
    rw [hpc]
    exact if_pos rfl
  have hloc : loc e = some (.push w h) := by
    apply hI.placed.mem_iff.mp
    rw [hat]
    exact List.mem_singleton_self e
  have hpc' : (s.pushSub h e).waker w = .push h e := hpc
  refine hI.moveToken hloc rfl (fun _ => .inl rfl) (fun w' => ?_) ?_ fun _ _ _ hn => hn
  · by_cases hw : w' = w
    · subst hw
      simp only [State.setWaker, State.pushSub, update_self, hpc, WakerPc.ref]
    · simp only [State.setWaker, State.pushSub, update_of_ne hw]
  · rw [entries_setWaker_pushed hpc', State.pushSub, entries_sub, Function.update_comm (by simp)]
    apply hI.placed.move (by simp)
    · rw [hat]
    · exact List.perm_append_singleton e (s.sub h)

end

/-! ## Tokens in the queues -/

omit [DecidableEq F] [DecidableEq W] in
theorem hub_setHub (hold : (s.hub h).fiber = none) (hnew : pc.fiber = none) (h' : H) :
    (s.setHub h pc).hub h' = s.hub h' ∨ ((s.setHub h pc).hub h').fiber = none ∧ (s.hub h').fiber = none := by
  by_cases hh : h' = h
  · subst hh
    right
    simp only [setHub, update_self]
    exact ⟨hnew, hold⟩
  · left
    exact update_of_ne hh ..

theorem Inv.detach (hI : Inv s loc) (hpc : s.hub h = .idle) :
    Inv ({ s with sub := update s.sub h [] }.setHub h (.route (s.sub h)))
      fun e => if loc e = some (.sub h) then some (.route h) else loc e := by
  have hnone : (s.hub h).fiber = none := by
    rw [hpc]
    rfl
  refine hI.moveTokens rfl (hub_setHub (s := { s with sub := _ }) hnone rfl) (fun _ => rfl) ?_
    (fun e p hp => ?_) (fun h' f hf hn => ?_)
  · rw [entries_setHub_chain, entries_sub]
    · refine hI.placed.pour (by simp) ?_
      show (s.hub h).chain = []
      rw [hpc]
      rfl
    · show [] = (s.hub h).entry
      rw [hpc]
      rfl
  · split at hp
    next he => exact ⟨_, he⟩
    next => exact ⟨p, hp⟩
  · split
    next he =>
      rw [he] at hn
      cases hn
      rw [hnone] at hf
      cases hf
    next => exact hn

theorem Inv.routed (hI : Inv s loc) (hpc : s.hub h = .route []) : Inv (s.setHub h .idle) loc := by
  have hnone : (s.hub h).fiber = none := by
    rw [hpc]
    rfl
  refine hI.moveTokens rfl (hub_setHub hnone rfl) (fun _ => rfl) ?_ (fun e p hp => ⟨p, hp⟩) fun _ _ _ hn => hn
  rw [entries_setHub_of_eq]
  · exact hI.placed
  · rw [hpc]
    rfl
  · rw [hpc]
    rfl

theorem Inv.route (hI : Inv s loc) {chain : List (Entry F)}
    (hpc : s.hub h = .route (e :: chain)) {u : State F H W} {q : Place H W}
    (hfib : u.fiber = s.fiber) (hhub : u.hub = s.hub) (hwak : u.waker = s.waker) (hq : q ≠ .route h)
    (hent : u.entries = update s.entries q (s.entries q ++ [e])) :
    Inv (u.setHub h (.route chain)) (update loc e (some q)) := by
  have hat : s.entries (.route h) = e :: chain := by
    show (s.hub h).chain = _
    rw [hpc]
    rfl
  have hloc : loc e = some (.route h) := by
    apply hI.placed.mem_iff.mp
    rw [hat]
    exact List.mem_cons_self
  refine hI.moveToken hloc hfib (fun h' => ?_) (fun w => ?_) ?_ fun _ _ _ hn => hn.elim
  · rw [← hhub]
    refine hub_setHub ?_ rfl h'
    rw [hhub, hpc]
    rfl
  · show (u.waker w).ref = _
    rw [hwak]
  · rw [entries_setHub_chain, hent, Function.update_comm hq]
    · apply hI.placed.move (Ne.symm hq)
      · rw [hat]
        rfl
      · exact List.perm_append_singleton e _
    · rw [hhub, hpc]
      rfl

theorem Inv.pop (hI : Inv s loc) {u : State F H W} {p : Place H W} {l : List (Entry F)}
    (hpc : s.hub h = .idle) (hfib : u.fiber = s.fiber) (hhub : u.hub = s.hub) (hwak : u.waker = s.waker)
    (hp : p ≠ .popped h) (hl : (s.entries p).Perm (e :: l)) (hent : u.entries = update s.entries p l)
    (hnear : ∀ h', Near h' (some p) → h' = h) :
    Inv (u.setHub h (.popped e)) (update loc e (some (.popped h))) := by
  have hnone : (s.hub h).fiber = none := by
    rw [hpc]
    rfl
  have hloc : loc e = some p := hI.placed.mem_iff.mp (hl.symm.subset List.mem_cons_self)
  refine hI.moveToken hloc hfib (fun h' => ?_) (fun w => ?_) ?_ fun h' f hf hn => ?_
  · rw [← hhub]
    refine hub_setHub ?_ rfl h'
    rw [hhub]
    exact hnone
  · show (u.waker w).ref = _
    rw [hwak]
  · rw [entries_setHub_entry, hent]
    · apply hI.placed.move hp hl
      have hempty : s.entries (.popped h) = [] := by
        show (s.hub h).entry = []
        rw [hpc]
        rfl
      rw [hempty]
      rfl
    · rw [hhub, hpc]
      rfl
  · rw [hnear h' hn, hnone] at hf
    cases hf

end Runloom.HubQueue
