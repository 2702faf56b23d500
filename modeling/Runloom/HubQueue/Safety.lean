import Runloom.HubQueue.HubSteps

/-!
# Queue entries do not outlive their fibers

In every run in which no fiber gets a second entry, every entry is of the incarnation that was enqueued, and the
struct is held.  A wake that comes while the fiber runs leaves an entry behind when the fiber ends; the entry has a
reference of its own and is dropped when it is popped.
-/

namespace Runloom.HubQueue

open Transition

variable {F H W : Type*} [DecidableEq F] [DecidableEq H] [DecidableEq W] {s t : State F H W}
  {loc : Entry F → Option (Place H W)} {f : F} {h : H} {w : W}

/-- No fiber gets a second entry: a waker sets its flag only when it is on no ready ring, and while it runs only for
its hub; and it puts itself on a ring only when its flag is clear. -/
def Orderly (s : State F H W) : Action F H W → Prop
  | .waker w =>
    match s.waker w with
    | .flag h f => (s.fiber f).inSubQueue = false → (s.fiber f).yielded = false ∧
        ∀ h', Busy (s.hub h') f (s.fiber f).done → (s.fiber f).done = false → h' = h
    | _ => True
  | .yield h => ∀ x ∈ s.runs h, (s.fiber x.1).inSubQueue = false
  | .hub h _ =>
    match s.hub h with
    | .released f false => (s.fiber f).done = false → (s.fiber f).inSubQueue = false
    | _ => True
  | _ => True

theorem Inv.wakerStep (hI : Inv s loc) (ho : Orderly s (.waker w)) (ht : s.wakerStep w = some t) :
    ∃ loc', Inv t loc' := by
  unfold State.wakerStep at ht
  split at ht
  next => cases ht
  next h f hpc =>
    cases ht
    exact ⟨loc, hI.setWaker (by rw [hpc]; rfl) (fun _ => by rw [hpc]; rfl)⟩
  next h f old hpc =>
    split at ht
    next hold =>
      split at ht <;> cases ht
      next hrc => exact ⟨loc, hI.cas hpc hold hrc⟩
      next => exact ⟨loc, hI.setWaker (by rw [hpc]; rfl) (fun _ => by rw [hpc]; rfl)⟩
    next =>
      cases ht
      exact ⟨loc, hI.setWaker (by rw [hpc]; rfl) (fun _ => by rw [hpc]; rfl)⟩
  next h f hpc =>
    split at ht <;> cases ht
    next => exact ⟨loc, hI.setWaker (by rw [hpc]; rfl) (fun _ => by rw [hpc]; rfl)⟩
    next hq =>
      have hq : (s.fiber f).inSubQueue = false := by simpa using hq
      simp only [Orderly, hpc] at ho
      exact ⟨_, hI.flag hpc hq (ho hq).1 (ho hq).2⟩
  next f hpc =>
    cases ht
    exact ⟨loc, hI.drop hpc⟩
  next h e hpc =>
    cases ht
    exact ⟨_, hI.push hpc⟩

theorem Inv.routeStep (hI : Inv s loc) {full : Bool} (ht : s.routeStep h full = some t) : ∃ loc', Inv t loc' := by
  unfold State.routeStep at ht
  split at ht <;> cases ht
  next hpc => exact ⟨loc, hI.routed hpc⟩
  next e chain hpc =>
    split
    · exact ⟨_, hI.route (u := s.pushReady h e) (q := .ready h) hpc rfl rfl rfl (by simp) (entries_ready _)⟩
    · exact ⟨_, hI.route (u := s.pushDeque h e) (q := .deque h) hpc rfl rfl rfl (by simp) (entries_deque _)⟩

omit [DecidableEq H] [DecidableEq W] in
theorem setFiber_self (s : State F H W) (f : F) : s.setFiber f (s.fiber f) = s := by
  simp only [State.setFiber, Function.update_eq_self]

variable {qref : Bool}

theorem Inv.check (hI : Inv s loc) {oom : Bool} (hpc : s.hub h = .claimed f qref)
    (ht : s.hubStep h oom = some t) : Inv t loc := by
  have hok := hI.hub h f
  rw [hpc] at hok
  obtain ⟨hqref, hyield⟩ := hok.pc rfl
  simp only [State.hubStep, hpc] at ht
  split at ht
  next hd =>
    cases ht
    refine hI.leave (by rw [hpc]; rfl) (fun g hg => (Option.some.inj hg).symm) ?_ rfl rfl id trivial
    rw [hpc]
    cases qref <;> rfl
  next hd =>
    have hd : (s.fiber f).done = false := by simpa using hd
    have hb : Busy (s.hub h) f (s.fiber f).done := by
      rw [hpc]
      exact ⟨rfl, hd⟩
    have hy := hyield hd
    have hempty : ∀ {pc : HubPc F}, pc.fiber = some f → (∀ g, pc.fiber = some g → g = f) ∧
        pc.chain = [] ∧ pc.entry = [] := by
      intro pc hf
      refine ⟨fun g hg => ?_, empty_of_fiber hf⟩
      rw [hf] at hg
      exact (Option.some.inj hg).symm
    have hrefs : (HubPc.running f qref).ref = (s.hub h).ref ∧ (HubPc.oom f qref).ref = (s.hub h).ref := by
      rw [hpc]
      cases qref <;> exact ⟨rfl, rfl⟩
    split at ht
    · cases ht
      have hown : Inv ((s.setFiber f (s.fiber f)).setHub h (.running f qref)) loc :=
        hI.own hb (hempty rfl).1 hrefs.1 rfl rfl rfl rfl rfl rfl rfl rfl id (fun _ => hd) ⟨hd, hy⟩
      rwa [setFiber_self] at hown
    · split at ht <;> cases ht
      · refine hI.own hb (hempty rfl).1 hrefs.2 rfl rfl rfl rfl rfl rfl rfl rfl (fun _ => rfl) ?_ rfl
        intro hyx
        rw [show _ = (s.fiber f).yielded from rfl, hy] at hyx
        cases hyx
      next => exact hI.own hb (hempty rfl).1 hrefs.1 rfl rfl rfl rfl rfl rfl rfl rfl id (fun _ => hd) ⟨hd, hy⟩

/-- What follows the return of `runloom_coro_resume`, with the queue reference dropped. -/
theorem Inv.release (hI : Inv s loc) {selfQueued oom : Bool} (hpc : s.hub h = .released f selfQueued)
    (ho : Orderly s (.hub h oom)) (ht : s.hubStep h oom = some t) : ∃ loc', Inv t loc' := by
  have hb : Busy (s.hub h) f (s.fiber f).done := by
    rw [hpc]
    rfl
  have href : (HubPc.idle : HubPc F).ref = (s.hub h).ref := by
    rw [hpc]
    rfl
  simp only [State.hubStep, hpc] at ht
  split at ht
  next hd =>
    cases ht
    exact ⟨loc, hI.dropSpawn hb hd nofun href rfl rfl id fun _ => trivial⟩
  next hd =>
    have hd : (s.fiber f).done = false := by simpa using hd
    split at ht <;> cases ht
    next => exact ⟨loc, hI.leave (by rw [hpc]; rfl) nofun href rfl rfl id trivial⟩
    next hsq =>
      have hsq : selfQueued = false := by simpa using hsq
      subst hsq
      have hy : (s.fiber f).yielded = false := by
        have hok := (hI.hub h f).pc (by rw [hpc]; rfl)
        rw [hpc] at hok
        exact hok rfl
      simp only [Orderly, hpc] at ho
      refine ⟨_, hI.selfPush hb hd (ho hd) hy rfl rfl rfl ?_ nofun href rfl rfl fun _ => trivial⟩
      rw [State.selfPush, entries_setFiber]
      exact entries_ready _

theorem Inv.hubStep (hI : Inv s loc) {oom : Bool} (ho : Orderly s (.hub h oom))
    (ht : s.hubStep h oom = some t) : ∃ loc', Inv t loc' := by
  cases hpc : s.hub h with
  | popped e =>
    simp only [State.hubStep, hpc] at ht
    cases ht
    exact ⟨_, hI.claim hpc⟩
  | claimed f qref => exact ⟨loc, hI.check hpc ht⟩
  | resumed f qref selfQueued =>
    simp only [State.hubStep, hpc] at ht
    cases ht
    have hb : Busy (s.hub h) f (s.fiber f).done := by
      rw [hpc]
      rfl
    have hnew : ∀ g, (HubPc.released f selfQueued).fiber = some g → g = f :=
      fun g hg => (Option.some.inj hg).symm
    cases qref with
    | true =>
      refine ⟨loc, hI.dropQueue (by rw [hpc]; rfl) hnew rfl rfl rfl (fun _ => hb) fun _ hok => ?_⟩
      rw [hpc] at hok
      exact hok
    | false =>
      have hok := (hI.hub h f).pc (fiber_of_busy hb)
      rw [hpc] at hok
      have hown : Inv ((s.setFiber f (s.fiber f)).setHub h (.released f selfQueued)) loc :=
        hI.own hb hnew (by rw [hpc]; rfl) rfl rfl rfl rfl rfl rfl rfl rfl id
          (fun hy => ((hI.fiber f).yielded hy).2.2) hok
      rw [setFiber_self] at hown
      exact ⟨loc, hown⟩
  | released f selfQueued => exact hI.release hpc ho ht
  | oom f qref =>
    simp only [State.hubStep, hpc] at ht
    cases ht
    have hb : Busy (s.hub h) f (s.fiber f).done := by
      rw [hpc]
      rfl
    have hd : (s.fiber f).done = true := by
      have hok := (hI.hub h f).pc (fiber_of_busy hb)
      rw [hpc] at hok
      exact hok
    refine ⟨loc, hI.dropSpawn hb hd (fun g hg => (Option.some.inj hg).symm) ?_ rfl rfl id fun _ => trivial⟩
    rw [hpc]
    cases qref <;> rfl
  | skip f qref =>
    simp only [State.hubStep, hpc] at ht
    cases ht
    cases qref with
    | true => exact ⟨loc, hI.dropQueue (by rw [hpc]; rfl) nofun rfl rfl rfl (fun hb => hb.elim) nofun⟩
    | false => exact ⟨loc, hI.leave (by rw [hpc]; rfl) nofun (by rw [hpc]; rfl) rfl rfl id trivial⟩
  | idle | route c | running f qref =>
    simp only [State.hubStep, hpc] at ht
    cases ht

/-! ## Steps of the fiber -/

omit [DecidableEq F] [DecidableEq H] [DecidableEq W] in
theorem running_of_runs (hr : s.runs h = some (f, qref)) : s.hub h = .running f qref := by
  unfold State.runs at hr
  split at hr <;> cases hr
  next hpc => exact hpc

theorem Inv.stop (hI : Inv s loc) {selfQueued : Bool} {x : Fiber} (hpc : s.hub h = .running f qref)
    (hrc : x.refcount = (s.fiber f).refcount) (hfree : x.free = (s.fiber f).free)
    (hinc : x.inc = (s.fiber f).inc) (hs : x.spawnRef = (s.fiber f).spawnRef)
    (hq : x.inSubQueue = (s.fiber f).inSubQueue) (hy : x.yielded = (s.fiber f).yielded) :
    Inv ((s.setFiber f x).setHub h (.resumed f qref selfQueued)) loc := by
  have hb : Busy (s.hub h) f (s.fiber f).done := by
    rw [hpc]
    rfl
  have hok := (hI.hub h f).pc (fiber_of_busy hb)
  rw [hpc] at hok
  obtain ⟨hd, hyield⟩ := hok
  refine hI.own hb (fun g hg => (Option.some.inj hg).symm) ?_ rfl rfl hrc hfree hinc hs hq hy ?_ ?_ ?_
  · rw [hpc]
    cases qref <;> rfl
  · intro hdone
    rw [hd] at hdone
    cases hdone
  · intro hyx
    rw [hy, hyield] at hyx
    cases hyx
  · exact fun _ => hy.trans hyield

theorem Inv.yield (hI : Inv s loc) (hpc : s.hub h = .running f qref) (hq : (s.fiber f).inSubQueue = false) :
    Inv (((s.setFiber f { s.fiber f with snapValid := true }).selfPush h f).setHub h (.resumed f qref true))
      (Function.update loc (s.entry f) (some (.ready h))) := by
  have hb : Busy (s.hub h) f (s.fiber f).done := by
    rw [hpc]
    rfl
  have hok := (hI.hub h f).pc (fiber_of_busy hb)
  rw [hpc] at hok
  have hself : (s.setFiber f { s.fiber f with snapValid := true }).fiber f =
      { s.fiber f with snapValid := true } := Function.update_self ..
  have hfib : (((s.setFiber f { s.fiber f with snapValid := true }).selfPush h f)).fiber =
      Function.update s.fiber f { s.fiber f with snapValid := true, yielded := true } := by
    simp only [State.selfPush, State.setFiber, State.pushReady, Function.update_self, Function.update_idem]
  refine hI.selfPush hb hok.1 hq hok.2 hfib rfl rfl ?_ (fun g hg => (Option.some.inj hg).symm) ?_
    rfl rfl fun _ hs => by cases hs
  · rw [State.selfPush, entries_setFiber, State.pushReady, entries_ready, entries_setFiber]
    simp only [State.entry, hself]
    rfl
  · rw [hpc]
    cases qref <;> rfl

/-! ## Every step -/

theorem Inv.step {a : Action F H W} (hI : Inv s loc) (ho : Orderly s a)
    (ht : step s a = some t) : ∃ loc', Inv t loc' := by
  cases a with
  | spawn w f h eager =>
    simp only [HubQueue.step] at ht
    split at ht <;> cases ht
    next hw =>
      have hidle : (s.setFiber f ((s.fiber f).spawned eager)).waker w = .idle := hw.1
      exact ⟨loc, (hI.spawned hw.2 eager).setWaker (by rw [hidle]; rfl) (fun _ => by rw [hidle]; rfl)⟩
  | wake w f h =>
    simp only [HubQueue.step] at ht
    split at ht <;> cases ht
    next hw => exact ⟨loc, hI.setWaker (by rw [hw]; rfl) (fun _ => by rw [hw]; rfl)⟩
  | waker w => exact hI.wakerStep ho ht
  | detach h =>
    simp only [HubQueue.step] at ht
    split at ht <;> cases ht
    next hpc => exact ⟨_, hI.detach hpc⟩
  | route h full => exact hI.routeStep ht
  | popReady h =>
    simp only [HubQueue.step] at ht
    split at ht <;> cases ht
    next e rest hpc hl =>
      refine ⟨_, hI.pop (u := { s with ready := _ }) (p := .ready h) hpc rfl rfl rfl (by simp) ?_ (entries_ready _) fun h' hn => hn.symm⟩
      show (s.ready h).Perm _
      rw [hl]
  | popDeque h =>
    simp only [HubQueue.step] at ht
    split at ht <;> cases ht
    next e hpc hl =>
      refine ⟨_, hI.pop (u := { s with deque := _ }) (p := .deque h) hpc rfl rfl rfl (by simp) ?_ (entries_deque _) fun _ hn => hn.elim⟩
      show (s.deque h).Perm _
      obtain ⟨l, hl'⟩ := List.getLast?_eq_some_iff.mp hl
      rw [hl', List.dropLast_concat]
      exact List.perm_append_singleton e l
  | steal h victim =>
    simp only [HubQueue.step] at ht
    split at ht <;> cases ht
    next e rest hpc hl =>
      refine ⟨_, hI.pop (u := { s with deque := _ }) (p := .deque victim) hpc rfl rfl rfl (by simp) ?_ (entries_deque _) fun _ hn => hn.elim⟩
      show (s.deque victim).Perm _
      rw [hl]
  | hub h oom => exact hI.hubStep ho ht
  | yield h =>
    obtain ⟨⟨f, qref⟩, hr, rfl⟩ := Option.map_eq_some_iff.mp ht
    exact ⟨_, hI.yield (running_of_runs hr) (ho _ hr)⟩
  | park h | finish h =>
    obtain ⟨⟨f, qref⟩, hr, rfl⟩ := Option.map_eq_some_iff.mp ht
    exact ⟨loc, hI.stop (running_of_runs hr) rfl rfl rfl rfl rfl rfl⟩
  | rawYield h =>
    obtain ⟨⟨f, qref⟩, hr, rfl⟩ := Option.map_eq_some_iff.mp ht
    have hstop : Inv ((s.setFiber f (s.fiber f)).setHub h (.resumed f qref false)) loc :=
      hI.stop (running_of_runs hr) rfl rfl rfl rfl rfl rfl
    rw [setFiber_self] at hstop
    exact ⟨loc, hstop⟩

omit [DecidableEq F] [DecidableEq H] [DecidableEq W] in
theorem init_hub_ok {pc : HubPc F} {x : Fiber} {l : Option (Place H W)} (hpc : pc = .idle) :
    HubOk h pc f x l := by
  subst hpc
  exact ⟨fun hb => hb.elim, fun hb => hb.elim, nofun⟩

theorem Inv.init (hi : Init s) : Inv s fun _ => none := by
  refine ⟨fun f => ?_, fun f => ?_, fun p e => ?_, nofun, fun h f => init_hub_ok (hi.hub h), fun h h' f hb => ?_⟩
  · rw [hi.refcount]
    refine counted_zero fun y hy => ?_
    cases y with
    | spawn => exact Bool.noConfusion ((hi.spawnRef f).symm.trans hy)
    | queue => exact Bool.noConfusion ((hi.inSubQueue f).symm.trans hy)
    | hub h =>
      have hy : (s.hub h).ref = some f := hy
      rw [hi.hub] at hy
      cases hy
    | waker w =>
      have hy : (s.waker w).ref = some f := hy
      rw [hi.waker] at hy
      cases hy
  · refine ⟨iff_of_true (hi.free f) (hi.refcount f), fun hf => ?_, fun hy => ?_⟩
    · rw [hi.free] at hf
      cases hf
    · rw [hi.yielded] at hy
      cases hy
  · have hnil : s.entries p = [] := by
      cases p with
      | sub h => exact hi.sub h
      | ready h => exact hi.ready h
      | deque h => exact hi.deque h
      | route h =>
        show (s.hub h).chain = []
        rw [hi.hub]
        rfl
      | popped h =>
        show (s.hub h).entry = []
        rw [hi.hub]
        rfl
      | push w h =>
        show (s.waker w).entry h = []
        rw [hi.waker]
        rfl
    rw [hnil]
    rfl
  · rw [hi.hub] at hb
    exact hb.elim

theorem exists_inv_of_reachableWith (hr : hubQueue.ReachableWith Orderly s) : ∃ loc, Inv s loc :=
  hr.invariant (P := fun s => ∃ loc, Inv s loc) (fun _ hi => ⟨_, .init hi⟩)
    fun _ _ _ ⟨_, hI⟩ ho ht => hI.step ho ht

/-! ## Entries and fibers -/

/-- If no fiber gets a second entry, every entry is of its incarnation and has a reference, and no two hubs run one
fiber. -/
theorem entries_alive (hr : (hubQueue (F := F) (H := H) (W := W)).ReachableWith Orderly s) :
    (∀ p, ∀ e ∈ s.entries p, 1 ≤ (s.fiber e.fiber).refcount ∧ (s.fiber e.fiber).inc = e.inc ∧
      ((s.fiber e.fiber).done = true → (s.fiber e.fiber).inSubQueue = true)) ∧
    (∀ p q, ∀ e ∈ s.entries p, ∀ e' ∈ s.entries q, e.fiber = e'.fiber →
      p = q ∧ e = e' ∧ (s.entries p).count e = 1) ∧
    ∀ h f qref, s.hub h = .running f qref → (s.fiber f).done = false ∧ 1 ≤ (s.fiber f).refcount ∧
      ∀ h' qref', s.hub h' = .running f qref' → h' = h := by
  obtain ⟨loc, hI⟩ := exists_inv_of_reachableWith hr
  refine ⟨fun p e he => ?_, fun p q e he e' he' hf => ?_, fun h f qref hpc => ?_⟩
  · have hloc := hI.placed.mem_iff.mp he
    obtain ⟨hinc, hq⟩ := hI.queued e p hloc
    refine ⟨hI.pos_of_loc hloc, hinc.symm, fun hd => hq.resolve_right fun hy => ?_⟩
    have := ((hI.fiber e.fiber).yielded hy).2.2
    rw [hd] at this
    cases this
  · have hloc := hI.placed.mem_iff.mp he
    have hloc' := hI.placed.mem_iff.mp he'
    have hee : e = e' := by
      have hinc := (hI.queued e p hloc).1
      have hinc' := (hI.queued e' q hloc').1
      rw [← hf, ← hinc] at hinc'
      cases e
      cases e'
      cases hf
      cases hinc'
      rfl
    subst hee
    rw [hloc] at hloc'
    refine ⟨Option.some.inj hloc', rfl, ?_⟩
    rw [hI.placed p e, if_pos hloc]
  · have hb : Busy (s.hub h) f (s.fiber f).done := by
      rw [hpc]
      rfl
    have hok := (hI.hub h f).pc (fiber_of_busy hb)
    rw [hpc] at hok
    refine ⟨hok.1, (hI.refs f).pos (show Holds _ s.hub s.waker _ .spawn from (hI.hub h f).spawned hb), ?_⟩
    intro h' qref' hpc'
    refine hI.unique h' h f ?_ hb
    rw [hpc']
    rfl

instance (f : F) (done : Bool) : ∀ pc : HubPc F, Decidable (Busy pc f done)
  | .claimed g _ => inferInstanceAs (Decidable (g = f ∧ done = false))
  | .running g _ => inferInstanceAs (Decidable (g = f))
  | .resumed g _ _ => inferInstanceAs (Decidable (g = f))
  | .released g _ => inferInstanceAs (Decidable (g = f))
  | .oom g _ => inferInstanceAs (Decidable (g = f))
  | .idle | .route _ | .popped _ | .skip _ _ => .isFalse id

instance [Fintype H] (s : State F H W) : ∀ a, Decidable (Orderly s a)
  | .waker w =>
    match hw : s.waker w with
    | .flag h f =>
      decidable_of_iff ((s.fiber f).inSubQueue = false → (s.fiber f).yielded = false ∧
        ∀ h', Busy (s.hub h') f (s.fiber f).done → (s.fiber f).done = false → h' = h)
        (by simp only [Orderly, hw])
    | .idle | .load _ _ | .cas _ _ _ | .drop _ | .push _ _ => .isTrue (by simp only [Orderly, hw])
  | .yield h => inferInstanceAs (Decidable (∀ x ∈ s.runs h, (s.fiber x.1).inSubQueue = false))
  | .hub h _ =>
    match hh : s.hub h with
    | .released f false =>
      decidable_of_iff ((s.fiber f).done = false → (s.fiber f).inSubQueue = false) (by simp only [Orderly, hh])
    | .released _ true | .idle | .route _ | .popped _ | .claimed _ _ | .running _ _ | .resumed _ _ _
    | .oom _ _ | .skip _ _ => .isTrue (by simp only [Orderly, hh])
  | .spawn .. | .wake .. | .detach _ | .route .. | .popReady _ | .popDeque _ | .steal .. | .park _
  | .rawYield _ | .finish _ => .isTrue trivial

def State.start : State Unit Unit Bool where
  fiber _ := { refcount := 0, inSubQueue := false, done := false, snapValid := false, coro := false,
               free := true, inc := 0, spawnRef := false, yielded := false }
  sub _ := []
  ready _ := []
  deque _ := []
  hub _ := .idle
  waker _ := .idle

theorem init_start : Init State.start :=
  ⟨fun _ => rfl, fun _ => rfl, fun _ => rfl, fun _ => rfl, fun _ => rfl, fun _ => rfl, fun _ => rfl,
    fun _ => rfl, fun _ => rfl, fun _ => rfl⟩

def wokenWhileRunning : List (Action Unit Unit Bool) :=
  [.spawn false () () false, .waker false, .waker false, .waker false, .waker false, .detach (),
    .route () false, .route () false, .popDeque (), .hub () false, .hub () false, .wake true () (),
    .waker true, .waker true, .waker true, .waker true]

/-- The fiber ends; the entry of the wake holds its struct. -/
theorem entries_alive_ended :
    ∃ s : State Unit Unit Bool, hubQueue.ReachableWith Orderly s ∧ s.sub () = [⟨(), 1⟩] ∧
      (s.fiber ()).done = true ∧ 1 ≤ (s.fiber ()).refcount ∧ (s.fiber ()).inSubQueue = true := by
  obtain ⟨s, hs, hsub, hdone⟩ := hubQueue.reachesWith Orderly
    (fun s : State Unit Unit Bool => s.sub () = [⟨(), 1⟩] ∧ (s.fiber ()).done = true)
    (wokenWhileRunning ++ [Action.finish (), .hub () false, .hub () false]) init_start (by decide +kernel)
  have hmem : ⟨(), 1⟩ ∈ s.entries (.sub ()) := by
    show ⟨(), 1⟩ ∈ s.sub ()
    rw [hsub]
    exact List.mem_singleton_self _
  obtain ⟨hpos, -, hflag⟩ := (entries_alive hs).1 (.sub ()) _ hmem
  exact ⟨s, hs, hsub, hdone, hpos, hflag hdone⟩

/-- A wake of a running fiber leaves an entry of a fiber that has ended, or one without a reference. -/
theorem stale_wake_breaks_entries :
    (∃ s : State Unit Unit Bool, hubQueue.Reachable s ∧ ⟨(), 1⟩ ∈ s.sub () ∧ (s.fiber ()).inc = 1 ∧
      (s.fiber ()).done = true) ∧
    (∃ s : State Unit Unit Bool, hubQueue.Reachable s ∧ s.ready () = [⟨(), 1⟩, ⟨(), 1⟩]) ∧
    ∃ s : State Unit Unit Bool, hubQueue.Reachable s ∧ ⟨(), 1⟩ ∈ s.ready () ∧
      (s.fiber ()).refcount = 0 ∧ (s.fiber ()).free = true := by
  refine ⟨?_, ?_, ?_⟩
  · exact hubQueue.reaches (fun s : State Unit Unit Bool => ⟨(), 1⟩ ∈ s.sub () ∧ (s.fiber ()).inc = 1 ∧
        (s.fiber ()).done = true)
      (wokenWhileRunning ++ [Action.finish (), .hub () false, .hub () false]) init_start (by decide +kernel)
  · exact hubQueue.reaches (fun s : State Unit Unit Bool => s.ready () = [⟨(), 1⟩, ⟨(), 1⟩])
      (wokenWhileRunning ++ [Action.yield (), .hub () false, .hub () false, .detach (), .route () false])
      init_start (by decide +kernel)
  · exact hubQueue.reaches (fun s : State Unit Unit Bool => ⟨(), 1⟩ ∈ s.ready () ∧ (s.fiber ()).refcount = 0 ∧
        (s.fiber ()).free = true)
      (wokenWhileRunning ++ [Action.yield (), .hub () false, .hub () false, .detach (), .route () false,
        .route () false, .popReady (), .hub () false, .hub () false, .finish (), .hub () false,
        .hub () false])
      init_start (by decide +kernel)

end Runloom.HubQueue
