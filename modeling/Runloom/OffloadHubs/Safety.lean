import Runloom.OffloadHubs.Model

/-!
# Which fibers an offload hub gets

`runloom_mn_fiber_core`, the steal rotation and the hub-pinned wakes agree on one boundary, so a fiber stays on its
side of it wherever it goes.  Two paths do not look at the boundary: the arena path of `runloom_mn_fiber_n` deals its
fibers out over every hub, and any hub takes the head of the global run queue.
-/

namespace Runloom.OffloadHubs

open Transition State List

variable {cfg : Config}

def Kind.allowed (cfg : Config) : Kind → ℕ → Prop
  | .general, h => h < cfg.hubs - cfg.offload
  | .offload, h => cfg.hubs - cfg.offload ≤ h ∧ h < cfg.hubs

instance : (k : Kind) → (h : ℕ) → Decidable (k.allowed cfg h)
  | .general, _ => inferInstanceAs (Decidable (_ < _))
  | .offload, _ => inferInstanceAs (Decidable (_ ∧ _))

def Hub.Holds (b : Hub) (g : Fiber) : Prop :=
  g ∈ b.sub ∨ g ∈ b.draining ∨ g ∈ b.ready ∨ g ∈ b.deque ∨ g ∈ b.sleepers ∨ b.running = some g

instance (b : Hub) (g : Fiber) : Decidable (b.Holds g) :=
  inferInstanceAs (Decidable (_ ∨ _))

/-! ## The boundary -/

theorem generalHubCount_eq : generalHubCount cfg = cfg.hubs - cfg.offload := by
  have hlt := cfg.offload_lt
  unfold generalHubCount
  rw [if_pos (by omega)]

theorem generalHubCount_pos : 0 < generalHubCount cfg := by
  have hlt := cfg.offload_lt
  rw [generalHubCount_eq]
  omega

theorem hubIsOffload_iff (h : ℕ) : hubIsOffload cfg h = true ↔ cfg.hubs - cfg.offload ≤ h := by
  have hpos := cfg.offload_pos
  unfold hubIsOffload
  rw [generalHubCount_eq, Bool.and_eq_true, decide_eq_true_eq, decide_eq_true_eq]
  exact and_iff_right hpos

theorem placeGeneral_lt (pyIndex : Option ℕ) (n rand : ℕ) :
    placeGeneral cfg pyIndex n rand < cfg.hubs - cfg.offload := by
  rw [← generalHubCount_eq]
  unfold placeGeneral
  split_ifs
  · exact Nat.mod_lt _ generalHubCount_pos
  · exact Nat.mod_lt _ generalHubCount_pos
  · exact Nat.mod_lt _ generalHubCount_pos

theorem hubIdx_none_allowed (pyIndex : Option ℕ) (n rand : ℕ) :
    Kind.general.allowed cfg (hubIdx cfg none pyIndex n rand) :=
  placeGeneral_lt pyIndex n rand

theorem hubIdx_offloadHub_allowed (slot n rand : ℕ) (pyIndex : Option ℕ) :
    Kind.offload.allowed cfg (hubIdx cfg (some (offloadHub cfg slot)) pyIndex n rand) := by
  have hmod := Nat.mod_lt slot cfg.offload_pos
  have hlt := cfg.offload_lt
  have hhub : offloadHub cfg slot = cfg.hubs - cfg.offload + slot % cfg.offload := by
    unfold offloadHub
    rw [generalHubCount_eq]
  simp only [hubIdx]
  rw [if_pos (by omega), hhub]
  exact ⟨by omega, by omega⟩

/-- How many fibers the arena path can deal out before it reaches an offload hub. -/
def bulkRoom (cfg : Config) : ℕ :=
  if cfg.pairAffinity then 2 * (cfg.hubs - cfg.offload) else cfg.hubs - cfg.offload

theorem bulkHub_lt_of_lt_bulkRoom {i : ℕ} (hi : i < bulkRoom cfg) : bulkHub cfg i < cfg.hubs - cfg.offload := by
  have hlt := cfg.offload_lt
  unfold bulkRoom at hi
  unfold bulkHub
  split_ifs at hi ⊢
  · rw [Nat.mod_eq_of_lt (by omega)]
    omega
  · rw [Nat.mod_eq_of_lt (by omega)]
    exact hi

theorem bulkHub_bulkRoom : bulkHub cfg (bulkRoom cfg) = cfg.hubs - cfg.offload := by
  have hpos := cfg.offload_pos
  have hlt := cfg.offload_lt
  unfold bulkHub bulkRoom
  split_ifs
  · rw [Nat.mul_div_cancel_left _ (by decide), Nat.mod_eq_of_lt (by omega)]
  · exact Nat.mod_eq_of_lt (by omega)

theorem forall_bulkHub_lt_iff (n : ℕ) : (∀ i < n, bulkHub cfg i < cfg.hubs - cfg.offload) ↔ n ≤ bulkRoom cfg := by
  constructor
  · intro h
    by_contra hn
    have hroom := h (bulkRoom cfg) (by omega)
    rw [bulkHub_bulkRoom] at hroom
    omega
  · intro hn i hi
    exact bulkHub_lt_of_lt_bulkRoom (by omega)

/-! ## The invariant -/

structure Inv (cfg : Config) (s : State) : Prop where
  hub : ∀ h g, (s.hub h).Holds g → g.kind.allowed cfg h
  splices : ∀ p ∈ s.splices, ∀ g ∈ p.2, g.kind.allowed cfg p.1
  waiters : ∀ p ∈ s.waiters, p.1.kind.allowed cfg p.2

variable {s u : State} {h : ℕ} {b : Hub} {g : Fiber}

theorem Inv.of_init : Inv cfg init where
  hub := by
    intro h g hg
    simp [init, Hub.empty, Hub.Holds] at hg
  splices := by
    intro p hp
    exact absurd hp not_mem_nil
  waiters := by
    intro p hp
    exact absurd hp not_mem_nil

section

variable (hI : Inv cfg s)
include hI

theorem Inv.congr (hhub : u.hub = s.hub) (hsp : u.splices = s.splices)
    (hw : u.waiters = s.waiters) : Inv cfg u where
  hub := by
    rw [hhub]
    exact hI.hub
  splices := by
    rw [hsp]
    exact hI.splices
  waiters := by
    rw [hw]
    exact hI.waiters

theorem Inv.setHub (hb : ∀ g, b.Holds g → g.kind.allowed cfg h) : Inv cfg (s.setHub h b) where
  hub := by
    intro k g hg
    by_cases hk : k = h
    · subst hk
      simp only [State.setHub, Function.update_self] at hg
      exact hb g hg
    · simp only [State.setHub, Function.update_of_ne hk] at hg
      exact hI.hub k g hg
  splices := hI.splices
  waiters := hI.waiters

theorem Inv.submit (hg : g.kind.allowed cfg h) : Inv cfg (s.submit h g) := by
  refine (hI.setHub (h := h) (b := { s.hub h with sub := (s.hub h).sub ++ [g] }) ?_).congr rfl rfl rfl
  intro k hk
  simp only [Hub.Holds, mem_append, mem_singleton] at hk
  rcases hk with (hk | rfl) | hk
  · exact hI.hub h k (.inl hk)
  · exact hg
  · exact hI.hub h k (.inr hk)

theorem Inv.fiberCore {kind : Kind} {forceHub pyIndex : Option ℕ} {rand : ℕ}
    (hk : kind.allowed cfg (hubIdx cfg forceHub pyIndex s.spawnCounter rand)) :
    Inv cfg (s.fiberCore cfg kind forceHub pyIndex rand) := by
  unfold State.fiberCore
  apply Inv.submit _ hk
  exact hI.congr rfl rfl rfl

theorem Inv.resume (hb : ∀ k, b.Holds k → (s.hub h).Holds k)
    (hg : g.kind.allowed cfg h) : Inv cfg (s.resume h b g) := by
  refine (hI.setHub (h := h) (b := { b with running := some g }) ?_).congr rfl rfl rfl
  intro k hk
  simp only [Hub.Holds, Option.some.injEq] at hk
  rcases hk with hk | hk | hk | hk | hk | rfl
  · exact hI.hub h k (hb k (.inl hk))
  · exact hI.hub h k (hb k (.inr (.inl hk)))
  · exact hI.hub h k (hb k (.inr (.inr (.inl hk))))
  · exact hI.hub h k (hb k (.inr (.inr (.inr (.inl hk)))))
  · exact hI.hub h k (hb k (.inr (.inr (.inr (.inr (.inl hk))))))
  · exact hg

theorem Inv.rearrange (hb : ∀ k, b.Holds k → (s.hub h).Holds k) : Inv cfg (s.setHub h b) :=
  hI.setHub fun k hk => hI.hub h k (hb k hk)

theorem Inv.setWake (w : WakeState) : Inv cfg (s.setWake g w) :=
  hI.congr rfl rfl rfl

theorem Inv.pushRunq : Inv cfg (s.pushRunq g) :=
  hI.congr rfl rfl rfl

theorem Inv.suspend (hb : ∀ k, b.Holds k → (s.hub h).Holds k) : Inv cfg (s.suspend cfg h b g) := by
  refine (hI.setHub (h := h) (b := { b with running := none }) ?_).congr rfl rfl rfl
  intro k hk
  apply hI.hub h k
  apply hb k
  simp only [Hub.Holds, reduceCtorEq, or_false] at hk ⊢
  grind

theorem Inv.release : Inv cfg (s.release cfg g) := by
  unfold State.release
  split
  · split
    · exact (hI.setWake _).pushRunq
    · exact hI.setWake _
  · exact hI

theorem Inv.wakeG (hg : g.kind.allowed cfg h) : Inv cfg (s.wakeG cfg g h) := by
  unfold State.wakeG
  split
  · split
    · exact (hI.setWake _).pushRunq
    · exact hI.setWake _
    · exact hI
  · split
    · exact hI
    · exact hI.submit hg

end

/-! ## Moves inside one hub -/

theorem Inv.fireTimer (hI : Inv cfg s) {rest : List Fiber} {claimed : Bool}
    (hs : (s.hub h).sleepers = g :: rest) : Inv cfg (s.fireTimer cfg h g rest claimed) := by
  have hdrop : Inv cfg (s.setHub h { s.hub h with sleepers := rest }) := by
    apply hI.rearrange
    intro k hk
    simp only [Hub.Holds, hs, mem_cons] at hk ⊢
    grind
  have hmove : Inv cfg (s.setHub h { s.hub h with
      sleepers := rest, ready := (s.hub h).ready ++ [g] }) := by
    apply hI.rearrange
    intro k hk
    simp only [Hub.Holds, hs, mem_cons, mem_append, not_mem_nil, or_false] at hk ⊢
    grind
  unfold State.fireTimer
  split
  · exact hdrop
  · split
    · split
      · exact hmove.setWake _
      · exact hdrop
    · exact hmove

theorem Inv.routeTo (hI : Inv cfg s) {rest : List Fiber} {dequeFull : Bool}
    (hs : (s.hub h).draining = g :: rest) : Inv cfg (s.routeTo h g rest dequeFull) := by
  unfold State.routeTo
  split
  · apply hI.rearrange
    intro k hk
    simp only [Hub.Holds, hs, mem_cons, mem_append, not_mem_nil, or_false] at hk ⊢
    grind
  · apply hI.rearrange
    intro k hk
    simp only [Hub.Holds, hs, mem_cons, mem_append, not_mem_nil, or_false] at hk ⊢
    grind

theorem Hub.holds_running (hb : b.running = some g) : b.Holds g :=
  .inr (.inr (.inr (.inr (.inr hb))))

/-! ## The steps -/

/-- An arena spawn is small enough to stay on the general hubs, and the head of the global run queue is of the kind
that the pulling hub serves. -/
def Respects (cfg : Config) (s : State) : Action → Prop
  | .fiberN n _ arena => cfg.bulk = true → cfg.hubs ≤ 64 → arena = true → n ≤ bulkRoom cfg
  | .pull h => ∀ g ∈ s.runq.head?, g.kind = .offload ↔ hubIsOffload cfg h = true
  | _ => True

instance (s : State) (a : Action) : Decidable (Respects cfg s a) := by
  unfold Respects
  split <;> infer_instance

theorem Inv.fiberN (hI : Inv cfg s) {n : ℕ} {indexed arena : Bool}
    (hC : Respects cfg s (.fiberN n indexed arena)) : Inv cfg (s.fiberN cfg n indexed arena) := by
  unfold State.fiberN
  split
  · rename_i hbulk
    unfold State.fiberNBulk
    split
    · exact hI
    · rename_i h64
      split
      · rename_i harena
        have hn : n ≤ bulkRoom cfg := hC hbulk.2 (by omega) harena
        refine ⟨hI.hub, ?_, hI.waiters⟩
        intro p hp k hk
        rcases mem_append.mp hp with hp | hp
        · exact hI.splices p hp k hk
        -- a list of this call: each of its fibers was dealt to the list's hub
        rcases mem_map.mp hp with ⟨h, -, rfl⟩
        simp only [bulkList, mem_map, mem_filter, mem_range, decide_eq_true_eq] at hk
        rcases hk with ⟨i, ⟨hi, rfl⟩, rfl⟩
        exact bulkHub_lt_of_lt_bulkRoom (by omega)
      · exact hI.congr rfl rfl rfl
  · exact hI.congr rfl rfl rfl

theorem Kind.allowed_of_pull {k : Kind} (hh : h < cfg.hubs)
    (hk : k = .offload ↔ hubIsOffload cfg h = true) : k.allowed cfg h := by
  rw [hubIsOffload_iff] at hk
  cases k with
  | general =>
    have hnot : ¬cfg.hubs - cfg.offload ≤ h := fun hle => nomatch hk.mpr hle
    exact Nat.not_le.mp hnot
  | offload => exact ⟨hk.mp rfl, hh⟩

theorem Kind.allowed_of_steal {k : Kind} {victim : ℕ} (hvict : victim < generalHubCount cfg)
    (hh : hubIsOffload cfg h = false) (hk : k.allowed cfg victim) : k.allowed cfg h := by
  rw [generalHubCount_eq] at hvict
  have hgen : h < cfg.hubs - cfg.offload := by
    by_contra hle
    rw [(hubIsOffload_iff h).mpr (by omega)] at hh
    exact absurd hh (by decide)
  cases k with
  | general => exact hgen
  | offload =>
    have hge : cfg.hubs - cfg.offload ≤ victim := hk.1
    omega

theorem Inv.step (hI : Inv cfg s) {a : Action} (hC : Respects cfg s a)
    (ha : OffloadHubs.step cfg s a = some u) : Inv cfg u := by
  cases a with
  | fiber rand =>
    cases ha
    exact hI.fiberCore (hubIdx_none_allowed _ _ _)
  | offloadFiber rand =>
    cases ha
    apply Inv.fiberCore _ (hubIdx_offloadHub_allowed _ _ _ _)
    exact hI.congr rfl rfl rfl
  | fiberN n indexed arena =>
    cases ha
    exact hI.fiberN hC
  | loopNext k rand =>
    simp only [OffloadHubs.step] at ha
    split at ha
    · split at ha <;> cases ha
      apply Inv.fiberCore _ (hubIdx_none_allowed _ _ _)
      exact hI.congr rfl rfl rfl
    · cases ha
  | splice k =>
    simp only [OffloadHubs.step] at ha
    split at ha
    · rename_i h gs hk
      cases ha
      have hmem := mem_of_getElem? hk
      refine ⟨?_, ?_, hI.waiters⟩
      · apply (hI.setHub ?_).hub
        intro k hk
        simp only [Hub.Holds, mem_append] at hk
        rcases hk with (hk | hk) | hk
        · exact hI.hub h k (.inl hk)
        · exact hI.splices _ hmem k hk
        · exact hI.hub h k (.inr hk)
      · intro p hp
        exact hI.splices p (mem_of_mem_eraseIdx hp)
    · cases ha
  | detachSub h =>
    simp only [OffloadHubs.step] at ha
    split at ha <;> cases ha
    apply hI.rearrange
    intro k hk
    simp only [Hub.Holds, not_mem_nil, false_or] at hk ⊢
    grind
  | route h dequeFull =>
    simp only [OffloadHubs.step] at ha
    split at ha
    · rename_i g rest hs
      cases ha
      exact hI.routeTo hs
    · cases ha
  | timer h claimed =>
    simp only [OffloadHubs.step] at ha
    split at ha
    · rename_i g rest hs
      split at ha <;> cases ha
      exact hI.fireTimer hs
    · cases ha
  | popReady h =>
    simp only [OffloadHubs.step] at ha
    split at ha
    · rename_i g rest hs
      split at ha <;> cases ha
      apply hI.resume
      · intro k hk
        simp only [Hub.Holds, hs, mem_cons] at hk ⊢
        grind
      · apply hI.hub
        simp [Hub.Holds, hs]
    · cases ha
  | popDeque h =>
    simp only [OffloadHubs.step] at ha
    split at ha
    · rename_i g hs
      split at ha <;> cases ha
      apply hI.resume
      · intro k hk
        have hdrop : k ∈ (s.hub h).deque.dropLast → k ∈ (s.hub h).deque :=
          fun hk => dropLast_subset _ hk
        simp only [Hub.Holds] at hk ⊢
        grind
      · exact hI.hub h g (.inr (.inr (.inr (.inl (mem_of_getLast? hs)))))
    · cases ha
  | pull h =>
    simp only [OffloadHubs.step] at ha
    split at ha
    · rename_i hidle
      split at ha
      · rename_i g rest hs
        cases ha
        have hkind : g.kind.allowed cfg h :=
          Kind.allowed_of_pull hidle.1.1 (hC g (by rw [hs]; rfl))
        apply Inv.resume _ (fun k hk => hk) hkind
        exact hI.congr rfl rfl rfl
      · cases ha
    · cases ha
  | steal h victim =>
    simp only [OffloadHubs.step] at ha
    split at ha
    · rename_i hguard
      obtain ⟨-, -, -, -, hown, -, hvict, hne⟩ := hguard
      split at ha
      · rename_i g rest hs
        cases ha
        have hg : g.kind.allowed cfg victim := by
          apply hI.hub
          simp [Hub.Holds, hs]
        apply Inv.resume _ _ (Kind.allowed_of_steal hvict hown hg)
        · apply hI.rearrange
          intro k hk
          simp only [Hub.Holds, hs, mem_cons] at hk ⊢
          grind
        · intro k hk
          show (Function.update s.hub victim _ h).Holds k
          rw [Function.update_of_ne (Ne.symm hne)]
          exact hk
      · cases ha
    · cases ha
  | register h =>
    rcases Option.map_eq_some_iff.mp ha with ⟨g, hrun, rfl⟩
    refine ⟨hI.hub, hI.splices, ?_⟩
    intro p hp
    rcases mem_cons.mp hp with rfl | hp
    · exact hI.hub h g (Hub.holds_running hrun)
    · exact hI.waiters p hp
  | sleep h =>
    rcases Option.map_eq_some_iff.mp ha with ⟨g, hrun, rfl⟩
    apply hI.rearrange
    intro k hk
    have hg := Hub.holds_running hrun
    simp only [Hub.Holds, mem_append, mem_singleton] at hk hg ⊢
    rcases hk with hk | hk | hk | hk | (hk | rfl) | hk
    · exact .inl hk
    · exact .inr (.inl hk)
    · exact .inr (.inr (.inl hk))
    · exact .inr (.inr (.inr (.inl hk)))
    · exact .inr (.inr (.inr (.inr (.inl hk))))
    · exact hg
    · exact .inr (.inr (.inr (.inr (.inr hk))))
  | park h =>
    rcases Option.map_eq_some_iff.mp ha with ⟨g, -, rfl⟩
    exact (hI.suspend fun k hk => hk).release
  | yield h =>
    rcases Option.map_eq_some_iff.mp ha with ⟨g, hrun, rfl⟩
    apply hI.suspend
    intro k hk
    have hg := Hub.holds_running hrun
    simp only [Hub.Holds, mem_append, mem_singleton] at hk hg ⊢
    rcases hk with hk | hk | (hk | rfl) | hk
    · exact .inl hk
    · exact .inr (.inl hk)
    · exact .inr (.inr (.inl hk))
    · exact hg
    · exact .inr (.inr (.inr hk))
  | complete h =>
    rcases Option.map_eq_some_iff.mp ha with ⟨g, -, rfl⟩
    apply hI.rearrange
    intro k hk
    simp only [Hub.Holds, reduceCtorEq, or_false] at hk ⊢
    grind
  | wake g h =>
    simp only [OffloadHubs.step] at ha
    split at ha
    · rename_i hmem
      cases ha
      exact hI.wakeG (hI.waiters _ hmem)
    · cases ha

theorem Inv.of_reachable (hs : (hubs cfg).ReachableWith (Respects cfg) s) : Inv cfg s := by
  apply hs.invariant
  · intro s hinit
    cases (hinit : s = init)
    exact Inv.of_init
  · intro s a u hI hC ha
    exact hI.step hC ha

/-! ## Main result -/

/-- Along a run that respects the boundary, each fiber is queued on and run by hubs of its own kind only. -/
theorem offload_hub_exclusion (cfg : Config) (s : State)
    (hs : (hubs cfg).ReachableWith (Respects cfg) s) (h : ℕ) (g : Fiber)
    (hg : (s.hub h).Holds g) :
    (g.kind = .general → h < cfg.hubs - cfg.offload) ∧
      (g.kind = .offload → cfg.hubs - cfg.offload ≤ h ∧ h < cfg.hubs) := by
  have hallowed := (Inv.of_reachable hs).hub h g hg
  constructor
  · intro hk
    rw [hk] at hallowed
    exact hallowed
  · intro hk
    rw [hk] at hallowed
    exact hallowed

def threeHubs (bulk stealWoken : Bool) : Config :=
  ⟨3, 1, by decide, by decide, false, false, bulk, false, stealWoken, false⟩

/-- An arena spawn of two, a steal by hub 0, and an offload spawn that parks. -/
def stealAndOffload : List Action :=
  [.fiberN 2 false true, .splice 1, .detachSub 1, .route 1 false, .steal 0 1, .offloadFiber 0,
    .detachSub 2, .route 2 false, .popDeque 2, .register 2, .park 2, .wake ⟨2, .offload⟩ 2]

theorem offload_hub_exclusion_stealAndOffload :
    ∃ s, (hubs (threeHubs true false)).ReachableWith (Respects (threeHubs true false)) s ∧
      (s.hub 0).Holds ⟨1, .general⟩ ∧ 0 < 3 - 1 ∧ (s.hub 2).Holds ⟨2, .offload⟩ ∧ 3 - 1 ≤ 2 := by
  obtain ⟨s, hs, hp⟩ := (hubs (threeHubs true false)).reachesWith (Respects (threeHubs true false))
    (fun s => (s.hub 0).Holds ⟨1, .general⟩ ∧ (s.hub 2).Holds ⟨2, .offload⟩)
    stealAndOffload rfl (by decide +kernel)
  exact ⟨s, hs, hp.1, (offload_hub_exclusion _ s hs 0 _ hp.1).1 rfl, hp.2,
    ((offload_hub_exclusion _ s hs 2 _ hp.2).2 rfl).1⟩

/-- An arena spawn of three deals its last fiber, a general one, to the offload hub. -/
theorem bulk_spawn_on_offload_hub : ∃ s, (hubs (threeHubs true false)).Reachable s ∧
      ∃ g : Fiber, (s.hub 2).Holds g ∧ g.kind = .general ∧ ¬2 < 3 - 1 := by
  obtain ⟨s, hs, hp⟩ := (hubs (threeHubs true false)).reaches (fun s => (s.hub 2).Holds ⟨2, .general⟩)
    [.fiberN 3 false true, .splice 2] rfl (by decide +kernel)
  exact ⟨s, hs, ⟨2, .general⟩, hp, rfl, by decide⟩

theorem runq_pull_on_offload_hub : ∃ s, (hubs (threeHubs false true)).Reachable s ∧
      ∃ g : Fiber, (s.hub 2).running = some g ∧ g.kind = .general := by
  obtain ⟨s, hs, hp⟩ := (hubs (threeHubs false true)).reaches (fun s => (s.hub 2).running = some ⟨0, .general⟩)
    [.fiber 0, .detachSub 0, .route 0 false, .popDeque 0, .register 0, .park 0,
      .wake ⟨0, .general⟩ 0, .pull 2] rfl (by decide +kernel)
  exact ⟨s, hs, ⟨0, .general⟩, hp, rfl⟩

end Runloom.OffloadHubs
