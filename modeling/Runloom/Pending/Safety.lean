import Mathlib.Algebra.BigOperators.Intervals
import Runloom.Pending.Model
import Runloom.Transition.Update

/-!
# When the pending sum can be trusted

The counters are exact as a whole: their sum is the number of uncompleted fibers plus the steals
caught between their increment and their decrement.  The scan reads them one at a time, so it is
sound as long as no counter grows behind it.
-/

namespace Runloom.Pending

open Transition

variable {n : ℕ} {s t : State n}

def Phase.live : Phase n → ℤ
  | .done => 0
  | _ => 1

def HubPc.overcount : HubPc n → ℤ
  | .bumped _ _ => 1
  | _ => 0

def HubPc.fiber : HubPc n → Option ℕ
  | .idle => none
  | .running f | .spawning f _ _ _ | .stole f _ | .bumped f _ => some f

theorem Phase.live_nonneg (ph : Phase n) : 0 ≤ ph.live := by cases ph <;> simp [live]

theorem HubPc.overcount_nonneg (pc : HubPc n) : 0 ≤ pc.overcount := by cases pc <;> simp [overcount]

/-- A block of fibers that `spawner` has counted and not yet published. -/
def Unpublished (s : State n) (spawner : Option (Fin n)) (first count : ℕ) : Prop :=
  first + count ≤ s.spawned ∧ ∀ g, first ≤ g → g < first + count → s.fiber g = .counted spawner

structure Inv (s : State n) : Prop where
  fresh : ∀ f, s.spawned ≤ f → s.fiber f = .fresh
  inHand : ∀ h f, (s.hub h).fiber = some f → f < s.spawned ∧ s.fiber f = .held h
  hubBlock : ∀ h f first count target,
    s.hub h = .spawning f first count target → Unpublished s (some h) first count
  mainBlock : ∀ first count target, s.main = .spawning first count target → Unpublished s none first count
  sum : ∑ h, s.pending h = ∑ f ∈ Finset.range s.spawned, (s.fiber f).live + ∑ h, (s.hub h).overcount

/-! ## One fiber moves -/

variable {f : ℕ} {ph : Phase n} {h : Fin n}

theorem Inv.move (hI : Inv s) {pc : HubPc n} {p : Fin n → ℤ}
    (hf : f < s.spawned) (hcounted : ∀ o, s.fiber f ≠ .counted o)
    (hother : ∀ h', h' ≠ h → s.fiber f ≠ .held h')
    (hpc : ∀ g, pc.fiber = some g → g = f ∧ ph = .held h)
    (hspawn : ∀ g first count target, pc ≠ .spawning g first count target)
    (hsum : ∑ h', p h' = ∑ h', s.pending h' - (s.fiber f).live + ph.live - (s.hub h).overcount + pc.overcount) :
    Inv { s with
      pending := p
      fiber := update s.fiber f ph
      hub := update s.hub h pc } where
  fresh := by
    intro g hg
    have : g ≠ f := by
      rintro rfl
      exact absurd hg (by simpa using hf)
    simpa only [update_of_ne this] using hI.fresh g hg
  inHand := by
    intro h' g hg
    by_cases hh : h' = h
    · subst hh
      simp only [update_self] at hg
      obtain ⟨rfl, rfl⟩ := hpc g hg
      exact ⟨hf, update_self _ _ _⟩
    · simp only [update_of_ne hh] at hg
      obtain ⟨hlt, hheld⟩ := hI.inHand h' g hg
      have hgf : g ≠ f := by
        rintro rfl
        exact hother h' hh hheld
      exact ⟨hlt, by simpa only [update_of_ne hgf] using hheld⟩
  hubBlock := by
    intro h' g first count target hg
    by_cases hh : h' = h
    · subst hh
      simp only [update_self] at hg
      exact absurd hg (hspawn _ _ _ _)
    · simp only [update_of_ne hh] at hg
      obtain ⟨hle, hblock⟩ := hI.hubBlock h' g first count target hg
      refine ⟨hle, fun g' h1 h2 => ?_⟩
      have hgf : g' ≠ f := by
        rintro rfl
        exact hcounted _ (hblock g' h1 h2)
      simpa only [update_of_ne hgf] using hblock g' h1 h2
  mainBlock := by
    intro first count target hm
    obtain ⟨hle, hblock⟩ := hI.mainBlock first count target hm
    refine ⟨hle, fun g' h1 h2 => ?_⟩
    have hgf : g' ≠ f := by
      rintro rfl
      exact hcounted _ (hblock g' h1 h2)
    simpa only [update_of_ne hgf] using hblock g' h1 h2
  sum := by
    have hs := hI.sum
    simp only [sum_comp_update (Finset.mem_range.mpr hf) Phase.live,
      sum_comp_update (Finset.mem_univ h) HubPc.overcount, hsum]
    omega

theorem sum_pendingAdd (p : Fin n → ℤ) (h : Fin n) (c : ℤ) : ∑ h', pendingAdd p h c h' = ∑ h', p h' + c := by
  rw [pendingAdd, sum_update (Finset.mem_univ h)]
  omega

theorem Inv.wake (hI : Inv s) (hf : s.fiber f = .parked h) (hlive : ph.live = 1) :
    Inv { s with fiber := update s.fiber f ph } := by
  have hlt : f < s.spawned := by
    by_contra hge
    rw [hI.fresh f (by omega)] at hf
    cases hf
  have hne : ∀ g ph', s.fiber g = ph' → ph' ≠ .parked h → g ≠ f := by
    rintro g ph' hg hph rfl
    exact hph (hg.symm.trans hf)
  refine ⟨fun g hg => ?_, fun h' g hg => ?_, fun h' g first count target hg => ?_,
    fun first count target hm => ?_, ?_⟩
  · have hfresh := hI.fresh g hg
    simpa only [update_of_ne (hne g _ hfresh (by simp))] using hfresh
  · obtain ⟨hlt, hheld⟩ := hI.inHand h' g hg
    exact ⟨hlt, by simpa only [update_of_ne (hne g _ hheld (by simp))] using hheld⟩
  · obtain ⟨hle, hblock⟩ := hI.hubBlock h' g first count target hg
    refine ⟨hle, fun g' h1 h2 => ?_⟩
    have hcounted := hblock g' h1 h2
    simpa only [update_of_ne (hne g' _ hcounted (by simp))] using hcounted
  · obtain ⟨hle, hblock⟩ := hI.mainBlock first count target hm
    refine ⟨hle, fun g' h1 h2 => ?_⟩
    have hcounted := hblock g' h1 h2
    simpa only [update_of_ne (hne g' _ hcounted (by simp))] using hcounted
  · have hs := hI.sum
    have hold : (s.fiber f).live = 1 := by rw [hf]; rfl
    simp only [sum_comp_update (Finset.mem_range.mpr hlt) Phase.live, hlive, hold]
    omega

/-! ## Blocks of new fibers -/

variable {first count : ℕ}

theorem setBlock_of_mem {fiber : ℕ → Phase n} {g : ℕ}
    (h1 : first ≤ g) (h2 : g < first + count) : setBlock fiber first count ph g = ph :=
  if_pos ⟨h1, h2⟩

theorem setBlock_of_notMem {fiber : ℕ → Phase n} {g : ℕ}
    (h : ¬(first ≤ g ∧ g < first + count)) : setBlock fiber first count ph g = fiber g :=
  if_neg h

theorem sum_live_countBlock (s : State n) (o : Option (Fin n)) (target : Fin n) (c : ℕ) :
    ∑ f ∈ Finset.range (s.spawned + c), ((countBlock s o target c).fiber f).live =
      ∑ f ∈ Finset.range s.spawned, (s.fiber f).live + c := by
  rw [Finset.sum_range_add]
  congr 1
  · refine Finset.sum_congr rfl fun f hf => ?_
    have hlt := Finset.mem_range.mp hf
    simp only [countBlock]
    rw [setBlock_of_notMem (by omega)]
  · have hone : ∀ j ∈ Finset.range c, ((countBlock s o target c).fiber (s.spawned + j)).live = 1 := by
      intro j hj
      have hlt := Finset.mem_range.mp hj
      simp only [countBlock]
      rw [setBlock_of_mem (by omega) (by omega)]
      rfl
    rw [Finset.sum_congr rfl hone]
    simp

variable {o : Option (Fin n)}

theorem Unpublished.countBlock {o' : Option (Fin n)} {c : ℕ} (h : Unpublished s o first count) (target : Fin n) :
    Unpublished (countBlock s o' target c) o first count := by
  obtain ⟨hle, hblock⟩ := h
  refine ⟨show _ ≤ s.spawned + c by omega, fun g h1 h2 => ?_⟩
  simp only [Pending.countBlock]
  rw [setBlock_of_notMem (by omega)]
  exact hblock g h1 h2

theorem unpublished_countBlock (s : State n) (o : Option (Fin n)) (target : Fin n) (c : ℕ) :
    Unpublished (countBlock s o target c) o s.spawned c :=
  ⟨le_rfl, fun _ h1 h2 => setBlock_of_mem h1 h2⟩

theorem Inv.mainSpawn (hI : Inv s) (target : Fin n) (c : ℕ) :
    Inv { countBlock s none target c with main := .spawning s.spawned c target } := by
  refine ⟨fun f hf => ?_, fun h f hf => ?_, fun h f first count tgt hh => ?_, fun first count tgt hm => ?_, ?_⟩
  · have hge : s.spawned + c ≤ f := hf
    simp only [countBlock]
    rw [setBlock_of_notMem (by omega)]
    exact hI.fresh f (by omega)
  · obtain ⟨hlt, hheld⟩ := hI.inHand h f hf
    refine ⟨show f < s.spawned + c by omega, ?_⟩
    simp only [countBlock]
    rw [setBlock_of_notMem (by omega)]
    exact hheld
  · exact (hI.hubBlock h f first count tgt hh).countBlock target
  · simp only [MainPc.spawning.injEq] at hm
    obtain ⟨rfl, rfl, rfl⟩ := hm
    exact unpublished_countBlock s none target c
  · have hs := hI.sum
    have hlive := sum_live_countBlock s none target c
    simp only [countBlock, sum_pendingAdd] at hlive ⊢
    omega

theorem Inv.spawn (hI : Inv s) (hrun : s.hub h = .running f) (target : Fin n) (c : ℕ) :
    Inv { countBlock s (some h) target c with
      hub := update s.hub h (.spawning f s.spawned c target) } := by
  refine ⟨fun g hg => ?_, fun h' g hg => ?_, fun h' g first count tgt hh => ?_, fun first count tgt hm => ?_, ?_⟩
  · have hge : s.spawned + c ≤ g := hg
    simp only [countBlock]
    rw [setBlock_of_notMem (by omega)]
    exact hI.fresh g (by omega)
  · have hg' : (s.hub h').fiber = some g := by
      by_cases hhh : h' = h
      · subst hhh
        simp only [update_self, HubPc.fiber] at hg
        simpa only [hrun, HubPc.fiber] using hg
      · simpa only [update_of_ne hhh] using hg
    obtain ⟨hlt, hheld⟩ := hI.inHand h' g hg'
    refine ⟨show g < s.spawned + c by omega, ?_⟩
    simp only [countBlock]
    rw [setBlock_of_notMem (by omega)]
    exact hheld
  · by_cases hhh : h' = h
    · subst hhh
      simp only [update_self, HubPc.spawning.injEq] at hh
      obtain ⟨rfl, rfl, rfl, rfl⟩ := hh
      exact unpublished_countBlock s (some h') target c
    · simp only [update_of_ne hhh] at hh
      exact (hI.hubBlock h' g first count tgt hh).countBlock target
  · exact (hI.mainBlock first count tgt hm).countBlock target
  · have hs := hI.sum
    have hlive := sum_live_countBlock s (some h) target c
    have hold : (s.hub h).overcount = 0 := by rw [hrun]; rfl
    have hnew : (HubPc.spawning f s.spawned c target).overcount = 0 := rfl
    simp only [countBlock, sum_pendingAdd] at hlive ⊢
    rw [sum_comp_update (Finset.mem_univ h) HubPc.overcount]
    omega

theorem Unpublished.setBlock_of_ne {g : ℕ} (h : Unpublished s o first count) (hg : s.fiber g ≠ .counted o) :
    setBlock s.fiber first count ph g = s.fiber g :=
  setBlock_of_notMem fun hmem => hg (h.2 g hmem.1 hmem.2)

theorem Unpublished.sum_live {q : Phase n} (h : Unpublished s o first count) (hlive : q.live = 1) :
    ∑ f ∈ Finset.range s.spawned, (setBlock s.fiber first count q f).live =
      ∑ f ∈ Finset.range s.spawned, (s.fiber f).live := by
  refine Finset.sum_congr rfl fun f _ => ?_
  by_cases hf : s.fiber f = .counted o
  · rw [hf]
    simp only [setBlock]
    split
    · exact hlive
    · rw [hf]
  · rw [h.setBlock_of_ne hf]

theorem Unpublished.publish {o' : Option (Fin n)} {first' count' : ℕ}
    {hub : Fin n → HubPc n} {main : MainPc n} (h : Unpublished s o first count)
    (hne : o' ≠ o) (h' : Unpublished s o' first' count') :
    Unpublished { s with fiber := setBlock s.fiber first count ph, hub := hub, main := main }
      o' first' count' := by
  refine ⟨h'.1, fun g h1 h2 => ?_⟩
  have hg := h'.2 g h1 h2
  have hother : s.fiber g ≠ .counted o := by simpa [hg] using hne
  exact (h.setBlock_of_ne hother).trans hg

theorem Inv.mainPublish (hI : Inv s) {target : Fin n} (hm : s.main = .spawning first count target) :
    Inv { s with fiber := setBlock s.fiber first count (.queued target), main := .setup } := by
  have hb := hI.mainBlock first count target hm
  refine ⟨fun f hf => ?_, fun h f hf => ?_, fun h f first' count' tgt hh => ?_,
    fun first count tgt hm' => (by cases hm'), ?_⟩
  · have hfresh := hI.fresh f hf
    exact (hb.setBlock_of_ne (by simp [hfresh])).trans hfresh
  · obtain ⟨hlt, hheld⟩ := hI.inHand h f hf
    exact ⟨hlt, (hb.setBlock_of_ne (by simp [hheld])).trans hheld⟩
  · exact hb.publish (by simp) (hI.hubBlock h f first' count' tgt hh)
  · show _ = ∑ f ∈ Finset.range s.spawned, (setBlock s.fiber first count (.queued target) f).live + _
    rw [hb.sum_live rfl]
    exact hI.sum

theorem Inv.publish (hI : Inv s) {target : Fin n} (hrun : s.hub h = .spawning f first count target) : Inv { s with
      fiber := setBlock s.fiber first count (.queued target)
      hub := update s.hub h (.running f) } := by
  have hb := hI.hubBlock h f first count target hrun
  refine ⟨fun g hg => ?_, fun h' g hg => ?_, fun h' g first' count' tgt hh => ?_,
    fun first' count' tgt hm => ?_, ?_⟩
  · have hfresh := hI.fresh g hg
    exact (hb.setBlock_of_ne (by simp [hfresh])).trans hfresh
  · have hg' : (s.hub h').fiber = some g := by
      by_cases hhh : h' = h
      · subst hhh
        simp only [update_self, HubPc.fiber] at hg
        simpa only [hrun, HubPc.fiber] using hg
      · simpa only [update_of_ne hhh] using hg
    obtain ⟨hlt, hheld⟩ := hI.inHand h' g hg'
    exact ⟨hlt, (hb.setBlock_of_ne (by simp [hheld])).trans hheld⟩
  · by_cases hhh : h' = h
    · subst hhh
      simp only [update_self, reduceCtorEq] at hh
    · simp only [update_of_ne hhh] at hh
      exact hb.publish (by simpa using hhh) (hI.hubBlock h' g first' count' tgt hh)
  · exact hb.publish (by simp) (hI.mainBlock first' count' tgt hm)
  · have hold : (s.hub h).overcount = 0 := by rw [hrun]; rfl
    have hnew : (HubPc.running f : HubPc n).overcount = 0 := rfl
    have hs := hI.sum
    simp only [hb.sum_live (q := .queued target) rfl]
    rw [sum_comp_update (Finset.mem_univ h) HubPc.overcount]
    omega

/-! ## Every step keeps the counters exact -/

theorem Inv.spawned_of_ne_fresh (hI : Inv s) (hf : s.fiber f ≠ .fresh) : f < s.spawned := by
  by_contra hge
  exact hf (hI.fresh f (by omega))

theorem Inv.set_main (hI : Inv s) {m : MainPc n}
    (hm : ∀ first count target, m ≠ .spawning first count target) : Inv { s with main := m } :=
  ⟨hI.fresh, hI.inHand, hI.hubBlock, fun _ _ _ h => absurd h (hm _ _ _), hI.sum⟩

theorem Inv.poll (hI : Inv s) (h : pollStep s = some t) : Inv t := by
  simp only [pollStep] at h
  split at h
  · cases h
    exact hI.set_main (by simp)
  · split at h
    · cases h
      exact hI.set_main (by simp)
    · split at h <;> cases h
      · exact hI.set_main (by simp)
      · exact hI.set_main (by simp)
  · cases h

theorem Inv.release (hI : Inv s) {q : Phase n} {c : HubPc n} {p : Fin n → ℤ} (hrun : (s.hub h).fiber = some f)
    (hpc : ∀ g, c.fiber = some g → g = f ∧ q = .held h)
    (hspawn : ∀ g first count target, c ≠ .spawning g first count target)
    (hsum : ∑ h', p h' = ∑ h', s.pending h' - 1 + q.live - (s.hub h).overcount + c.overcount) :
    Inv { s with
      pending := p
      fiber := update s.fiber f q
      hub := update s.hub h c } := by
  obtain ⟨hlt, hheld⟩ := hI.inHand h f hrun
  refine hI.move hlt (by simp [hheld]) (fun h' hne => ?_) hpc hspawn ?_
  · rw [hheld]
    exact fun hc => hne (Phase.held.inj hc).symm
  · rw [hheld]
    exact hsum

theorem Inv.acquire (hI : Inv s) {pc : HubPc n} (hidle : s.hub h = .idle)
    (hf : (∃ h', s.fiber f = .queued h') ∨ s.fiber f = .runq) (hpc : pc.fiber = some f)
    (hspawn : ∀ g first count target, pc ≠ .spawning g first count target)
    (hover : pc.overcount = 0) :
    Inv { s with
      fiber := update s.fiber f (.held h)
      hub := update s.hub h pc } := by
  have hlive : (s.fiber f).live = 1 := by
    obtain ⟨h', hq⟩ | hq := hf <;> rw [hq] <;> rfl
  have hnot : ∀ ph, (ph = .fresh ∨ (∃ o, ph = .counted o) ∨ ∃ h', ph = .held h') → s.fiber f ≠ ph := by
    rintro ph (rfl | ⟨o, rfl⟩ | ⟨h', rfl⟩) hc <;> simp [hc] at hf
  refine hI.move (hI.spawned_of_ne_fresh (hnot _ (.inl rfl))) (fun o => hnot _ (.inr (.inl ⟨o, rfl⟩)))
    (fun h' _ => hnot _ (.inr (.inr ⟨h', rfl⟩))) (fun g hg => ?_) hspawn ?_
  · exact ⟨Option.some.inj (hg.symm.trans hpc), rfl⟩
  · have hold : (s.hub h).overcount = 0 := by rw [hidle]; rfl
    have hheld : (Phase.held h).live = 1 := rfl
    omega

variable {a : Action n}

theorem Inv.step (hI : Inv s) (h : step s a = some t) : Inv t := by
  cases a with
  | mainSpawn target count =>
    simp only [Pending.step] at h
    split at h <;> cases h
    exact hI.mainSpawn target count
  | mainPublish =>
    simp only [Pending.step] at h
    split at h
    · rename_i hm
      cases h
      exact hI.mainPublish hm
    · cases h
  | poll => exact hI.poll h
  | spawn h₀ target count =>
    simp only [Pending.step] at h
    split at h
    · rename_i hrun
      cases h
      exact hI.spawn hrun target count
    · cases h
  | publish h₀ =>
    simp only [Pending.step] at h
    split at h
    · rename_i hrun
      cases h
      exact hI.publish hrun
    · cases h
  | pull h₀ f =>
    simp only [Pending.step] at h
    split at h
    · rename_i hidle
      split at h
      · rename_i hf
        cases h
        exact hI.acquire hidle (hf.imp_left fun hq => ⟨h₀, hq⟩) rfl (by simp) rfl
      · cases h
    · cases h
  | yield h₀ | park h₀ =>
    simp only [Pending.step] at h
    split at h
    · rename_i f hrun
      cases h
      refine hI.release (by simp [hrun, HubPc.fiber]) (by simp [HubPc.fiber]) (by simp) ?_
      simp [hrun, Phase.live, HubPc.overcount]
    · cases h
  | wake f global =>
    simp only [Pending.step] at h
    split at h
    · rename_i hf
      cases h
      refine hI.wake hf ?_
      split <;> rfl
    · cases h
  | complete h₀ =>
    simp only [Pending.step] at h
    split at h
    · rename_i f hrun
      cases h
      refine hI.release (by simp [hrun, HubPc.fiber]) (by simp [HubPc.fiber]) (by simp) ?_
      simp [hrun, Phase.live, HubPc.overcount, sum_pendingAdd, sub_eq_add_neg]
    · cases h
  | steal h₀ f =>
    simp only [Pending.step] at h
    split at h
    · rename_i victim hidle hf
      cases h
      exact hI.acquire hidle (.inl ⟨victim, hf⟩) rfl (by simp) rfl
    · cases h
  | stealInc h₀ =>
    simp only [Pending.step] at h
    split at h
    · rename_i f victim hrun
      cases h
      have hheld := (hI.inHand h₀ f (by simp [hrun, HubPc.fiber])).2
      have hkeep := hI.release (h := h₀) (f := f) (q := .held h₀) (c := .bumped f victim)
        (p := pendingAdd s.pending h₀ 1) (by simp [hrun, HubPc.fiber]) (by simp [HubPc.fiber])
        (by simp) (by simp [hrun, Phase.live, HubPc.overcount, sum_pendingAdd])
      rwa [← hheld, update_eq_self] at hkeep
    · cases h
  | stealDec h₀ =>
    simp only [Pending.step] at h
    split at h
    · rename_i f victim hrun
      cases h
      have hheld := (hI.inHand h₀ f (by simp [hrun, HubPc.fiber])).2
      have hkeep := hI.release (h := h₀) (f := f) (q := .held h₀) (c := .running f)
        (p := pendingAdd s.pending victim (-1)) (by simp [hrun, HubPc.fiber])
        (by simp [HubPc.fiber]) (by simp)
        (by simp [hrun, Phase.live, HubPc.overcount, sum_pendingAdd, sub_eq_add_neg])
      rwa [← hheld, update_eq_self] at hkeep
    · cases h

theorem Inv.init (h : Init s) : Inv s := by
  refine ⟨fun f _ => h.fiber f, fun h' f hf => ?_, fun h' f first count target hh => ?_,
    fun first count target hm => ?_, ?_⟩
  · simp [h.hub, HubPc.fiber] at hf
  · simp [h.hub] at hh
  · simp [h.main] at hm
  · simp [h.pending, h.spawned, h.hub, HubPc.overcount]

/-! ## The scan -/

/-- What the scan has read so far bounds what the counters it read hold now. -/
def ScanInv (s : State n) : Prop :=
  ∀ i total, s.main = .scan i total → ∑ h with h.val < i, s.pending h ≤ total

def LeftInv (s : State n) : Prop := s.main = .left → ∀ f < s.spawned, s.fiber f = .done

theorem sum_pendingAdd_le {p : Fin n → ℤ} {c : ℤ} {i : ℕ} (hc : 0 < c → i ≤ h) :
    ∑ h' with h'.val < i, pendingAdd p h c h' ≤ ∑ h' with h'.val < i, p h' := by
  by_cases hi : h.val < i
  · rw [pendingAdd, sum_update (by simp [hi])]
    have : ¬0 < c := fun hpos => absurd (hc hpos) (by omega)
    omega
  · rw [pendingAdd, sum_update_of_notMem (by simp [hi])]

theorem ScanInv.of_main (hS : ScanInv s) (hm : t.main = s.main) (hle : ∀ i total, s.main = .scan i total →
      ∑ h with h.val < i, t.pending h ≤ ∑ h with h.val < i, s.pending h) : ScanInv t := by
  intro i total h
  rw [hm] at h
  exact (hle i total h).trans (hS i total h)

theorem ScanInv.poll (hS : ScanInv s) (h : pollStep s = some t) : ScanInv t := by
  simp only [pollStep] at h
  split at h
  · cases h
    intro i total hm
    obtain ⟨rfl, rfl⟩ := MainPc.scan.inj hm
    simp
  · rename_i i total hm
    split at h
    · rename_i hi
      cases h
      intro i' total' hm'
      obtain ⟨rfl, rfl⟩ := MainPc.scan.inj hm'
      have hset : (Finset.univ.filter fun h : Fin n => h.val < i + 1) =
          insert ⟨i, hi⟩ (Finset.univ.filter fun h : Fin n => h.val < i) := by
        ext h'
        simp only [Finset.mem_filter, Finset.mem_univ, true_and, Finset.mem_insert, Fin.ext_iff]
        omega
      rw [hset, Finset.sum_insert (by simp)]
      have := hS i total hm
      show s.pending ⟨i, hi⟩ + ∑ h with h.val < i, s.pending h ≤ total + s.pending ⟨i, hi⟩
      omega
    · split at h <;> cases h
      · intro i' total' hm'
        cases hm'
      · intro i' total' hm'
        obtain ⟨rfl, rfl⟩ := MainPc.scan.inj hm'
        simp
  · cases h

theorem step_pending (h : step s a = some t) (ha : a ≠ .poll) : (t.main = s.main ∧ (t.pending = s.pending ∨
      ∃ h' c, t.pending = pendingAdd s.pending h' c ∧ (0 < c → a.increments = some h'))) ∨
    t.main ≠ .left ∧ ∀ i total, t.main ≠ .scan i total := by
  cases a with
  | poll => exact absurd rfl ha
  | mainSpawn target count | mainPublish =>
    simp only [step] at h
    split at h <;> cases h
    exact .inr (by simp)
  | spawn h₀ target count =>
    simp only [step] at h
    split at h <;> cases h
    exact .inl ⟨rfl, .inr ⟨target, count, rfl, fun _ => rfl⟩⟩
  | complete h₀ =>
    simp only [step] at h
    split at h <;> cases h
    exact .inl ⟨rfl, .inr ⟨h₀, -1, rfl, by simp⟩⟩
  | stealInc h₀ =>
    simp only [step] at h
    split at h <;> cases h
    exact .inl ⟨rfl, .inr ⟨h₀, 1, rfl, fun _ => rfl⟩⟩
  | stealDec h₀ =>
    simp only [step] at h
    split at h
    · rename_i victim _
      cases h
      exact .inl ⟨rfl, .inr ⟨victim, -1, rfl, by simp⟩⟩
    · cases h
  | pull h₀ f =>
    simp only [step] at h
    split at h
    · split at h <;> cases h
      exact .inl ⟨rfl, .inl rfl⟩
    · cases h
  | publish _ | yield _ | park _ | wake _ _ | steal _ _ =>
    simp only [step] at h
    split at h <;> cases h
    exact .inl ⟨rfl, .inl rfl⟩

theorem ScanInv.step (hS : ScanInv s) (ha : AheadOfScan s a) (h : step s a = some t) : ScanInv t := by
  by_cases hp : a = .poll
  · subst hp
    exact hS.poll h
  obtain ⟨hm, hpend | ⟨h', c, hpend, hc⟩⟩ | hnot := step_pending h hp
  · exact hS.of_main hm fun i total _ => by rw [hpend]
  · refine hS.of_main hm fun i total hscan => ?_
    rw [hpend]
    refine sum_pendingAdd_le fun hpos => ?_
    simpa only [AheadOfScan, hscan, hc hpos] using ha
  · exact fun i total hscan => absurd hscan (hnot.2 i total)

theorem Inv.all_done_of_sum_nonpos (hI : Inv s) (hsum : ∑ h, s.pending h ≤ 0) :
    ∀ f < s.spawned, s.fiber f = .done := by
  have hlive : ∑ f ∈ Finset.range s.spawned, (s.fiber f).live ≤ 0 := by
    have hover : 0 ≤ ∑ h, (s.hub h).overcount :=
      Finset.sum_nonneg fun h _ => HubPc.overcount_nonneg _
    have := hI.sum
    omega
  have hzero := (Finset.sum_eq_zero_iff_of_nonneg fun f _ => Phase.live_nonneg (s.fiber f)).mp
    (le_antisymm hlive (Finset.sum_nonneg fun f _ => Phase.live_nonneg _))
  intro f hf
  have h0 := hzero f (Finset.mem_range.mpr hf)
  cases hph : s.fiber f <;> simp [hph, Phase.live] at h0
  rfl

theorem Inv.step_eq_none_of_all_done (hI : Inv s) (hm : s.main = .left)
    (hd : ∀ f < s.spawned, s.fiber f = .done) : Pending.step s a = none := by
  have hidle : ∀ h, s.hub h = .idle := by
    intro h
    have hnone : (s.hub h).fiber = none := by
      by_contra hne
      obtain ⟨f, hf⟩ := Option.ne_none_iff_exists'.mp hne
      obtain ⟨hlt, hheld⟩ := hI.inHand h f hf
      rw [hd f hlt] at hheld
      cases hheld
    cases hpc : s.hub h <;> simp [hpc, HubPc.fiber] at hnone
    rfl
  have hfiber : ∀ f, s.fiber f = .done ∨ s.fiber f = .fresh := by
    intro f
    by_cases hf : f < s.spawned
    · exact .inl (hd f hf)
    · exact .inr (hI.fresh f (by omega))
  cases a with
  | pull h f | steal h f => obtain hf | hf := hfiber f <;> simp [Pending.step, hidle, hf]
  | wake f global => obtain hf | hf := hfiber f <;> simp [Pending.step, hf]
  | poll => simp [Pending.step, pollStep, hm]
  | _ => simp [Pending.step, hm, hidle]

theorem LeftInv.step (hL : LeftInv s) (hI : Inv s) (hS : ScanInv s)
    (h : Pending.step s a = some t) : LeftInv t := by
  -- Once the loop is left nothing moves, so the step that matters is the one that leaves it.
  by_cases hleft : s.main = .left
  · rw [hI.step_eq_none_of_all_done hleft (hL hleft)] at h
    cases h
  intro ht
  by_cases hp : a = .poll
  · subst hp
    simp only [Pending.step, pollStep] at h
    split at h
    · cases h
      cases ht
    · rename_i i total hm
      split at h
      · cases h
        cases ht
      · rename_i hi
        split at h <;> cases h
        -- The scan has read every counter, so its total bounds what they are now.
        · rename_i htotal
          have hle := hS i total hm
          rw [Finset.filter_true_of_mem fun h' _ => by omega, htotal] at hle
          exact hI.all_done_of_sum_nonpos hle
        · cases ht
    · cases h
  · obtain ⟨hm, -⟩ | hnot := step_pending h hp
    · exact absurd (hm.symm.trans ht) hleft
    · exact absurd ht hnot.1

/-- When `runloom_mn_run` leaves its loop, every spawned fiber is complete, provided no counter grew behind the
scan. -/
theorem mnRun_left_all_done (h : (mnRun n).ReachableWith AheadOfScan s) (hleft : s.main = .left) :
    ∀ f < s.spawned, s.fiber f = .done := by
  have hinv : Inv s ∧ ScanInv s ∧ LeftInv s := by
    apply h.invariant (P := fun s => Inv s ∧ ScanInv s ∧ LeftInv s)
    · intro s hs
      refine ⟨.init hs, fun i total hm => ?_, fun hm => ?_⟩ <;> simp [hs.main] at hm
    · intro s a t hP hC ha
      obtain ⟨hI, hS, hL⟩ := hP
      exact ⟨hI.step ha, hS.step hC ha, hL.step hI hS ha⟩
  exact hinv.2.2 hleft

def twoHubs : State 2 where
  pending := fun _ => 0
  hub := fun _ => .idle
  fiber := fun _ => .fresh
  spawned := 0
  main := .setup

theorem twoHubs_init : (mnRun 2).init twoHubs :=
  ⟨fun _ => rfl, fun _ => rfl, fun _ => rfl, rfl, rfl⟩

def hubZero : Fin 2 := ⟨0, Nat.two_pos⟩

def hubOne : Fin 2 := ⟨1, Nat.one_lt_two⟩

/-- Fiber 0 spawns fiber 1 onto hub 0, which has not been read yet. -/
def spawnAhead : List (Action 2) :=
  [.mainSpawn hubOne 1, .mainPublish, .poll, .pull hubOne 0, .spawn hubOne hubZero 1, .publish hubOne,
    .complete hubOne, .pull hubZero 1, .complete hubZero, .poll, .poll, .poll]

theorem mnRun_left_all_done_spawnAhead :
    ∃ s, (mnRun 2).run twoHubs spawnAhead = some s ∧ s.main = .left ∧ s.spawned = 2 ∧
      ∀ f < s.spawned, s.fiber f = .done := by
  obtain ⟨s, hr, hs, hp⟩ := System.exists_reachableWith_of_replay (M := mnRun 2) (C := AheadOfScan)
    (p := fun s => decide (s.main = .left ∧ s.spawned = 2)) spawnAhead twoHubs_init (by decide +kernel)
  obtain ⟨hleft, hcount⟩ := of_decide_eq_true hp
  exact ⟨s, hr, hleft, hcount, mnRun_left_all_done hs hleft⟩

/-- Hub 0 is read, then fiber 0 spawns fiber 1 onto it and completes. -/
def spawnBehind : List (Action 2) :=
  [.mainSpawn hubOne 1, .mainPublish, .poll, .poll, .pull hubOne 0, .spawn hubOne hubZero 1,
    .publish hubOne, .complete hubOne, .poll, .poll]

/-- The scan leaves although a spawned fiber has not even started. -/
theorem mnRun_leaves_uncompleted :
    ∃ s, (mnRun 2).Reachable s ∧ s.main = .left ∧ ∃ f < s.spawned, s.fiber f ≠ .done := by
  obtain ⟨s, hs, hleft, hcount, hfiber⟩ := (mnRun 2).reaches
    (fun s => s.main = .left ∧ s.spawned = 2 ∧ s.fiber 1 = .queued 0)
    spawnBehind twoHubs_init (by decide +kernel)
  exact ⟨s, hs, hleft, 1, by omega, by simp [hfiber]⟩

end Runloom.Pending
