import Runloom.Admission.Model
import Runloom.Transition.Update

/-!
# The live-fiber count is exact

Every unit of `runloom_live_g` is an admission that somebody holds: a thread inside a spawn, or a
published fiber until its last decref gives it back.
-/

namespace Runloom.Admission

open Transition State
open State (goto setFiber)

variable {F T : Type*} {m : ℕ+} {s u : State F T}

/-! ## Weights -/

def Pc.inProgress : Pc F → ℤ
  | .undo _ | .alloc _ _ | .allocFailed _ | .build _ _ _ | .release _ _ false => 1
  | _ => 0

/-- The same without the admissions about to be undone. -/
def Pc.admitted : Pc F → ℤ
  | .undo _ => 0
  | c => c.inProgress

/-- Whether a thread holds the admission `a`. -/
def Pc.holds (a : ℕ) : Pc F → ℤ
  | .undo b | .alloc _ b | .allocFailed b | .build _ _ b | .release _ b false =>
    if b = a then 1 else 0
  | _ => 0

/-- Whether a thread has the struct `f` to itself. -/
def Pc.owns [DecidableEq F] (f : F) : Pc F → ℤ
  | .build f' _ _ | .release f' _ _ | .clear f' | .free f' => if f' = f then 1 else 0
  | _ => 0

def Fiber.live (g : Fiber) : ℤ := if g.published then 1 else 0

def Fiber.holds (a : ℕ) (g : Fiber) : ℤ := if g.published ∧ g.admission = a then 1 else 0

def Fiber.shared (g : Fiber) : ℤ :=
  if g.onSlab then 1 else if g.published ∧ 0 < g.refcount then 1 else 0

theorem Pc.inProgress_nonneg (c : Pc F) : 0 ≤ c.inProgress := by
  unfold inProgress
  split <;> decide

theorem Pc.admitted_nonneg (c : Pc F) : 0 ≤ c.admitted := by
  unfold admitted
  split
  · exact le_rfl
  · exact c.inProgress_nonneg

theorem Pc.admitted_le (c : Pc F) : c.admitted ≤ c.inProgress := by
  unfold admitted
  split
  · exact Pc.inProgress_nonneg _
  · exact le_rfl

theorem Pc.owns_nonneg [DecidableEq F] (f : F) (c : Pc F) : 0 ≤ c.owns f := by
  unfold owns
  split <;> first | (split <;> decide) | decide

theorem Fiber.live_nonneg (g : Fiber) : 0 ≤ g.live := by
  unfold live
  split <;> decide

theorem Fiber.shared_nonneg (g : Fiber) : 0 ≤ g.shared := by
  unfold shared
  split_ifs <;> decide

/-! ## The invariant -/

def PcOk (fiber : F → Fiber) : Pc F → Prop
  | .build f _ a =>
    (fiber f).limitCounted = true ∧ (fiber f).published = false ∧ (fiber f).refcount = 1 ∧
      (fiber f).admission = a ∧ (fiber f).onSlab = false
  | .release f a final =>
    (fiber f).limitCounted = true ∧ (fiber f).published = final ∧ (fiber f).admission = a ∧
      (fiber f).onSlab = false ∧ (final = true → (fiber f).refcount = 0)
  | .clear f | .free f => (fiber f).published = false ∧ (fiber f).onSlab = false
  | _ => True

variable [Fintype F] [Fintype T] [DecidableEq F] [DecidableEq T]

def liveFibers (s : State F T) : ℤ := ∑ f, (s.fiber f).live

def inProgress (s : State F T) : ℤ := ∑ t, (s.pc t).inProgress

/-- How many hold the admission `a`. -/
def holders (s : State F T) (a : ℕ) : ℤ := ∑ f, (s.fiber f).holds a + ∑ t, (s.pc t).holds a

structure Inv (m : ℕ+) (s : State F T) : Prop where
  liveG : s.liveG = liveFibers s + inProgress s
  bound : liveFibers s + ∑ t, (s.pc t).admitted ≤ (m : ℕ)
  once : ∀ a, holders s a + s.released a = if a < s.admissions then 1 else 0
  owner : ∀ f, ∑ t, (s.pc t).owns f + (s.fiber f).shared = 1
  pcOk : ∀ t, PcOk s.fiber (s.pc t)
  published : ∀ f, (s.fiber f).published = true → (s.fiber f).limitCounted = true ∧ (s.fiber f).onSlab = false

variable {t : T} {f : F}

theorem Inv.owner_unique (hI : Inv m s) {t' : T} (ht : (s.pc t).owns f = 1)
    (ht' : (s.pc t').owns f = 1) : t = t' := by
  have hsum := hI.owner f
  have hnn := (s.fiber f).shared_nonneg
  exact eq_of_sum_le_one (Finset.mem_univ t) (Finset.mem_univ t')
    (fun t => Pc.owns_nonneg f (s.pc t)) (by omega) (by omega) (by omega)

omit [DecidableEq T] in
theorem Inv.not_owns_of_shared (hI : Inv m s) (hf : (s.fiber f).shared = 1) (t : T) : (s.pc t).owns f ≠ 1 := by
  intro ht
  have hle : (s.pc t).owns f ≤ ∑ t, (s.pc t).owns f :=
    Finset.single_le_sum (fun t _ => Pc.owns_nonneg f (s.pc t)) (Finset.mem_univ t)
  have hsum := hI.owner f
  omega

omit [Fintype F] [Fintype T] [DecidableEq T] in
theorem PcOk.congr {fiber fiber' : F → Fiber} {c : Pc F} (h : PcOk fiber c)
    (heq : ∀ f, c.owns f = 1 → fiber' f = fiber f) : PcOk fiber' c := by
  cases c with
  | build f todo a | release f a final | clear f | free f =>
    simp only [PcOk]
    rw [heq f (by simp [Pc.owns])]
    exact h
  | _ => trivial

/-! ## How a step keeps the balance -/

theorem Inv.advance (hI : Inv m s) {c : Pc F} {g : Fiber}
    (hpc : u.pc = update s.pc t c) (hfiber : u.fiber = update s.fiber f g)
    (hlive : u.liveG - g.live - c.inProgress = s.liveG - (s.fiber f).live - (s.pc t).inProgress)
    (hbound : g.live + c.admitted ≤ (s.fiber f).live + (s.pc t).admitted)
    (honce : ∀ a, (u.released a : ℤ) + g.holds a + c.holds a =
      s.released a + (s.fiber f).holds a + (s.pc t).holds a)
    (hadm : u.admissions = s.admissions)
    (howner : ∀ f', c.owns f' + (if f' = f then g.shared else (s.fiber f').shared) =
      (s.pc t).owns f' + (s.fiber f').shared)
    (hothers : ∀ t', t' ≠ t → (s.pc t').owns f ≠ 1) (hok : PcOk u.fiber c)
    (hpub : g.published = true → g.limitCounted = true ∧ g.onSlab = false) : Inv m u := by
  refine ⟨?_, ?_, fun a => ?_, fun f' => ?_, fun t' => ?_, fun f' hf' => ?_⟩
  · have hold := hI.liveG
    unfold liveFibers inProgress at hold ⊢
    rw [hpc, hfiber, sum_comp_update (Finset.mem_univ t) Pc.inProgress,
      sum_comp_update (Finset.mem_univ f) Fiber.live]
    omega
  · have hold := hI.bound
    unfold liveFibers at hold ⊢
    rw [hpc, hfiber, sum_comp_update (Finset.mem_univ t) Pc.admitted,
      sum_comp_update (Finset.mem_univ f) Fiber.live]
    omega
  · have hold := hI.once a
    have := honce a
    unfold holders at hold ⊢
    rw [hpc, hfiber, sum_comp_update (Finset.mem_univ t) (Pc.holds a),
      sum_comp_update (Finset.mem_univ f) (Fiber.holds a), hadm]
    omega
  · have hold := hI.owner f'
    have := howner f'
    rw [hpc, hfiber, sum_comp_update (Finset.mem_univ t) (Pc.owns f')]
    by_cases hf : f' = f
    · subst hf
      rw [update_self]
      rw [if_pos rfl] at this
      omega
    · rw [update_of_ne hf]
      rw [if_neg hf] at this
      omega
  · rw [hpc]
    by_cases htt : t' = t
    · subst htt
      rwa [update_self]
    · rw [update_of_ne htt]
      apply (hI.pcOk t').congr
      intro f' hf'
      have hne : f' ≠ f := by
        rintro rfl
        exact hothers t' htt hf'
      rw [hfiber, update_of_ne hne]
  · rw [hfiber] at hf' ⊢
    by_cases hf : f' = f
    · subst hf
      rw [update_self] at hf' ⊢
      exact hpub hf'
    · rw [update_of_ne hf] at hf' ⊢
      exact hI.published f' hf'

theorem Inv.move (hI : Inv m s) {c : Pc F} (hpc : u.pc = update s.pc t c) (hfiber : u.fiber = s.fiber)
    (hlive : u.liveG - c.inProgress = s.liveG - (s.pc t).inProgress)
    (hbound : c.admitted ≤ (s.pc t).admitted)
    (honce : ∀ a, (u.released a : ℤ) + c.holds a = s.released a + (s.pc t).holds a)
    (hadm : u.admissions = s.admissions) (howner : ∀ f, c.owns f = (s.pc t).owns f)
    (hok : PcOk s.fiber c) : Inv m u := by
  refine ⟨?_, ?_, fun a => ?_, fun f => ?_, fun t' => ?_, by rw [hfiber]; exact hI.published⟩
  · have hold := hI.liveG
    unfold liveFibers inProgress at hold ⊢
    rw [hpc, hfiber, sum_comp_update (Finset.mem_univ t) Pc.inProgress]
    omega
  · have hold := hI.bound
    unfold liveFibers at hold ⊢
    rw [hpc, hfiber, sum_comp_update (Finset.mem_univ t) Pc.admitted]
    omega
  · have hold := hI.once a
    have := honce a
    unfold holders at hold ⊢
    rw [hpc, hfiber, sum_comp_update (Finset.mem_univ t) (Pc.holds a), hadm]
    omega
  · have hold := hI.owner f
    rw [hpc, hfiber, sum_comp_update (Finset.mem_univ t) (Pc.owns f), howner]
    omega
  · rw [hpc, hfiber]
    by_cases htt : t' = t
    · subst htt
      rwa [update_self]
    · rw [update_of_ne htt]
      exact hI.pcOk t'

omit [Fintype F] [DecidableEq F] [DecidableEq T] in
theorem sum_admitted_le (s : State F T) : ∑ t, (s.pc t).admitted ≤ inProgress s :=
  Finset.sum_le_sum fun t _ => (s.pc t).admitted_le

theorem Inv.fiberAdmit (hI : Inv m s) {path : Path} (ht : s.pc t = .add path) :
    Inv m (s.fiberAdmit m t path) := by
  have hsum := sum_admitted_le s
  have hlive := hI.liveG
  have hbound := hI.bound
  have hold : (s.pc t).inProgress = 0 ∧ (s.pc t).admitted = 0 ∧ (∀ a, (s.pc t).holds a = 0) ∧
      ∀ f, (s.pc t).owns f = 0 := by
    rw [ht]
    exact ⟨rfl, rfl, fun _ => rfl, fun _ => rfl⟩
  obtain ⟨h1, h2, h3, h4⟩ := hold
  -- the new admission is held by the thread on both sides of the test
  set c : Pc F := if ((m : ℕ) : ℤ) < s.liveG + 1 then .undo s.admissions else .alloc path s.admissions
    with hc
  have hprog : c.inProgress = 1 := by
    rw [hc]
    split_ifs <;> rfl
  have hown : ∀ f, c.owns f = 0 := by
    intro f
    rw [hc]
    split_ifs <;> rfl
  have hholds : ∀ a, c.holds a = if s.admissions = a then 1 else 0 := by
    intro a
    by_cases hover : ((m : ℕ) : ℤ) < s.liveG + 1
    · rw [hc, if_pos hover]
      rfl
    · rw [hc, if_neg hover]
      rfl
  refine ⟨?_, ?_, fun a => ?_, fun f => ?_, fun t' => ?_, hI.published⟩
  · show s.liveG + 1 = liveFibers s + ∑ t', (update s.pc t c t').inProgress
    rw [sum_comp_update (Finset.mem_univ t) Pc.inProgress, h1, hprog]
    unfold inProgress at hlive
    omega
  · show liveFibers s + ∑ t', (update s.pc t c t').admitted ≤ (m : ℕ)
    rw [sum_comp_update (Finset.mem_univ t) Pc.admitted, h2]
    by_cases hover : ((m : ℕ) : ℤ) < s.liveG + 1
    · have : c.admitted = 0 := by rw [hc, if_pos hover]; rfl
      omega
    · have : c.admitted = 1 := by rw [hc, if_neg hover]; rfl
      omega
  · have honce := hI.once a
    unfold holders at honce
    show ∑ f, (s.fiber f).holds a + ∑ t', (update s.pc t c t').holds a + s.released a =
      if a < s.admissions + 1 then 1 else 0
    rw [sum_comp_update (Finset.mem_univ t) (Pc.holds a), h3, hholds]
    split_ifs at honce ⊢ <;> omega
  · have howner := hI.owner f
    show ∑ t', (update s.pc t c t').owns f + (s.fiber f).shared = 1
    rw [sum_comp_update (Finset.mem_univ t) (Pc.owns f), h4, hown]
    omega
  · show PcOk s.fiber (update s.pc t c t')
    by_cases htt : t' = t
    · subst htt
      rw [update_self, hc]
      split_ifs <;> trivial
    · rw [update_of_ne htt]
      exact hI.pcOk t'

omit [Fintype F] [Fintype T] [DecidableEq F] [DecidableEq T] in
theorem giveBack_released (s : State F T) (a b : ℕ) :
    ((s.giveBack a).released b : ℤ) = s.released b + if a = b then 1 else 0 := by
  by_cases hab : b = a
  · subst hab
    simp [State.giveBack]
  · simp [State.giveBack, hab, Ne.symm hab]

variable {a : ℕ}

section

variable (hI : Inv m s)
include hI

theorem Inv.giveBack (ht : s.pc t = .undo a ∨ s.pc t = .allocFailed a) : Inv m ((s.giveBack a).goto t .idle) := by
  have hold : (s.pc t).inProgress = 1 ∧ (∀ b, (s.pc t).holds b = if a = b then 1 else 0) ∧
      ∀ f, (s.pc t).owns f = 0 := by
    rcases ht with ht | ht <;> rw [ht] <;> exact ⟨rfl, fun _ => rfl, fun _ => rfl⟩
  obtain ⟨h1, h2, h3⟩ := hold
  apply hI.move (u := (s.giveBack a).goto t .idle) (t := t) (c := .idle) rfl rfl
  · rw [h1]
    show s.liveG - 1 - 0 = _
    omega
  · exact (s.pc t).admitted_nonneg
  · intro b
    show ((s.giveBack a).released b : ℤ) + 0 = _
    rw [giveBack_released, h2]
    omega
  · rfl
  · intro f
    rw [h3]
    rfl
  · trivial

theorem Inv.build {path : Path} (ht : s.pc t = .alloc path a) (hslab : (s.fiber f).onSlab = true) :
    Inv m (s.build t f path a) := by
  have hpub : (s.fiber f).published = false := by
    by_contra hc
    rw [(hI.published f (by simpa using hc)).2] at hslab
    cases hslab
  apply hI.advance (t := t) (c := .build f path.todo a) (f := f) (g := ⟨false, 1, true, false, a⟩) rfl rfl
  · rw [ht]
    simp [State.build, goto, setFiber, Fiber.live, hpub, Pc.inProgress]
  · rw [ht]
    simp [Fiber.live, hpub, Pc.admitted, Pc.inProgress]
  · intro b
    rw [ht]
    simp [State.build, goto, setFiber, Fiber.holds, hpub, Pc.holds]
  · rfl
  · intro f'
    rw [ht]
    by_cases hf : f' = f
    · subst hf
      simp [Pc.owns, Fiber.shared, hslab]
    · simp [Pc.owns, hf, Ne.symm hf]
  · exact fun t' _ => hI.not_owns_of_shared (by simp [Fiber.shared, hslab]) t'
  · simp [PcOk, State.build, goto, setFiber]
  · intro hc
    cases hc

omit [DecidableEq T] in
theorem Inv.build_ok {todo : Todo} (ht : s.pc t = .build f todo a) : (s.fiber f).limitCounted = true ∧
      (s.fiber f).published = false ∧ (s.fiber f).refcount = 1 ∧ (s.fiber f).admission = a ∧
      (s.fiber f).onSlab = false := by
  simpa only [ht, PcOk] using hI.pcOk t

theorem Inv.buildStep {todo : Todo} {ok : Bool}
    (ht : s.pc t = .build f todo a) : Inv m (s.buildStep t f todo a ok) := by
  obtain ⟨hcounted, hpub, hrc, hadm, hslab⟩ := hI.build_ok ht
  -- an allocation keeps the admission and the struct in the thread's hands
  have hmove : ∀ c : Pc F, (c = .release f a false ∨ ∃ todo', c = .build f todo' a) → Inv m (s.goto t c) := by
    intro c hc
    have hsame : c.inProgress = 1 ∧ c.admitted = 1 ∧ (∀ b, c.holds b = if a = b then 1 else 0) ∧
        (∀ f', c.owns f' = if f = f' then 1 else 0) := by
      rcases hc with rfl | ⟨todo', rfl⟩ <;> exact ⟨rfl, rfl, fun _ => rfl, fun _ => rfl⟩
    obtain ⟨h1, h2, h3, h4⟩ := hsame
    apply hI.move (u := s.goto t c) (t := t) (c := c) rfl rfl
    · rw [h1, ht]
      rfl
    · rw [h2, ht]
      exact le_rfl
    · intro b
      rw [h3, ht]
      rfl
    · rfl
    · intro f'
      rw [h4, ht]
      rfl
    · rcases hc with rfl | ⟨todo', rfl⟩
      · exact ⟨hcounted, hpub, hadm, hslab, fun hc => by cases hc⟩
      · exact ⟨hcounted, hpub, hrc, hadm, hslab⟩
  unfold State.buildStep
  split_ifs
  · exact hmove _ (.inr ⟨_, rfl⟩)
  · exact hmove _ (.inl rfl)
  · exact hmove _ (.inr ⟨_, rfl⟩)
  · exact hmove _ (.inl rfl)
  · apply hI.advance (t := t) (c := .idle) (f := f) (g := { s.fiber f with published := true })
      rfl rfl
    · rw [ht]
      simp [goto, setFiber, Fiber.live, hpub, Pc.inProgress]
    · rw [ht]
      simp [Fiber.live, hpub, Pc.admitted, Pc.inProgress]
    · intro b
      rw [ht]
      simp [goto, setFiber, Fiber.holds, hpub, hadm, Pc.holds]
    · rfl
    · intro f'
      rw [ht]
      by_cases hf : f' = f
      · subst hf
        simp [Pc.owns, Fiber.shared, hslab, hpub, hrc]
      · simp [Pc.owns, hf, Ne.symm hf]
    · intro t' htt hc
      exact htt (hI.owner_unique hc (by rw [ht]; simp [Pc.owns]))
    · trivial
    · exact fun _ => ⟨hcounted, hslab⟩

theorem Inv.releaseStep {final : Bool} (ht : s.pc t = .release f a final) : Inv m (s.releaseStep t f a) := by
  obtain ⟨hcounted, hpub, hadm, hslab, hrc⟩ : (s.fiber f).limitCounted = true ∧
      (s.fiber f).published = final ∧ (s.fiber f).admission = a ∧ (s.fiber f).onSlab = false ∧
      (final = true → (s.fiber f).refcount = 0) := by simpa only [ht, PcOk] using hI.pcOk t
  unfold State.releaseStep
  rw [if_pos hcounted]
  apply hI.advance (t := t) (c := .clear f) (f := f) (g := { s.fiber f with published := false })
    rfl rfl
  · rw [ht]
    cases final <;>
      simp [goto, setFiber, State.giveBack, Fiber.live, hpub, Pc.inProgress]
  · rw [ht]
    cases final <;> simp [Fiber.live, hpub, Pc.admitted, Pc.inProgress]
  · intro b
    rw [ht]
    show ((s.giveBack a).released b : ℤ) + _ + _ = _
    rw [giveBack_released]
    cases final <;> simp [Fiber.holds, hpub, hadm, Pc.holds]
  · rfl
  · intro f'
    rw [ht]
    by_cases hf : f' = f
    · subst hf
      cases final
      · simp [Pc.owns, Fiber.shared, hslab, hpub]
      · simp [Pc.owns, Fiber.shared, hslab, hpub, hrc]
    · simp [Pc.owns, hf, Ne.symm hf]
  · intro t' htt hc
    exact htt (hI.owner_unique hc (by rw [ht]; simp [Pc.owns]))
  · simp [PcOk, goto, setFiber, hslab]
  · intro hc
    cases hc

theorem Inv.teardown {c : Pc F} {g : Fiber}
    (ht : s.pc t = .clear f ∧ c = .free f ∧ g = { s.fiber f with limitCounted := false } ∨
      s.pc t = .free f ∧ c = .idle ∧ g = { s.fiber f with onSlab := true }) :
    Inv m ((s.setFiber f g).goto t c) := by
  have hok : (s.fiber f).published = false ∧ (s.fiber f).onSlab = false := by
    rcases ht with ⟨ht, -, -⟩ | ⟨ht, -, -⟩ <;> simpa only [ht, PcOk] using hI.pcOk t
  obtain ⟨hpub, hslab⟩ := hok
  apply hI.advance (t := t) (c := c) (f := f) (g := g) rfl rfl
  · rcases ht with ⟨ht, rfl, rfl⟩ | ⟨ht, rfl, rfl⟩ <;> rw [ht] <;> rfl
  · rcases ht with ⟨ht, rfl, rfl⟩ | ⟨ht, rfl, rfl⟩ <;> rw [ht] <;> exact le_rfl
  · intro b
    rcases ht with ⟨ht, rfl, rfl⟩ | ⟨ht, rfl, rfl⟩ <;> rw [ht] <;> rfl
  · rfl
  · intro f'
    by_cases hf : f' = f
    · subst hf
      rcases ht with ⟨ht, rfl, rfl⟩ | ⟨ht, rfl, rfl⟩ <;>
        simp [ht, Pc.owns, Fiber.shared, hpub, hslab]
    · rcases ht with ⟨ht, rfl, rfl⟩ | ⟨ht, rfl, rfl⟩ <;> simp [ht, Pc.owns, hf, Ne.symm hf]
  · intro t' htt hc
    have hown : (s.pc t).owns f = 1 := by
      rcases ht with ⟨ht, -, -⟩ | ⟨ht, -, -⟩ <;> simp [ht, Pc.owns]
    exact htt (hI.owner_unique hc hown)
  · rcases ht with ⟨ht, rfl, rfl⟩ | ⟨ht, rfl, rfl⟩
    · simp [PcOk, goto, setFiber, hpub, hslab]
    · trivial
  · rcases ht with ⟨ht, rfl, rfl⟩ | ⟨ht, rfl, rfl⟩ <;> simp [hpub]

omit [DecidableEq T] in
theorem Inv.incref (hf : (s.fiber f).published = true ∧ 0 < (s.fiber f).refcount) :
    Inv m (s.setFiber f { s.fiber f with refcount := (s.fiber f).refcount + 1 }) := by
  obtain ⟨hcounted, hslab⟩ := hI.published f hf.1
  have hshared : (s.fiber f).shared = 1 := by simp [Fiber.shared, hslab, hf.1, hf.2]
  have hlive : ∀ f', ((s.setFiber f { s.fiber f with
      refcount := (s.fiber f).refcount + 1 }).fiber f').live = (s.fiber f').live ∧
      (∀ a, ((s.setFiber f { s.fiber f with
        refcount := (s.fiber f).refcount + 1 }).fiber f').holds a = (s.fiber f').holds a) ∧
      ((s.setFiber f { s.fiber f with
        refcount := (s.fiber f).refcount + 1 }).fiber f').shared = (s.fiber f').shared := by
    intro f'
    by_cases hff : f' = f
    · subst hff
      simp [setFiber, Fiber.live, Fiber.holds, Fiber.shared, hslab, hf.1, hf.2]
    · simp [setFiber, hff]
  refine ⟨?_, ?_, fun a => ?_, fun f' => ?_, fun t => ?_, fun f' hf' => ?_⟩
  · rw [liveFibers, Finset.sum_congr rfl fun f' _ => (hlive f').1]
    exact hI.liveG
  · rw [liveFibers, Finset.sum_congr rfl fun f' _ => (hlive f').1]
    exact hI.bound
  · rw [holders, Finset.sum_congr rfl fun f' _ => (hlive f').2.1 a]
    exact hI.once a
  · rw [(hlive f').2.2]
    exact hI.owner f'
  · apply (hI.pcOk t).congr
    intro f' hown
    have hne : f' ≠ f := by
      rintro rfl
      exact hI.not_owns_of_shared hshared t hown
    exact update_of_ne hne _ _
  · by_cases hff : f' = f
    · subst hff
      simp [setFiber, hcounted, hslab]
    · simp only [setFiber, update_of_ne hff] at hf' ⊢
      exact hI.published f' hf'

theorem Inv.decref (ht : s.pc t = .idle) (hf : (s.fiber f).published = true ∧ 0 < (s.fiber f).refcount) :
    Inv m ((s.setFiber f { s.fiber f with refcount := (s.fiber f).refcount - 1 }).goto t
      (if (s.fiber f).refcount - 1 = 0 then .release f (s.fiber f).admission true else .idle)) := by
  obtain ⟨hcounted, hslab⟩ := hI.published f hf.1
  have hshared : (s.fiber f).shared = 1 := by simp [Fiber.shared, hslab, hf.1, hf.2]
  apply hI.advance (t := t) (f := f) (g := { s.fiber f with refcount := (s.fiber f).refcount - 1 }) rfl rfl
  · rw [ht]
    split_ifs <;> rfl
  · rw [ht]
    split_ifs <;> exact le_rfl
  · intro b
    rw [ht]
    split_ifs <;> rfl
  · rfl
  · intro f'
    rw [ht]
    by_cases hff : f' = f
    · subst hff
      rw [hshared, if_pos rfl]
      split_ifs with hz
      · simp [Pc.owns, Fiber.shared, hslab, hz]
      · simp [Pc.owns, Fiber.shared, hslab, hf.1, Nat.pos_of_ne_zero hz]
    · split_ifs <;> simp [Pc.owns, Ne.symm hff]
  · exact fun t' _ => hI.not_owns_of_shared hshared t'
  · split_ifs with hz
    · simp [PcOk, goto, setFiber, hcounted, hf.1, hslab, hz]
    · trivial
  · exact fun _ => ⟨hcounted, hslab⟩

theorem Inv.step {a : Action F T} (h : Admission.step m s a = some u) :
    Inv m u := by
  cases a with
  | spawn t path =>
    simp only [Admission.step] at h
    split at h
    · rename_i ht
      cases h
      apply hI.move (u := s.goto t (.add path)) (t := t) (c := .add path) rfl rfl
      · rw [ht]
        rfl
      · rw [ht]
        exact le_rfl
      · intro b
        rw [ht]
        rfl
      · rfl
      · intro f
        rw [ht]
        rfl
      · trivial
    · cases h
  | step t ok f =>
    cases ht : s.pc t with
    | idle => simp [Admission.step, ht] at h
    | add path =>
      simp only [Admission.step, ht, Option.some.injEq] at h
      subst h
      exact hI.fiberAdmit ht
    | undo a =>
      simp only [Admission.step, ht, Option.some.injEq] at h
      subst h
      exact hI.giveBack (.inl ht)
    | alloc path a =>
      simp only [Admission.step, ht] at h
      split_ifs at h with hok hslab
      · cases h
        exact hI.build ht hslab
      · cases h
        apply hI.move (u := s.goto t (.allocFailed a)) (t := t) (c := .allocFailed a) rfl rfl
        · rw [ht]
          rfl
        · rw [ht]
          exact le_rfl
        · intro b
          rw [ht]
          rfl
        · rfl
        · intro f
          rw [ht]
          rfl
        · trivial
    | allocFailed a =>
      simp only [Admission.step, ht, Option.some.injEq] at h
      subst h
      exact hI.giveBack (.inr ht)
    | build f' todo a =>
      simp only [Admission.step, ht, Option.some.injEq] at h
      subst h
      exact hI.buildStep ht
    | release f' a final =>
      simp only [Admission.step, ht, Option.some.injEq] at h
      subst h
      exact hI.releaseStep ht
    | clear f' =>
      simp only [Admission.step, ht, Option.some.injEq] at h
      subst h
      exact hI.teardown (.inl ⟨ht, rfl, rfl⟩)
    | free f' =>
      simp only [Admission.step, ht, Option.some.injEq] at h
      subst h
      exact hI.teardown (.inr ⟨ht, rfl, rfl⟩)
  | incref f =>
    simp only [Admission.step] at h
    split_ifs at h with hf
    cases h
    exact hI.incref hf
  | decref t f =>
    simp only [Admission.step] at h
    split at h
    · rename_i ht
      by_cases hf : (s.fiber f).published = true ∧ 0 < (s.fiber f).refcount
      · rw [if_pos hf, Option.some.injEq] at h
        subst h
        exact hI.decref ht hf
      · rw [if_neg hf] at h
        cases h
    · cases h

end

omit [DecidableEq T] in
theorem Inv.init (h : Init s) : Inv m s := by
  refine ⟨?_, ?_, fun a => ?_, fun f => ?_, fun t => ?_, fun f hf => ?_⟩
  · simp [h.liveG, liveFibers, inProgress, h.fiber, h.pc, Fiber.live, Pc.inProgress]
  · simp [liveFibers, h.fiber, h.pc, Fiber.live, Pc.admitted, Pc.inProgress]
  · simp [holders, h.fiber, h.pc, h.released, h.admissions, Fiber.holds, Pc.holds]
  · simp [h.fiber, h.pc, Fiber.shared, Pc.owns]
  · rw [h.pc]
    trivial
  · simp [h.fiber] at hf

/-- The live fibers never exceed the limit `m`, and every admission is held or was given back, once. -/
theorem admission_exact (h : (gate F T m).Reachable s) :
    liveFibers s ≤ (m : ℕ) ∧ liveFibers s + ∑ t, (s.pc t).admitted ≤ (m : ℕ) ∧
    s.liveG = liveFibers s + inProgress s ∧ 0 ≤ s.liveG ∧
    ∀ a, holders s a + s.released a = if a < s.admissions then 1 else 0 := by
  have hI : Inv m s := h.invariant (fun _ hs => Inv.init hs) fun _ _ _ hI _ ha => hI.step ha
  have hadm : 0 ≤ ∑ t, (s.pc t).admitted := Finset.sum_nonneg fun t _ => (s.pc t).admitted_nonneg
  have hlive : 0 ≤ liveFibers s := Finset.sum_nonneg fun f _ => (s.fiber f).live_nonneg
  have hprog : 0 ≤ inProgress s := Finset.sum_nonneg fun t _ => (s.pc t).inProgress_nonneg
  have hbound := hI.bound
  have hliveG := hI.liveG
  exact ⟨by omega, hbound, hliveG, by omega, hI.once⟩

def quiet : State (Fin 1) (Fin 2) where
  liveG := 0
  fiber := fun _ => ⟨true, 0, false, false, 0⟩
  pc := fun _ => .idle
  admissions := 0
  released := fun _ => 0

theorem quiet_init (m : ℕ+) : (gate (Fin 1) (Fin 2) m).init quiet :=
  ⟨rfl, fun _ => rfl, fun _ => rfl, rfl, fun _ => rfl⟩

def theStruct : Fin 1 := ⟨0, Nat.one_pos⟩

def threadZero : Fin 2 := ⟨0, Nat.two_pos⟩

def threadOne : Fin 2 := ⟨1, Nat.one_lt_two⟩

/-- Thread 1 is caught over the limit, between its addition and its undo. -/
def overLimit : List (Action (Fin 1) (Fin 2)) :=
  Action.spawn threadZero .spawnCommon :: List.replicate 4 (.step threadZero true theStruct) ++
    [Action.spawn threadOne (.mnFiberCore false false), .step threadOne true theStruct]

theorem admission_exact_overLimit : ∃ s, (gate (Fin 1) (Fin 2) 1).run quiet overLimit = some s ∧ s.liveG = 2 ∧
      s.pc 1 = .undo 1 ∧ liveFibers s ≤ 1 ∧ s.liveG = liveFibers s + inProgress s := by
  obtain ⟨s, hr, hs, hp⟩ := System.exists_reachable_of_run (M := gate (Fin 1) (Fin 2) 1)
    (p := fun s => decide (s.liveG = 2 ∧ s.pc 1 = .undo 1)) overLimit (quiet_init 1) (by decide +kernel)
  obtain ⟨hlive, hpc⟩ := of_decide_eq_true hp
  obtain ⟨hle, -, heq, -, -⟩ := admission_exact hs
  exact ⟨s, hr, hlive, hpc, hle, heq⟩

end Runloom.Admission
