import Runloom.Handoff.WaitList

/-!
# Fibers at a wait list

The fibers that use a primitive with wait lists, and their credits. A call that has to wait goes round a loop: it
parks, and when the park returns it looks again under the guard at what it waits for.

The lists are not part of a `Lobby`, since each primitive has its own rules for them. `Safe` says that nobody sleeps
unreached.
-/

namespace Runloom.Handoff

/-- Where a fiber is; `A` is what its call waits for, and `R` what the call can return. -/
inductive Place (F A R : Type*) where
  | idle
  | busy (a : A)
  | waiting (a : A)
  | parked (a : A)
  | woken (a : A)
  | expired (a : A)
  | waking (fs : List F) (r : R)
  | returned (r : R)
deriving DecidableEq

namespace Place

variable {F A R : Type*}

/-- The way out of the guard of a fiber that has `fs` to wake. -/
def finish : List F → R → Place F A R
  | [], r => .returned r
  | f :: fs, r => .waking (f :: fs) r

def begun : Place F A R → Option A
  | .busy a => some a
  | _ => none

def sleeps : Place F A R → Option A
  | .waiting a | .parked a => some a
  | _ => none

def loops : Place F A R → Option A
  | .waiting a | .parked a | .woken a | .expired a => some a
  | _ => none

def toWake : Place F A R → List F
  | .waking fs _ => fs
  | _ => []

def result : Place F A R → Option R
  | .waking _ r | .returned r => some r
  | _ => none

@[simp] theorem toWake_finish (fs : List F) (r : R) : (finish fs r : Place F A R).toWake = fs := by
  cases fs <;> rfl

@[simp] theorem sleeps_finish (fs : List F) (r : R) : (finish fs r : Place F A R).sleeps = none := by
  cases fs <;> rfl

@[simp] theorem loops_finish (fs : List F) (r : R) : (finish fs r : Place F A R).loops = none := by
  cases fs <;> rfl

@[simp] theorem result_finish (fs : List F) (r : R) : (finish fs r : Place F A R).result = some r := by
  cases fs <;> rfl

theorem waking_finish {fs gs : List F} {r r' : R} (h : (finish fs r : Place F A R) = .waking gs r') : r' = r := by
  cases fs <;> cases h
  rfl

@[simp] theorem begun_finish (fs : List F) (r : R) : (finish fs r : Place F A R).begun = none := by
  cases fs <;> rfl

theorem begun_eq_some {p : Place F A R} {a : A} : p.begun = some a ↔ p = .busy a := by
  cases p <;> simp [begun]

theorem loops_of_sleeps {p : Place F A R} {a : A} (h : p.sleeps = some a) : p.loops = some a := by
  cases p <;> simp_all [sleeps, loops]

end Place

structure Lobby (F A R : Type*) where
  pc : F → Place F A R
  credit : F → ℕ

namespace Lobby

variable {F A R : Type*} [DecidableEq F]

def goto (x : Lobby F A R) (f : F) (p : Place F A R) : Lobby F A R :=
  { x with pc := Function.update x.pc f p }

/-- A wake of `f`. -/
def poke (x : Lobby F A R) (f : F) : Lobby F A R :=
  { x with credit := Function.update x.credit f (x.credit f + 1) }

def eat (x : Lobby F A R) (f : F) : Lobby F A R :=
  { x with credit := Function.update x.credit f (x.credit f - 1) }

/-- The steps of a fiber outside the guard; `late` calls are past their deadline. -/
def next (x : Lobby F A R) (late : A → Bool) (f : F) : Option (Lobby F A R) :=
  match x.pc f with
  | .waiting a =>
    if late a then some (x.goto f (.expired a))
    -- A park that finds a credit takes it, and returns at once.
    else if 0 < x.credit f then some ((x.eat f).goto f (.woken a))
    else some (x.goto f (.parked a))
  -- The fiber was woken, its deadline came, or the park returned for no reason.
  | .parked a => some ((x.eat f).goto f (.woken a))
  | .waking (g :: fs) r => some ((x.poke g).goto f (.finish fs r))
  | .returned _ => some (x.goto f .idle)
  | _ => none

def elsewhere (x : Lobby F A R) (f : F) : Option (Lobby F A R) :=
  if (x.pc f).sleeps.isNone then some (x.eat f) else none

end Lobby

/-! ## Nobody sleeps unreached -/

section Safe

variable {F A R : Type*} {x x' : Lobby F A R} {lists lists' : A → List F} {f g : F} {p : Place F A R} {a : A}

/-- Every fiber that sleeps will be woken, or has been. -/
def Lobby.Safe (x : Lobby F A R) (lists : A → List F) : Prop :=
  ∀ f a, (x.pc f).sleeps = some a → Reached Place.toWake (lists a) x.credit x.pc f

theorem Lobby.safe_of_idle (h : ∀ f, x.pc f = .idle) : x.Safe lists := by
  intro f a hf
  rw [h] at hf
  cases hf

theorem Lobby.Safe.credit_pos (h : x.Safe lists) (hf : (x.pc f).sleeps = some a) (hl : lists a = [])
    (hw : ∀ d, (x.pc d).toWake = []) : 0 < x.credit f := by
  refine (h f a hf).credit_pos ?_ hw
  rw [hl]
  exact List.not_mem_nil

variable [DecidableEq F]

@[simp] theorem Lobby.goto_self : (x.goto f p).pc f = p := Function.update_self ..

theorem Lobby.goto_of_ne (h : g ≠ f) : (x.goto f p).pc g = x.pc g := Function.update_of_ne h ..

section

variable (h : x.Safe lists)
include h

theorem Lobby.Safe.goto (hw : (x.pc f).toWake = [])
    (hl : ∀ g a, g ≠ f → g ∈ lists a → g ∈ lists' a ∨ g ∈ p.toWake)
    (hp : ∀ a, p.sleeps = some a → f ∈ lists' a) : (x.goto f p).Safe lists' := by
  intro g a hg
  by_cases hgf : g = f
  · subst hgf
    rw [goto_self] at hg
    exact .inl (hp a hg)
  · rw [goto_of_ne hgf] at hg
    refine (h g a hg).move (hl g a hgf) fun hmem => ?_
    rw [hw] at hmem
    cases hmem

theorem Lobby.Safe.poke : (x.poke f).Safe lists :=
  fun g a hg => (h g a hg).poke

theorem Lobby.Safe.elsewhere (hx : x.elsewhere f = some x') : x'.Safe lists := by
  unfold Lobby.elsewhere at hx
  split at hx <;> cases hx
  next hf =>
    intro g a hg
    refine (h g a hg).eat ?_
    rintro rfl
    rw [show (x.pc g).sleeps = some a from hg] at hf
    cases hf

theorem Lobby.Safe.eat_goto (hw : (x.pc f).toWake = []) (hp : p.sleeps = none) :
    ((x.eat f).goto f p).Safe lists := by
  intro g a hg
  by_cases hgf : g = f
  · subst hgf
    rw [goto_self, hp] at hg
    cases hg
  · rw [goto_of_ne hgf] at hg
    refine ((h g a hg).eat hgf).move Or.inl fun hmem => ?_
    rw [hw] at hmem
    cases hmem

end

variable {late : A → Bool}

theorem Lobby.Safe.next (h : x.Safe lists) (hn : x.next late f = some x') : x'.Safe lists := by
  unfold Lobby.next at hn
  split at hn
  next a hpc =>
    split at hn
    · cases hn
      exact h.goto (by rw [hpc]; rfl) (fun _ _ _ => Or.inl) nofun
    split at hn <;> cases hn
    · exact h.eat_goto (by rw [hpc]; rfl) rfl
    · -- Between the list and the park there is no wake to lose.
      intro g b hg
      have hg' : (x.pc g).sleeps = some b := by
        by_cases hgf : g = f
        · subst hgf
          rw [goto_self] at hg
          rw [hpc]
          exact hg
        · rwa [goto_of_ne hgf] at hg
      refine (h g b hg').move Or.inl fun hmem => ?_
      rw [hpc] at hmem
      cases hmem
  next a hpc =>
    cases hn
    exact h.eat_goto (by rw [hpc]; rfl) rfl
  next w fs r hpc =>
    cases hn
    intro g a hg
    have hgf : g ≠ f := by
      rintro rfl
      rw [goto_self, Place.sleeps_finish] at hg
      cases hg
    rw [goto_of_ne hgf] at hg
    apply (h g a hg).wake
    rw [hpc, Place.toWake_finish]
    rfl
  next r hpc =>
    cases hn
    exact h.goto (by rw [hpc]; rfl) (fun _ _ _ => Or.inl) nofun
  next => cases hn

theorem Lobby.next_pc_of_ne (hn : x.next late f = some x') (h : g ≠ f) : x'.pc g = x.pc g := by
  unfold Lobby.next at hn
  split at hn <;> (try split at hn) <;> (try split at hn) <;> cases hn <;> exact goto_of_ne h

theorem Lobby.next_view {X : Type*} (q : Place F A R → X) (hparked : ∀ a, q (.parked a) = q (.waiting a))
    (hwoken : ∀ a, q (.woken a) = q (.waiting a)) (hexpired : ∀ a, q (.expired a) = q (.waiting a))
    (hfinish : ∀ g fs r, q (.finish fs r) = q (.waking (g :: fs) r)) (hidle : ∀ r, q .idle = q (.returned r))
    (hn : x.next late f = some x') (g : F) : q (x'.pc g) = q (x.pc g) := by
  by_cases hgf : g = f
  · subst hgf
    unfold Lobby.next at hn
    split at hn
    next a hpc =>
      rw [hpc]
      split at hn
      · cases hn
        rw [goto_self, hexpired]
      split at hn <;> cases hn
      · rw [goto_self, hwoken]
      · rw [goto_self, hparked]
    next a hpc =>
      cases hn
      rw [goto_self, hpc, hwoken, hparked]
    next w fs r hpc =>
      cases hn
      rw [goto_self, hpc, hfinish]
    next r hpc =>
      cases hn
      rw [goto_self, hpc, hidle]
    next => cases hn
  · rw [Lobby.next_pc_of_ne hn hgf]

section

variable (hn : x.next late f = some x')
include hn

theorem Lobby.next_loops (g : F) : (x'.pc g).loops = (x.pc g).loops := by
  refine next_view Place.loops (fun _ => rfl) (fun _ => rfl) (fun _ => rfl) (fun g fs r => ?_) (fun _ => rfl) hn g
  rw [Place.loops_finish]
  rfl

theorem Lobby.next_begun (g : F) : (x'.pc g).begun = (x.pc g).begun := by
  refine next_view Place.begun (fun _ => rfl) (fun _ => rfl) (fun _ => rfl) (fun g fs r => ?_) (fun _ => rfl) hn g
  rw [Place.begun_finish]
  rfl

theorem Lobby.result_of_next {r : R} (h : (x'.pc f).result = some r) : ∃ g fs, x.pc f = .waking (g :: fs) r := by
  unfold Lobby.next at hn
  split at hn
  next a hpc =>
    split at hn
    · cases hn
      rw [goto_self] at h
      cases h
    split at hn <;> cases hn
    · rw [goto_self] at h
      cases h
    · rw [goto_self] at h
      cases h
  next a hpc =>
    cases hn
    rw [goto_self] at h
    cases h
  next w fs r' hpc =>
    cases hn
    rw [goto_self, Place.result_finish] at h
    cases h
    exact ⟨w, fs, hpc⟩
  next r' hpc =>
    cases hn
    rw [goto_self] at h
    cases h
  next => cases hn

theorem Lobby.expired_of_next (h : x'.pc g = .expired a) : x.pc g = .expired a ∨ late a = true := by
  by_cases hgf : g = f
  · subst hgf
    unfold Lobby.next at hn
    split at hn
    next b hpc =>
      split at hn
      next hl =>
        cases hn
        rw [goto_self] at h
        cases h
        exact .inr hl
      split at hn <;> cases hn
      · rw [goto_self] at h
        cases h
      · rw [goto_self] at h
        cases h
    next b hpc =>
      cases hn
      rw [goto_self] at h
      cases h
    next w fs r hpc =>
      cases hn
      rw [goto_self] at h
      cases fs <;> cases h
    next r hpc =>
      cases hn
      rw [goto_self] at h
      cases h
    next => cases hn
  · rw [Lobby.next_pc_of_ne hn hgf] at h
    exact .inl h

end

theorem Lobby.elsewhere_pc (hx : x.elsewhere f = some x') : x'.pc = x.pc := by
  unfold Lobby.elsewhere at hx
  split at hx <;> cases hx
  rfl

/-- Only the calls that return `r₀` make wakes. -/
def Lobby.Wakers (x : Lobby F A R) (r₀ : R) : Prop := ∀ f fs r, x.pc f = .waking fs r → r = r₀

theorem Lobby.Wakers.goto {r₀ : R} (h : x.Wakers r₀) (hp : ∀ fs r, p = .waking fs r → r = r₀) :
    (x.goto f p).Wakers r₀ := by
  intro g fs r hg
  by_cases hgf : g = f
  · subst hgf
    rw [goto_self] at hg
    exact hp fs r hg
  · rw [goto_of_ne hgf] at hg
    exact h g fs r hg

theorem Lobby.Wakers.next {r₀ : R} (h : x.Wakers r₀) (hn : x.next late f = some x') : x'.Wakers r₀ := by
  intro g fs r hg
  by_cases hgf : g = f
  · subst hgf
    obtain ⟨w, ws, hpc⟩ := result_of_next (r := r) hn (by rw [hg]; rfl)
    exact h g _ r hpc
  · rw [next_pc_of_ne hn hgf] at hg
    exact h g fs r hg

theorem Lobby.Wakers.returned_of_next {r r₀ : R} (h : x.Wakers r₀)
    (hn : x.next late f = some x') (hne : r ≠ r₀) (hg : x'.pc g = .returned r) : x.pc g = .returned r := by
  by_cases hgf : g = f
  · subst hgf
    obtain ⟨w, ws, hpc⟩ := result_of_next (r := r) hn (by rw [hg]; rfl)
    exact absurd (h g _ r hpc) hne
  · rwa [next_pc_of_ne hn hgf] at hg

end Safe

end Runloom.Handoff
