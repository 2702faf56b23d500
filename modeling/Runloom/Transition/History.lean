import Runloom.Transition.System

/-!
# Histories

A system with a history beside its state: what happened so far, in the terms of a statement about it.
The history follows the steps and has no say in them, so the states that are reached are those of the
system alone.
-/

namespace Runloom.Transition.System

variable {σ α η : Type*} {M : System σ α} {h₀ : η} {next : η → σ → α → σ → η} {C : σ → α → Prop} {s : σ}

/-- The system with a history that starts as `h₀`; `next` is the history after a step. -/
def withHistory (M : System σ α) (h₀ : η) (next : η → σ → α → σ → η) : System (σ × η) α where
  init p := M.init p.1 ∧ p.2 = h₀
  step p a := (M.step p.1 a).map fun t => (t, next p.2 p.1 a t)

theorem withHistory_step {a : α} {p q : σ × η} (h : (M.withHistory h₀ next).step p a = some q) :
    M.step p.1 a = some q.1 ∧ q.2 = next p.2 p.1 a q.1 := by
  obtain ⟨t, ht, rfl⟩ := Option.map_eq_some_iff.mp h
  exact ⟨ht, rfl⟩

theorem ReachableWith.forget {p : σ × η}
    (h : (M.withHistory h₀ next).ReachableWith (fun p => C p.1) p) : M.ReachableWith C p.1 := by
  induction h with
  | init h => exact .init h.1
  | step _ hC ha ih => exact .step ih hC (withHistory_step ha).1

end Runloom.Transition.System
