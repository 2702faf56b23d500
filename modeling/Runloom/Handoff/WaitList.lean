import Mathlib.Data.List.Basic

/-!
# Wait lists

A fiber that has to wait puts its handle in a list under a guard, leaves the guard, and parks; whoever changes what it
waits for takes handles out of the list, leaves the guard, and wakes them one after the other. A wake of a fiber that
does not sleep is kept as a credit.

No wake is lost as long as every fiber that sleeps is `Reached`: its handle is in the list, it has a credit, or it is
among those that some fiber still has to wake.
-/

namespace Runloom.Handoff

open Function (update update_self update_of_ne)

variable {F P : Type*} {toWake : P → List F} {l l' : List F} {credit : F → ℕ} {pc : F → P} {p : P} {f g d : F}

/-- A wake of `f` will come, or has come; `toWake` has the fibers that one at a place still has to wake. -/
def Reached (toWake : P → List F) (l : List F) (credit : F → ℕ) (pc : F → P) (f : F) : Prop :=
  f ∈ l ∨ 0 < credit f ∨ ∃ d, f ∈ toWake (pc d)

section

variable (h : Reached toWake l credit pc f)
include h

theorem Reached.credit_pos (hl : f ∉ l) (hw : ∀ d, toWake (pc d) = []) : 0 < credit f := by
  rcases h with h | h | ⟨d, hd⟩
  · exact absurd h hl
  · exact h
  · rw [hw d] at hd
    cases hd

theorem Reached.poke [DecidableEq F] : Reached toWake l (update credit g (credit g + 1)) pc f := by
  refine h.imp id (Or.imp (fun hc => ?_) id)
  by_cases hfg : f = g
  · subst hfg
    rw [update_self]
    exact Nat.succ_pos _
  · rwa [update_of_ne hfg]

theorem Reached.eat [DecidableEq F] (hfg : f ≠ g) : Reached toWake l (update credit g (credit g - 1)) pc f := by
  refine h.imp id (Or.imp (fun hc => ?_) id)
  rwa [update_of_ne hfg]

theorem Reached.move [DecidableEq F] (hl : f ∈ l → f ∈ l' ∨ f ∈ toWake p)
    (hw : f ∈ toWake (pc d) → f ∈ toWake p) : Reached toWake l' credit (update pc d p) f := by
  have hd : f ∈ toWake p → ∃ e, f ∈ toWake (update pc d p e) := by
    intro hf
    refine ⟨d, ?_⟩
    rwa [update_self]
  rcases h with h | h | ⟨e, he⟩
  · exact (hl h).imp id fun hf => .inr (hd hf)
  · exact .inr (.inl h)
  · right
    right
    by_cases hed : e = d
    · subst hed
      exact hd (hw he)
    · refine ⟨e, ?_⟩
      rwa [update_of_ne hed]

theorem Reached.wake [DecidableEq F] (hd : toWake (pc d) = g :: toWake p) :
    Reached toWake l (update credit g (credit g + 1)) (update pc d p) f := by
  by_cases hfg : f = g
  · subst hfg
    right
    left
    rw [update_self]
    exact Nat.succ_pos _
  · refine h.poke.move Or.inl fun hf => ?_
    rw [hd] at hf
    exact (List.mem_cons.mp hf).resolve_left hfg

end

end Runloom.Handoff
