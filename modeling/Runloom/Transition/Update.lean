import Mathlib.Algebra.Order.BigOperators.Group.Finset
import Mathlib.Tactic.Ring

/-!
# Sums over actors

A conserved quantity of a concurrent system is usually a sum, over the actors, of what each one's
local state is worth.  A step rewrites one actor, so the sum changes by that actor's difference.
-/

namespace Runloom.Transition

open Function (update update_self update_of_ne)

variable {ι β : Type*} [DecidableEq ι]

variable {S : Finset ι} {i : ι}

theorem sum_comp_update (hi : i ∈ S) (w : β → ℤ) (f : ι → β) (x : β) :
    ∑ j ∈ S, w (update f i x j) = ∑ j ∈ S, w (f j) - w (f i) + w x := by
  rw [← Finset.add_sum_erase _ _ hi, ← Finset.add_sum_erase _ (fun j => w (f j)) hi]
  have hrest : ∑ j ∈ S.erase i, w (update f i x j) = ∑ j ∈ S.erase i, w (f j) := by
    refine Finset.sum_congr rfl fun j hj => ?_
    rw [update_of_ne (Finset.ne_of_mem_erase hj)]
  rw [hrest, update_self]
  ring

theorem sum_update (hi : i ∈ S) (f : ι → ℤ) (x : ℤ) : ∑ j ∈ S, update f i x j = ∑ j ∈ S, f j - f i + x :=
  sum_comp_update hi id f x

theorem sum_update_of_notMem (hi : i ∉ S) (f : ι → ℤ) (x : ℤ) : ∑ j ∈ S, update f i x j = ∑ j ∈ S, f j := by
  refine Finset.sum_congr rfl fun j hj => ?_
  rw [update_of_ne (ne_of_mem_of_not_mem hj hi)]

/-! ## Tokens

Where each actor's weight is a natural number of tokens, a bound on the sum bounds the holders. -/

theorem add_le_sum_of_nonneg {j : ι} (hi : i ∈ S) (hj : j ∈ S) (hij : i ≠ j)
    {f : ι → ℤ} (hf : ∀ j, 0 ≤ f j) : f i + f j ≤ ∑ k ∈ S, f k := by
  rw [← Finset.add_sum_erase _ _ hi]
  have hrest := Finset.single_le_sum (fun k _ => hf k) (Finset.mem_erase.mpr ⟨hij.symm, hj⟩)
  omega

theorem eq_of_sum_le_one {j : ι} (hi : i ∈ S) (hj : j ∈ S) {f : ι → ℤ}
    (hf : ∀ j, 0 ≤ f j) (hsum : ∑ k ∈ S, f k ≤ 1) (h1 : 0 < f i) (h2 : 0 < f j) : i = j := by
  by_contra hij
  have := add_le_sum_of_nonneg hi hj hij hf
  omega

omit [DecidableEq ι] in
theorem exists_pos_of_sum_pos {f : ι → ℤ} (h : 0 < ∑ k ∈ S, f k) : ∃ i ∈ S, 0 < f i := by
  by_contra hnone
  have hle : ∀ i ∈ S, f i ≤ 0 := fun i hi => not_lt.mp fun hpos => hnone ⟨i, hi, hpos⟩
  exact absurd h (not_lt.mpr (Finset.sum_nonpos hle))

end Runloom.Transition
