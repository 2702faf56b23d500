import Mathlib.Data.Int.Bitwise
import Mathlib.Data.Int.Range
import Mathlib.Data.List.Range
import Mathlib.Data.Nat.ModEq
import Mathlib.Tactic.Ring

/-!
# Windows of a power-of-two ring

A ring of `2 ^ k` slots addressed by free-running indices: index `i` lives in slot
`i & (2 ^ k - 1)`.  Two indices less than `2 ^ k` apart never share a slot, so a window
`[lo, hi)` with `hi - lo ≤ 2 ^ k` reads back what was stored at each of its indices.
-/

namespace Runloom.Ring

open List

/-! ## Integer ranges -/

theorem range_eq_cons {lo hi : ℤ} (h : lo < hi) : Int.range lo hi = lo :: Int.range (lo + 1) hi := by
  have hn : (hi - lo).toNat = (hi - (lo + 1)).toNat + 1 := by omega
  simp only [Int.range, hn, range_succ_eq_map, map_cons, map_map]
  congr 1
  · simp
  · refine map_congr_left fun j _ => ?_
    simp only [Function.comp_apply, Nat.succ_eq_add_one]
    push_cast
    ring

theorem range_succ_eq_concat {lo hi : ℤ} (h : lo ≤ hi) : Int.range lo (hi + 1) = Int.range lo hi ++ [hi] := by
  have hn : (hi + 1 - lo).toNat = (hi - lo).toNat + 1 := by omega
  simp only [Int.range, hn, range_succ, map_append, map_cons, map_nil]
  congr 2
  omega

theorem range_eq_nil {lo hi : ℤ} (h : hi ≤ lo) : Int.range lo hi = [] := by
  have hn : (hi - lo).toNat = 0 := by omega
  simp [Int.range, hn]

/-! ## Masked slots -/

/-- The slot of index `i` in a ring of `2 ^ k` slots. -/
def maskSlot (k : ℕ) (i : ℤ) : ℕ := (Int.land i (2 ^ k - 1)).toNat

theorem maskSlot_eq_mod {k : ℕ} {i : ℤ} (h : 0 ≤ i) : maskSlot k i = i.toNat % 2 ^ k := by
  obtain ⟨n, rfl⟩ := Int.eq_ofNat_of_zero_le h
  have hm : (2 : ℤ) ^ k - 1 = ((2 ^ k - 1 : ℕ) : ℤ) := by
    have : 1 ≤ 2 ^ k := Nat.one_le_two_pow
    push_cast [this]
    rfl
  rw [maskSlot, hm]
  change (((n &&& (2 ^ k - 1) : ℕ) : ℤ)).toNat = _
  rw [Int.toNat_natCast, Int.toNat_natCast, Nat.and_two_pow_sub_one_eq_mod]

theorem maskSlot_ne {k : ℕ} {i j : ℤ} (hi : 0 ≤ i) (hij : i < j) (hj : j - i < 2 ^ k) :
    maskSlot k i ≠ maskSlot k j := by
  rw [maskSlot_eq_mod hi, maskSlot_eq_mod (by omega)]
  intro h
  have hdvd : 2 ^ k ∣ j.toNat - i.toNat := (Nat.modEq_iff_dvd' (by omega)).mp h
  have hlt : ((j.toNat - i.toNat : ℕ) : ℤ) < ((2 ^ k : ℕ) : ℤ) := by
    push_cast
    omega
  have := Nat.le_of_dvd (by omega) hdvd
  omega

end Runloom.Ring

/-!
## A ring buffer with wrapped indices

`cap` slots, the position `head` of the oldest entry and the number `len` of entries; entry `i` is
in slot `(head + i) % cap`.  The entries are distinct slots as long as `len ≤ cap`, so a store to the
slot after the last entry appends, and stepping `head` on drops the first.
-/

namespace Runloom.Ring

open List
open Function (update update_self update_of_ne)

variable {α : Type*}

def contents (buf : ℕ → α) (cap head len : ℕ) : List α :=
  (List.range len).map fun i => buf ((head + i) % cap)

theorem contents_zero (buf : ℕ → α) (cap head : ℕ) : contents buf cap head 0 = [] := rfl

variable {cap head : ℕ}

theorem slot_inj {i j : ℕ} (hi : i < cap) (hj : j < cap) (h : (head + i) % cap = (head + j) % cap) : i = j := by
  have hij : i ≡ j [MOD cap] := Nat.ModEq.add_left_cancel' head h
  exact Nat.ModEq.eq_of_lt_of_lt hij hi hj

variable {len : ℕ}

theorem contents_update_of_ne {buf : ℕ → α} {k : ℕ} {x : α} (h : ∀ i, i < len → (head + i) % cap ≠ k) :
    contents (update buf k x) cap head len = contents buf cap head len := by
  apply map_congr_left
  intro i hi
  exact update_of_ne (h i (mem_range.mp hi)) _ _

theorem contents_push {buf : ℕ → α} {x : α} (h : len < cap) :
    contents (update buf ((head + len) % cap) x) cap head (len + 1) = contents buf cap head len ++ [x] := by
  have hold : contents (update buf ((head + len) % cap) x) cap head len =
      contents buf cap head len := by
    apply contents_update_of_ne
    intro i hi heq
    have := slot_inj (by omega) h heq
    omega
  rw [← hold]
  simp only [contents, range_succ, map_append, map_cons, map_nil, update_self]

theorem contents_pop {buf : ℕ → α} {x : α} (hlen : len + 1 ≤ cap) (hhead : head < cap) :
    contents buf cap head (len + 1) = buf head :: contents (update buf head x) cap ((head + 1) % cap) len := by
  have hfirst : (head + 0) % cap = head := by
    rw [Nat.add_zero]
    exact Nat.mod_eq_of_lt hhead
  simp only [contents, range_succ_eq_map, map_cons, map_map, hfirst]
  congr 1
  apply map_congr_left
  intro i hi
  have hslot : ((head + 1) % cap + i) % cap = (head + (i + 1)) % cap := by
    rw [Nat.mod_add_mod, Nat.add_assoc, Nat.add_comm 1 i]
  have hne : ((head + 1) % cap + i) % cap ≠ head := by
    rw [hslot]
    intro heq
    have hlt : i < len := mem_range.mp hi
    have := slot_inj (by omega) (by omega) (heq.trans hfirst.symm)
    omega
  rw [update_of_ne hne, hslot]
  rfl

theorem mod_add_one_add : ((head + 1) % cap + len) % cap = (head + (len + 1)) % cap := by
  rw [Nat.mod_add_mod, Nat.add_assoc, Nat.add_comm 1 len]

theorem mod_add_one {k : ℕ} : (k % cap + 1) % cap = (k + 1) % cap :=
  Nat.mod_add_mod ..

end Runloom.Ring
