import Runloom.Heap.Binary

/-!
# The sifts of a heap whose entry 0 is not used

The entries are `a 1` to `a n`.  An entry is moved by swaps, or it is held back while the others are moved past the
hole that it will be stored in; both leave the same array.  The order is a test `less` on the entries, and the results
hold where `less` compares their keys.
-/

namespace Runloom.Heap.OneBased

open Function (update update_self update_of_ne)

variable {α κ : Type*} [LinearOrder κ] (less : α → α → Bool) {key : α → κ} {a : ℕ → α} {n i : ℕ} {x : α}

/-- The entry at `i` is swapped with its parent while it comes before it. -/
def swapUp (a : ℕ → α) (i : ℕ) : (ℕ → α) × ℕ :=
  if 1 < i ∧ less (a i) (a (i / 2)) then swapUp (swapAt a i (i / 2)) (i / 2) else (a, i)
termination_by i
decreasing_by omega

/-- The entry `x` is to be stored at `i`: the parents it comes before move down first. -/
def holeUp (a : ℕ → α) (i : ℕ) (x : α) : ℕ → α :=
  if 1 < i ∧ less x (a (i / 2)) then holeUp (update a i (a (i / 2))) (i / 2) x else update a i x
termination_by i
decreasing_by omega

/-- The child of `i` that comes first. -/
def child (a : ℕ → α) (n i : ℕ) : ℕ :=
  if 2 * i + 1 ≤ n ∧ less (a (2 * i + 1)) (a (2 * i)) then 2 * i + 1 else 2 * i

theorem child_eq (a : ℕ → α) (n i : ℕ) : child less a n i = 2 * i ∨ child less a n i = 2 * i + 1 := by
  unfold child
  split <;> simp

theorem child_le (h : 2 * i ≤ n) : child less a n i ≤ n := by
  unfold child
  split <;> omega

/-- The entry at `i` is swapped with its least child while that comes before it. -/
def swapDown (a : ℕ → α) (n i : ℕ) : ℕ → α :=
  if 0 < i ∧ 2 * i ≤ n ∧ less (a (child less a n i)) (a i) then
    swapDown (swapAt a i (child less a n i)) n (child less a n i)
  else a
termination_by n + 1 - i
decreasing_by
  have := child_eq less a n i
  omega

/-- The entry `x` is to be stored at `i`: the children that come before it move up first. -/
def holeDown (a : ℕ → α) (n i : ℕ) (x : α) : ℕ → α :=
  if 0 < i ∧ 2 * i ≤ n ∧ less (a (child less a n i)) x then
    holeDown (update a i (a (child less a n i))) n (child less a n i) x
  else update a i x
termination_by n + 1 - i
decreasing_by
  have := child_eq less a n i
  omega

/-! ### A hole is an entry that has not been stored yet -/

theorem holeUp_eq (a : ℕ → α) (i : ℕ) (x : α) : holeUp less a i x = (swapUp less (update a i x) i).1 := by
  induction a, i using holeUp.induct less x with
  | case1 a i h ih =>
    have hne : i / 2 ≠ i := by omega
    rw [holeUp, if_pos h, swapUp, update_self, update_of_ne hne, if_pos h, swapAt_update _ hne]
    exact ih
  | case2 a i h =>
    rw [holeUp, if_neg h, swapUp, update_self, if_neg]
    intro ⟨hi, hlt⟩
    rw [update_of_ne (by omega)] at hlt
    exact h ⟨hi, hlt⟩

theorem holeUp_update (a : ℕ → α) (i : ℕ) (x y : α) : holeUp less (update a i y) i x = holeUp less a i x := by
  rw [holeUp_eq, holeUp_eq, Function.update_idem]

theorem child_update (hi : 0 < i) (x : α) : child less (update a i x) n i = child less a n i := by
  unfold child
  rw [update_of_ne (by omega), update_of_ne (by omega)]

theorem holeDown_eq (a : ℕ → α) (n i : ℕ) (x : α) : holeDown less a n i x = swapDown less (update a i x) n i := by
  induction a, i using holeDown.induct less n x with
  | case1 a i h ih =>
    have hne : child less a n i ≠ i := by
      have := child_eq less a n i
      omega
    rw [holeDown, if_pos h, swapDown, child_update less h.1, update_self, update_of_ne hne,
      if_pos h, swapAt_update _ hne]
    exact ih
  | case2 a i h =>
    rw [holeDown, if_neg h, swapDown, update_self, if_neg]
    intro ⟨hi, hn, hlt⟩
    have hne : child less a n i ≠ i := by
      have := child_eq less a n i
      omega
    rw [child_update less hi, update_of_ne hne] at hlt
    exact h ⟨hi, hn, hlt⟩

/-! ### What the sifts leave -/

variable {less} (hless : ∀ x y, less x y = true ↔ key x < key y)

include hless

theorem swapUp_spec (h : UpReady oneBased key a n i) (hi : 1 ≤ i ∧ i < n) :
    Ordered oneBased key (swapUp less a i).1 n ∧ entries oneBased (swapUp less a i).1 n = entries oneBased a n ∧
      1 ≤ (swapUp less a i).2 ∧ (swapUp less a i).2 < n := by
  induction a, i using swapUp.induct less with
  | case1 a i hc ih =>
    have hlt : key (a i) < key (a (i / 2)) := (hless _ _).mp hc.2
    have hp : 1 ≤ i / 2 ∧ i / 2 < n := by omega
    rw [swapUp, if_pos hc]
    obtain ⟨ho, he, hr⟩ := ih (h.swap hc.1 hi.2 hlt) hp
    exact ⟨ho, he.trans (entries_swap hi hp), hr⟩
  | case2 a i hc =>
    rw [swapUp, if_neg hc]
    refine ⟨h.ordered fun hr => ?_, rfl, hi⟩
    by_contra hlt
    exact hc ⟨hr, (hless _ _).mpr (not_le.mp hlt)⟩

theorem child_le_key (j : ℕ) (hr : 1 < j) (hn : j < n + 1) (hj : j / 2 = i) :
    key (a (child less a n i)) ≤ key (a j) := by
  have hcase : j = 2 * i ∨ j = 2 * i + 1 := by omega
  unfold child
  split
  next h =>
    have hlt := (hless _ _).mp h.2
    rcases hcase with rfl | rfl
    · exact hlt.le
    · exact le_rfl
  next h =>
    rcases hcase with rfl | rfl
    · exact le_rfl
    · by_contra hlt
      exact h ⟨by omega, (hless _ _).mpr (not_le.mp hlt)⟩

theorem swapDown_spec (h : DownReady oneBased key a (n + 1) i) (hi : 1 ≤ i ∧ i < n + 1) :
    Ordered oneBased key (swapDown less a n i) (n + 1) ∧
      entries oneBased (swapDown less a n i) (n + 1) = entries oneBased a (n + 1) := by
  induction a, i using swapDown.induct less n with
  | case1 a i hc ih =>
    have hlt := (hless _ _).mp hc.2.2
    have hchild := child_eq less a n i
    have hle : child less a n i ≤ n := child_le less hc.2.1
    have hr : 1 < child less a n i := by omega
    have hp : child less a n i / 2 = i := by omega
    have hc' : 1 ≤ child less a n i ∧ child less a n i < n + 1 := by omega
    rw [swapDown, if_pos hc]
    obtain ⟨ho, he⟩ := ih (h.swap hr (by omega) hp hlt (child_le_key hless)) hc'
    exact ⟨ho, he.trans (entries_swap hi hc')⟩
  | case2 a i hc =>
    rw [swapDown, if_neg hc]
    refine ⟨h.ordered fun j hr hn hj => ?_, rfl⟩
    have hlt : ¬key (a (child less a n i)) < key (a i) := by
      intro hlt
      have hj2 : j / 2 = i := hj
      exact hc ⟨by omega, by omega, (hless _ _).mpr hlt⟩
    exact (not_lt.mp hlt).trans (child_le_key hless j hr hn hj)

theorem sift_spec (h : Loose oneBased key a (n + 1) i) (hi : 1 ≤ i ∧ i < n + 1) :
    Ordered oneBased key (swapDown less (swapUp less a i).1 n (swapUp less a i).2) (n + 1) ∧
      entries oneBased (swapDown less (swapUp less a i).1 n (swapUp less a i).2) (n + 1) =
        entries oneBased a (n + 1) := by
  by_cases hc : 1 < i ∧ less (a i) (a (i / 2))
  · -- The entry goes up, and below it all is in order already.
    obtain ⟨ho, he, hr, hn⟩ := swapUp_spec hless (h.up hc.1 ((hless _ _).mp hc.2)) hi
    obtain ⟨ho', he'⟩ := swapDown_spec hless (ho.downReady hn) ⟨hr, hn⟩
    exact ⟨ho', he'.trans he⟩
  · have hstay : swapUp less a i = (a, i) := by rw [swapUp, if_neg hc]
    rw [hstay]
    apply swapDown_spec hless _ hi
    apply h.down
    intro hr
    by_contra hlt
    exact hc ⟨hr, (hless _ _).mpr (not_le.mp hlt)⟩

/-! ### What the operations leave -/

theorem push_spec (h : Ordered oneBased key a (n + 1)) (x : α) :
    Ordered oneBased key (holeUp less a (n + 1) x) (n + 2) ∧
      entries oneBased (holeUp less a (n + 1) x) (n + 2) = x ::ₘ entries oneBased a (n + 1) := by
  obtain ⟨ho, he, -⟩ := swapUp_spec hless (h.push x) (show 1 ≤ n + 1 ∧ n + 1 < n + 2 by omega)
  rw [holeUp_eq]
  exact ⟨ho, he.trans (entries_push (show oneBased.root ≤ n + 1 from Nat.le_add_left 1 n) x)⟩

section

variable (h : Ordered oneBased key a (n + 2))
include h

omit hless in
theorem tail_spec :
    Ordered oneBased key a (n + 1) ∧ a (n + 1) ::ₘ entries oneBased a (n + 1) = entries oneBased a (n + 2) :=
  ⟨h.shrink (Nat.le_succ _), (entries_succ (show oneBased.root ≤ n + 1 from Nat.le_add_left 1 n)).symm⟩

theorem remove_spec (hi : 1 ≤ i ∧ i < n + 1) (b : ℕ → α) (hb : b = update a i (a (n + 1))) :
    Ordered oneBased key (swapDown less (swapUp less b i).1 n (swapUp less b i).2) (n + 1) ∧
      a i ::ₘ entries oneBased (swapDown less (swapUp less b i).1 n (swapUp less b i).2) (n + 1) =
        entries oneBased a (n + 2) := by
  obtain ⟨htail, hent⟩ := tail_spec h
  obtain ⟨ho, he⟩ := sift_spec hless (hb ▸ htail.loose hi.2 (a (n + 1))) hi
  refine ⟨ho, ?_⟩
  rw [he, hb, entries_update hi, hent]

theorem pop_spec (hn : n ≠ 0) : Ordered oneBased key (holeDown less a n 1 (a (n + 1))) (n + 1) ∧
      a 1 ::ₘ entries oneBased (holeDown less a n 1 (a (n + 1))) (n + 1) = entries oneBased a (n + 2) := by
  have hi : 1 ≤ 1 ∧ 1 < n + 1 := by omega
  obtain ⟨ho, he⟩ := remove_spec hless h hi _ rfl
  have hstay : swapUp less (update a 1 (a (n + 1))) 1 = (update a 1 (a (n + 1)), 1) := by
    rw [swapUp, if_neg fun hc => lt_irrefl 1 hc.1]
  rw [hstay, ← holeDown_eq] at ho he
  exact ⟨ho, he⟩

end

end Runloom.Heap.OneBased
