import Mathlib.Algebra.Order.Group.Nat
import Mathlib.Order.Interval.Finset.Nat

/-!
# Binary heaps in an array

The entries of a heap are `a i` for `S.root ≤ i < n`, where `S` says which entry is the root and which one is the
parent of another.  A sift moves one entry along a path of the tree; `UpReady` and `DownReady` say what holds between
two of its moves, so that the invariant of a sift is one of the two, and its result is `Ordered`.
-/

namespace Runloom.Heap

open Function (update update_self update_of_ne)

/-- The tree that an array is read as. -/
structure Shape where
  root : ℕ
  parent : ℕ → ℕ
  root_le {i : ℕ} (h : root < i) : root ≤ parent i
  parent_lt {i : ℕ} (h : root < i) : parent i < i

/-- The children of `i` are `2 * i + 1` and `2 * i + 2`. -/
def zeroBased : Shape where
  root := 0
  parent i := (i - 1) / 2
  root_le _ := Nat.zero_le _
  parent_lt h := by omega

/-- Entry 0 is not used, and the children of `i` are `2 * i` and `2 * i + 1`. -/
def oneBased : Shape where
  root := 1
  parent i := i / 2
  root_le h := by omega
  parent_lt h := by omega

variable {α κ : Type*} [LinearOrder κ] (S : Shape) (key : α → κ) {a : ℕ → α} {n i j : ℕ} {x : α}

/-- The entries `i` and `j` exchanged. -/
def swapAt (a : ℕ → α) (i j : ℕ) : ℕ → α := update (update a i (a j)) j (a i)

theorem swapAt_eq (a : ℕ → α) (i j : ℕ) : swapAt a i j = a ∘ Equiv.swap i j := by
  rw [Equiv.swap_comm, Equiv.comp_swap_eq_update]
  rfl

theorem swapAt_left (a : ℕ → α) (i j : ℕ) : swapAt a i j i = a j := by
  rw [swapAt_eq, Function.comp_apply, Equiv.swap_apply_left]

theorem swapAt_right (a : ℕ → α) (i j : ℕ) : swapAt a i j j = a i := by
  rw [swapAt_eq, Function.comp_apply, Equiv.swap_apply_right]

theorem swapAt_of_ne {k : ℕ} (hi : k ≠ i) (hj : k ≠ j) : swapAt a i j k = a k := by
  rw [swapAt_eq, Function.comp_apply, Equiv.swap_apply_of_ne_of_ne hi hj]

theorem swapAt_update (a : ℕ → α) (hij : j ≠ i) (x : α) :
    swapAt (update a i x) i j = update (update a i (a j)) j x := by
  unfold swapAt
  rw [update_self, update_of_ne hij, Function.update_idem]

/-! ### The entries -/

def entries (a : ℕ → α) (n : ℕ) : Multiset α := (Finset.Ico S.root n).val.map a

variable {S}

theorem mem_entries {y : α} : y ∈ entries S a n ↔ ∃ i, S.root ≤ i ∧ i < n ∧ a i = y := by
  simp only [entries, Multiset.mem_map, Finset.mem_val, Finset.mem_Ico, and_assoc]

theorem entries_congr {b : ℕ → α} (h : ∀ i, S.root ≤ i → i < n → a i = b i) : entries S a n = entries S b n := by
  refine Multiset.map_congr rfl fun i hi => ?_
  obtain ⟨hr, hn⟩ := Finset.mem_Ico.mp (Finset.mem_val.mp hi)
  exact h i hr hn

theorem entries_root (a : ℕ → α) : entries S a S.root = 0 := by
  simp [entries]

theorem entries_succ (h : S.root ≤ n) : entries S a (n + 1) = a n ::ₘ entries S a n := by
  rw [entries, Nat.Ico_succ_right_eq_insert_Ico h, Finset.insert_val_of_notMem Finset.right_notMem_Ico,
    Multiset.map_cons]
  rfl

theorem entries_push (h : S.root ≤ n) (x : α) : entries S (update a n x) (n + 1) = x ::ₘ entries S a n := by
  rw [entries_succ h, update_self, entries_congr]
  intro i _ hi
  exact update_of_ne hi.ne _ _

theorem entries_swap (hi : S.root ≤ i ∧ i < n) (hj : S.root ≤ j ∧ j < n) :
    entries S (swapAt a i j) n = entries S a n := by
  have himage : (Finset.Ico S.root n).image (Equiv.swap i j) = Finset.Ico S.root n := by
    ext k
    simp only [Finset.mem_image, Finset.mem_Ico]
    constructor
    · rintro ⟨m, hm, rfl⟩
      rw [Equiv.swap_apply_def]
      split_ifs <;> omega
    · intro hk
      refine ⟨Equiv.swap i j k, ?_, Equiv.swap_apply_self i j k⟩
      rw [Equiv.swap_apply_def]
      split_ifs <;> omega
  have hval : (Finset.Ico S.root n).val.map (Equiv.swap i j) = (Finset.Ico S.root n).val := by
    rw [← Finset.image_val_of_injOn (Equiv.injective _).injOn, himage]
  rw [entries, swapAt_eq, ← Multiset.map_map, hval]
  rfl

theorem entries_update (hi : S.root ≤ i ∧ i < n) (x : α) :
    a i ::ₘ entries S (update a i x) n = x ::ₘ entries S a n := by
  have hmem : i ∈ (Finset.Ico S.root n).val := Finset.mem_Ico.mpr hi
  have hrest : ∀ b : ℕ → α, entries S b n = b i ::ₘ ((Finset.Ico S.root n).val.erase i).map b := by
    intro b
    rw [← Multiset.map_cons, Multiset.cons_erase hmem]
    rfl
  have hsame : ((Finset.Ico S.root n).val.erase i).map (update a i x) =
      ((Finset.Ico S.root n).val.erase i).map a := by
    refine Multiset.map_congr rfl fun k hk => ?_
    exact update_of_ne ((Finset.Ico S.root n).nodup.mem_erase_iff.mp hk).1 _ _
  rw [hrest, hrest a, update_self, hsame, Multiset.cons_swap]

/-! ### The order -/

variable (S)

def Ordered (a : ℕ → α) (n : ℕ) : Prop :=
  ∀ i, S.root < i → i < n → key (a (S.parent i)) ≤ key (a i)

/-- Between two moves of a sift up: only the entry at `i` may be out of place. -/
structure UpReady (a : ℕ → α) (n i : ℕ) : Prop where
  edge {j : ℕ} (hr : S.root < j) (hn : j < n) (hj : j ≠ i) : key (a (S.parent j)) ≤ key (a j)
  skip {j : ℕ} (hi : S.root < i) (hr : S.root < j) (hn : j < n) (hj : S.parent j = i) :
    key (a (S.parent i)) ≤ key (a j)

/-- Between two moves of a sift down: only a child of `i` may come before the entry at `i`. -/
structure DownReady (a : ℕ → α) (n i : ℕ) : Prop where
  edge {j : ℕ} (hr : S.root < j) (hn : j < n) (hj : S.parent j ≠ i) : key (a (S.parent j)) ≤ key (a j)
  skip {j : ℕ} (hi : S.root < i) (hr : S.root < j) (hn : j < n) (hj : S.parent j = i) :
    key (a (S.parent i)) ≤ key (a j)

/-- An entry has been written over, so that it may be out of order either way. -/
structure Loose (a : ℕ → α) (n i : ℕ) : Prop where
  edge {j : ℕ} (hr : S.root < j) (hn : j < n) (hj : j ≠ i) (hp : S.parent j ≠ i) :
    key (a (S.parent j)) ≤ key (a j)
  skip {j : ℕ} (hi : S.root < i) (hr : S.root < j) (hn : j < n) (hj : S.parent j = i) :
    key (a (S.parent i)) ≤ key (a j)

variable {S key}

namespace Ordered

section

variable (h : Ordered S key a n)
include h

theorem root_le (hr : S.root ≤ i) (hn : i < n) : key (a S.root) ≤ key (a i) := by
  induction i using Nat.strong_induction_on with
  | _ i ih =>
    rcases hr.eq_or_lt with rfl | hlt
    · exact le_rfl
    · have hp := S.parent_lt hlt
      exact (ih _ hp (S.root_le hlt) (hp.trans hn)).trans (h i hlt hn)

theorem shrink {m : ℕ} (hm : m ≤ n) : Ordered S key a m :=
  fun i hr hi => h i hr (hi.trans_le hm)

theorem congr_key {key' : α → κ} (hk : ∀ x ∈ entries S a n, key' x = key x) :
    Ordered S key' a n := by
  intro i hr hn
  have hp := S.parent_lt hr
  rw [hk _ (mem_entries.mpr ⟨i, hr.le, hn, rfl⟩), hk _ (mem_entries.mpr ⟨_, S.root_le hr, hp.trans hn, rfl⟩)]
  exact h i hr hn

theorem downReady (hi : i < n) : DownReady S key a n i where
  edge hr hn _ := h _ hr hn
  skip hir hr hn hj := (h i hir hi).trans (hj ▸ h _ hr hn)

theorem push (x : α) : UpReady S key (update a n x) (n + 1) n where
  edge {j} hr hn hj := by
    have hp := S.parent_lt hr
    rw [update_of_ne hj, update_of_ne (by omega)]
    exact h j hr (by omega)
  skip _ hr hn hj := by
    have hp := S.parent_lt hr
    omega

theorem loose (hi : i < n) (x : α) : Loose S key (update a i x) n i where
  edge hr hn hj hp := by
    rw [update_of_ne hj, update_of_ne hp]
    exact h _ hr hn
  skip {j} hir hr hn hj := by
    have hp := S.parent_lt hir
    have hq := S.parent_lt hr
    rw [update_of_ne (by omega), update_of_ne (by omega)]
    exact (h i hir hi).trans (hj ▸ h j hr hn)

end

end Ordered

theorem Loose.down (h : Loose S key a n i) (hle : S.root < i → key (a (S.parent i)) ≤ key (a i)) :
    DownReady S key a n i where
  edge {j} hr hn hj := by
    by_cases hji : j = i
    · subst hji
      exact hle hr
    · exact h.edge hr hn hji hj
  skip := h.skip

theorem Loose.up (h : Loose S key a n i) (hr : S.root < i) (hlt : key (a i) < key (a (S.parent i))) :
    UpReady S key a n i where
  edge {j} hrj hn hj := by
    by_cases hp : S.parent j = i
    · exact hp ▸ hlt.le.trans (h.skip hr hrj hn hp)
    · exact h.edge hrj hn hj hp
  skip := h.skip

namespace UpReady

theorem ordered (h : UpReady S key a n i) (hle : S.root < i → key (a (S.parent i)) ≤ key (a i)) :
    Ordered S key a n := by
  intro j hr hn
  by_cases hj : j = i
  · subst hj
    exact hle hr
  · exact h.edge hr hn hj

theorem swap (h : UpReady S key a n i) (hi : S.root < i) (hn : i < n) (hlt : key (a i) < key (a (S.parent i))) :
    UpReady S key (swapAt a i (S.parent i)) n (S.parent i) where
  edge {j} hr hjn hj := by
    have hp := S.parent_lt hr
    by_cases hji : j = i
    · subst hji
      rw [swapAt_right, swapAt_left]
      exact hlt.le
    · rw [swapAt_of_ne (k := j) hji hj]
      by_cases hpi : S.parent j = i
      · -- A child of `i` has the old parent above it now.
        rw [hpi, swapAt_left]
        exact h.skip hi hr hjn hpi
      · by_cases hpp : S.parent j = S.parent i
        · rw [hpp, swapAt_right]
          exact hlt.le.trans (hpp ▸ h.edge hr hjn hji)
        · rw [swapAt_of_ne hpi hpp]
          exact h.edge hr hjn hji
  skip {j} hpr hr hjn hj := by
    have hpi := S.parent_lt hi
    have hpp := S.parent_lt hpr
    have habove : key (a (S.parent (S.parent i))) ≤ key (a (S.parent i)) :=
      h.edge hpr (hpi.trans hn) hpi.ne
    rw [swapAt_of_ne (k := S.parent (S.parent i)) (by omega) (by omega)]
    by_cases hji : j = i
    · subst hji
      rw [swapAt_left]
      exact habove
    · have hne : j ≠ S.parent i := by
        have := S.parent_lt hr
        omega
      rw [swapAt_of_ne hji hne]
      exact habove.trans (hj ▸ h.edge hr hjn hji)

end UpReady

namespace DownReady

theorem ordered (h : DownReady S key a n i)
    (hle : ∀ j, S.root < j → j < n → S.parent j = i → key (a i) ≤ key (a j)) : Ordered S key a n := by
  intro j hr hn
  by_cases hj : S.parent j = i
  · exact hj ▸ hle j hr hn hj
  · exact h.edge hr hn hj

theorem swap {c : ℕ} (h : DownReady S key a n i) (hr : S.root < c) (hn : c < n) (hc : S.parent c = i)
    (hlt : key (a c) < key (a i))
    (hleast : ∀ j, S.root < j → j < n → S.parent j = i → key (a c) ≤ key (a j)) :
    DownReady S key (swapAt a i c) n c where
  edge {j} hrj hjn hj := by
    have hic : i < c := hc ▸ S.parent_lt hr
    have hp := S.parent_lt hrj
    by_cases hji : j = i
    · -- The edge into `i`: the child that comes up was not before the parent of `i`.
      subst hji
      rw [swapAt_left, swapAt_of_ne (k := S.parent j) (by omega) hj]
      exact h.skip hrj hr hn hc
    · by_cases hjc : j = c
      · subst hjc
        rw [hc, swapAt_left, swapAt_right]
        exact hlt.le
      · rw [swapAt_of_ne (k := j) hji hjc]
        by_cases hpi : S.parent j = i
        · rw [hpi, swapAt_left]
          exact hleast j hrj hjn hpi
        · rw [swapAt_of_ne hpi hj]
          exact h.edge hrj hjn hpi
  skip {j} _ hrj hjn hj := by
    have hic : i < c := hc ▸ S.parent_lt hr
    have hcj : c < j := hj ▸ S.parent_lt hrj
    rw [hc, swapAt_left, swapAt_of_ne (by omega) (by omega)]
    exact hj ▸ h.edge hrj hjn (by omega)

end DownReady

end Runloom.Heap
