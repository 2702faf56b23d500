import Runloom.Linked.Chain
import Runloom.Slab.Model

/-!
# The lists of the slabs

`Chain m head l` says that the list at `head` in the memory `m` is `l`.  What the three walks of the source find on
such a list, and what the writes leave of it.
-/

namespace Runloom.Slab

open Linked List
open Function (update_self update_of_ne)

def ptr (p : ℕ) : Option ℕ := if p = 0 then none else some p

def nextOf (m : Mem) (g : ℕ) : Option ℕ := ptr (m g .next)

variable {m m' : Mem} {head g x n : ℕ} {l r : List ℕ}

theorem ptr_eq_none {p : ℕ} : ptr p = none ↔ p = 0 := by
  unfold ptr
  split <;> simp_all

theorem ptr_eq_some {p : ℕ} : ptr p = some x ↔ p = x ∧ x ≠ 0 := by
  unfold ptr
  split
  · subst_vars
    constructor
    · intro h
      cases h
    · rintro ⟨rfl, h⟩
      exact absurd rfl h
  · constructor
    · intro h
      cases h
      exact ⟨rfl, ‹_›⟩
    · rintro ⟨rfl, -⟩
      rfl

/-- The structs of `l` are linked in this order from `head` on. -/
structure Chain (m : Mem) (head : ℕ) (l : List ℕ) : Prop where
  head : ptr head = l.head?
  spells : Spells (nextOf m) l

namespace Chain

theorem nil (m : Mem) : Chain m 0 [] := ⟨rfl, trivial⟩

section

variable (h : Chain m head l)
include h

theorem head_eq_zero_iff : head = 0 ↔ l = [] := by
  rw [← ptr_eq_none, h.head, List.head?_eq_none_iff]

theorem exists_cons (hne : head ≠ 0) : ∃ r, l = head :: r ∧ Chain m (m head .next) r := by
  obtain ⟨hhead, hspells⟩ := h
  cases l with
  | nil => exact absurd (ptr_eq_none.mp hhead) hne
  | cons g r =>
    obtain ⟨rfl, -⟩ := ptr_eq_some.mp hhead
    exact ⟨r, rfl, hspells.1, hspells.2⟩

theorem congr (hm : ∀ z ∈ l, m' z .next = m z .next) : Chain m' head l := by
  refine ⟨h.head, h.spells.congr fun z hz => ?_⟩
  rw [nextOf, hm z hz]
  rfl

theorem visits_iff : Visits (nextOf m) (ptr head) g ↔ g ∈ l := by
  rw [h.head]
  exact ⟨h.spells.mem_of_visits, h.spells.visits⟩

end

end Chain

/-! ## Writes -/

variable {f : Field}

theorem setField_self {v : ℕ} : setField m g f v g f = v := by
  rw [setField, update_self, update_self]

theorem setField_of_ne {z : ℕ} {v : ℕ} (h : z ≠ g) : setField m g f v z = m z :=
  update_of_ne h _ _

theorem setField_field_of_ne {z : ℕ} {f' : Field} {v : ℕ} (h : f' ≠ f) : setField m g f v z f' = m z f' := by
  by_cases hz : z = g
  · subst hz
    rw [setField, update_self, update_of_ne h]
  · rw [setField_of_ne hz]

theorem nextOf_setField_next {v : ℕ} : nextOf (setField m g .next v) = Function.update (nextOf m) g (ptr v) := by
  funext z
  by_cases hz : z = g
  · subst hz
    rw [nextOf, setField_self, update_self]
  · rw [nextOf, setField_of_ne hz, update_of_ne hz]
    rfl

theorem memset_of_ne {z lo hi : ℕ} (h : z ≠ g) : memset m g lo hi z = m z :=
  update_of_ne h _ _

theorem scrub_of_ne {z : ℕ} (h : z ≠ g) : State.scrub m g z = m z := by
  rw [State.scrub, memset_of_ne h, setField_of_ne h, memset_of_ne h]

theorem scrub_clear (h : f.introspection = false) : State.scrub m g g f = 0 := by
  simp only [State.scrub, memset, setField, update_self, gstInit]
  cases f <;> first | rfl | cases h

/-! ## Walks -/

theorem batchEnd_spec (k : ℕ) (h : Spells (nextOf m) (g :: r)) :
    ∃ b x r', g :: r = b ++ x :: r' ∧ batchEnd m k g n = (x, n + b.length) := by
  induction k generalizing g r n with
  | zero => exact ⟨[], g, r, rfl, rfl⟩
  | succ k ih =>
    rw [batchEnd]
    by_cases hz : m g .next = 0
    · rw [if_pos hz]
      exact ⟨[], g, r, rfl, rfl⟩
    · rw [if_neg hz]
      cases r with
      | nil => exact absurd (ptr_eq_none.mp h.1) hz
      | cons w r =>
        obtain ⟨hw, -⟩ := ptr_eq_some.mp h.1
        obtain ⟨b, x, r', hsplit, hend⟩ := ih (n := n + 1) h.2
        refine ⟨g :: b, x, r', by rw [hsplit]; rfl, ?_⟩
        rw [hw, hend, length_cons]
        congr 1
        omega

theorem listEnd_spec {fuel : ℕ} (h : Spells (nextOf m) (g :: r)) (hf : r.length ≤ fuel) :
    ∃ b x, g :: r = b ++ [x] ∧ listEnd m fuel g n = some (x, n + b.length) := by
  induction r generalizing g fuel n with
  | nil =>
    refine ⟨[], g, rfl, ?_⟩
    cases fuel <;> rw [listEnd, if_pos (ptr_eq_none.mp h.1)] <;> rfl
  | cons w r ih =>
    obtain ⟨hw, hne⟩ := ptr_eq_some.mp h.1
    obtain ⟨fuel, rfl⟩ : ∃ k, fuel = k + 1 := ⟨fuel - 1, by rw [length_cons] at hf; omega⟩
    obtain ⟨b, x, hsplit, hend⟩ := ih (n := n + 1) h.2 (by simpa using hf)
    refine ⟨g :: b, x, by rw [hsplit]; rfl, ?_⟩
    rw [listEnd, if_neg (by rw [hw]; exact hne), hw, hend, length_cons]
    congr 2
    omega

theorem freeList_spec {fuel : ℕ} {live : List ℕ} (h : Chain m head l) (hf : l.length ≤ fuel) :
    freeList m fuel head live = some (live.diff l) := by
  induction l generalizing head fuel live with
  | nil =>
    cases fuel <;> rw [freeList, if_pos (h.head_eq_zero_iff.mpr rfl), diff_nil]
  | cons g l ih =>
    obtain ⟨rfl, hne⟩ := ptr_eq_some.mp h.head
    obtain ⟨fuel, rfl⟩ : ∃ k, fuel = k + 1 := ⟨fuel - 1, by rw [length_cons] at hf; omega⟩
    rw [freeList, if_neg hne, ih ⟨h.spells.1, h.spells.2⟩ (by simpa using hf), diff_cons]

end Runloom.Slab
