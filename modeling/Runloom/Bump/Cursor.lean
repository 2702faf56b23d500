import Mathlib.Data.List.Range
import Mathlib.Data.List.Nodup

/-!
# Bump allocators that keep only a cursor and a count

Slots are handed out at the cursor.  A range that is given back lowers the count of the slots that
are out; the cursor goes back to zero when nothing is out, and to the start of the range when the
range was the last one.
-/

namespace Runloom.Bump

open List
open Function (update update_self update_of_ne)

structure Cursor where
  next : Nat
  live : Nat

namespace Cursor

def alloc (c : Cursor) (n : Nat) : Cursor :=
  { next := c.next + n, live := c.live + n }

def free (c : Cursor) (start n : Nat) : Cursor :=
  let live := if n ≤ c.live then c.live - n else c.live
  { next := if live = 0 then 0 else if start + n = c.next then start else c.next, live := live }

end Cursor

/-- The slots `out` are the ones handed out and not given back. -/
structure Ok (c : Cursor) (out : List Nat) : Prop where
  nodup : out.Nodup
  below : ∀ i ∈ out, i < c.next
  live : c.live = out.length

def without (out : List Nat) (start n : Nat) : List Nat :=
  out.filter fun i => decide (¬(start ≤ i ∧ i < start + n))

variable {c : Cursor} {out : List Nat} {start n i : Nat}

theorem mem_without : i ∈ without out start n ↔ i ∈ out ∧ ¬(start ≤ i ∧ i < start + n) := by
  unfold without
  rw [mem_filter, decide_eq_true_iff]

theorem ok_empty : Ok ⟨0, 0⟩ [] where
  nodup := nodup_nil
  below := nofun
  live := rfl

theorem Ok.alloc (h : Ok c out) : Ok (c.alloc n) (out ++ List.range' c.next n) where
  nodup := by
    apply List.Nodup.append h.nodup nodup_range'
    intro i hi hi'
    have := h.below i hi
    have := (mem_range'_1.mp hi').1
    omega
  below i hi := by
    show i < c.next + n
    rcases mem_append.mp hi with hi | hi
    · have := h.below i hi
      omega
    · exact (mem_range'_1.mp hi).2
  live := by
    show c.live + n = _
    rw [length_append, length_range', h.live]

theorem length_without (hn : out.Nodup) (hsub : ∀ i, start ≤ i → i < start + n → i ∈ out) :
    (without out start n).length + n = out.length := by
  have hperm : (out.filter fun i => decide (start ≤ i ∧ i < start + n)).Perm (List.range' start n) := by
    rw [perm_ext_iff_of_nodup (hn.filter _) nodup_range']
    intro i
    rw [mem_filter, decide_eq_true_iff, mem_range'_1]
    exact ⟨fun h => h.2, fun h => ⟨hsub i h.1 h.2, h⟩⟩
  have hsplit := length_eq_length_filter_add (l := out) fun i => decide (start ≤ i ∧ i < start + n)
  rw [hperm.length_eq, length_range'] at hsplit
  rw [hsplit, Nat.add_comm]
  congr 2
  apply filter_congr
  exact fun i _ => decide_not

theorem Ok.free (h : Ok c out) (hsub : ∀ i, start ≤ i → i < start + n → i ∈ out) :
    Ok (c.free start n) (without out start n) := by
  have hlen := length_without h.nodup hsub
  have hle : n ≤ c.live := by
    rw [h.live]
    omega
  have hlive : (c.free start n).live = (without out start n).length := by
    simp only [Cursor.free]
    rw [if_pos hle, h.live]
    omega
  refine ⟨h.nodup.filter _, ?_, hlive⟩
  intro i hi
  obtain ⟨hout, hrange⟩ := mem_without.mp hi
  have hbelow := h.below i hout
  have hpos : (c.free start n).live ≠ 0 := by
    rw [hlive]
    exact length_pos_of_mem hi |>.ne'
  simp only [Cursor.free] at hpos ⊢
  rw [if_neg hpos]
  split
  · omega
  · exact hbelow

/-! ## Allocators with owners

`owns o c i` says that the owner `o` has the slot `i` of the allocator `c`. -/

section Owners

variable {O C : Type*}

structure Owned (cursor : C → Cursor) (out : C → List Nat) (owns : O → C → Nat → Prop) : Prop where
  ok : ∀ c, Ok (cursor c) (out c)
  out : ∀ o c i, owns o c i → i ∈ out c
  unique : ∀ o p c i, owns o c i → owns p c i → o = p

variable {cursor : C → Cursor} {outs : C → List Nat} {owns owns' : O → C → Nat → Prop} {o p : O} {k : C}

section

variable (h : Owned cursor outs owns)
include h

theorem Owned.below (ho : owns o k i) : i < (cursor k).next :=
  (h.ok k).below i (h.out o k i ho)

theorem Owned.mono (hsub : ∀ o c i, owns' o c i → owns o c i) : Owned cursor outs owns' where
  ok := h.ok
  out o c i ho := h.out o c i (hsub o c i ho)
  unique o p c i ho hp := h.unique o p c i (hsub o c i ho) (hsub p c i hp)

theorem Owned.transfer (ho : owns o k i) (hnew : ∀ q c j, owns' q c j →
      owns q c j ∧ ¬(q = o ∧ c = k ∧ j = i) ∨ q = p ∧ c = k ∧ j = i) :
    Owned cursor outs owns' where
  ok := h.ok
  out q c j hq := by
    rcases hnew q c j hq with hq | ⟨-, rfl, rfl⟩
    · exact h.out q c j hq.1
    · exact h.out o c j ho
  unique q r c j hq hr := by
    -- Nobody but `o` had the slot before.
    have hstays : ∀ q, owns q k i → ¬(q = o ∧ k = k ∧ i = i) → False := fun q hq hne =>
      hne ⟨h.unique q o k i hq ho, rfl, rfl⟩
    rcases hnew q c j hq with hq | ⟨rfl, rfl, rfl⟩ <;> rcases hnew r c j hr with hr | ⟨rfl, hc, hj⟩
    · exact h.unique q r c j hq.1 hr.1
    · subst hc hj
      exact (hstays q hq.1 hq.2).elim
    · exact (hstays r hr.1 hr.2).elim
    · rfl

end

variable [DecidableEq C]

theorem Owned.alloc (h : Owned cursor outs owns) (hnew : ∀ q c j, owns' q c j →
      owns q c j ∨ q = o ∧ c = k ∧ (cursor k).next ≤ j ∧ j < (cursor k).next + n) :
    Owned (update cursor k ((cursor k).alloc n))
      (update outs k (outs k ++ List.range' (cursor k).next n)) owns' where
  ok c := by
    by_cases hc : c = k
    · subst hc
      rw [update_self, update_self]
      exact (h.ok c).alloc
    · rw [update_of_ne hc, update_of_ne hc]
      exact h.ok c
  out q c j hq := by
    rcases hnew q c j hq with hq | ⟨-, rfl, hj⟩
    · have hj := h.out q c j hq
      by_cases hc : c = k
      · subst hc
        rw [update_self]
        exact mem_append_left _ hj
      · rw [update_of_ne hc]
        exact hj
    · rw [update_self]
      exact mem_append_right _ (mem_range'_1.mpr hj)
  unique q r c j hq hr := by
    rcases hnew q c j hq with hq | ⟨rfl, rfl, hj⟩ <;> rcases hnew r c j hr with hr | ⟨rfl, hc, hj'⟩
    · exact h.unique q r c j hq hr
    · subst hc
      have := h.below hq
      omega
    · have := h.below hr
      omega
    · rfl

theorem Owned.free (h : Owned cursor outs owns) (ho : ∀ j, start ≤ j → j < start + n → owns o k j)
    (hnew : ∀ q c j, owns' q c j → owns q c j ∧ ¬(c = k ∧ start ≤ j ∧ j < start + n)) :
    Owned (update cursor k ((cursor k).free start n)) (update outs k (without (outs k) start n)) owns' where
  ok c := by
    by_cases hc : c = k
    · subst hc
      rw [update_self, update_self]
      exact (h.ok c).free fun j hj hj' => h.out o c j (ho j hj hj')
    · rw [update_of_ne hc, update_of_ne hc]
      exact h.ok c
  out q c j hq := by
    obtain ⟨hq, hj⟩ := hnew q c j hq
    have hout := h.out q c j hq
    by_cases hc : c = k
    · subst hc
      rw [update_self]
      exact mem_without.mpr ⟨hout, fun h => hj ⟨rfl, h⟩⟩
    · rw [update_of_ne hc]
      exact hout
  unique q r c j hq hr := h.unique q r c j (hnew q c j hq).1 (hnew r c j hr).1

end Owners

end Runloom.Bump
