import Mathlib.Data.List.Basic

/-!
# Singly linked chains through a `next` map

Nodes of an intrusive list carry their own `next` field, so a walker that holds a node sees every later change of that
field.  `Visits next p x` says that a walk from the pointer `p` comes to `x`; `Spells next l` that the nodes of `l`
are linked in that order.
-/

namespace Runloom.Linked

open List
open Function (update update_self update_of_ne)

variable {ν : Type*}

/-- A walk from `p` along `next` comes to the node. -/
inductive Visits (next : ν → Option ν) : Option ν → ν → Prop where
  | here {x : ν} : Visits next (some x) x
  | there {x y : ν} (h : Visits next (next x) y) : Visits next (some x) y

/-- The nodes of `l`, linked in order and ended by a null pointer. -/
def Spells (next : ν → Option ν) : List ν → Prop
  | [] => True
  | x :: l => next x = l.head? ∧ Spells next l

variable {next : ν → Option ν} {p q : Option ν} {x y : ν} {l : List ν}

theorem not_visits_none : ¬Visits next none y := nofun

theorem Spells.mem_of_visits (hl : Spells next l) (h : Visits next l.head? y) : y ∈ l := by
  induction l with
  | nil => exact absurd h not_visits_none
  | cons x l ih =>
    cases h with
    | here => exact mem_cons_self
    | there h =>
      rw [hl.1] at h
      exact mem_cons_of_mem x (ih hl.2 h)

theorem Spells.visits (hl : Spells next l) (h : y ∈ l) : Visits next l.head? y := by
  induction l with
  | nil => cases h
  | cons x l ih =>
    rcases mem_cons.mp h with rfl | h
    · exact .here
    · apply Visits.there
      rw [hl.1]
      exact ih hl.2 h

theorem Spells.of_append {m : List ν} (hl : Spells next (l ++ m)) : Spells next m := by
  induction l with
  | nil => exact hl
  | cons x l ih => exact ih hl.2

theorem Spells.congr {next' : ν → Option ν} (hl : Spells next l) (h : ∀ z ∈ l, next' z = next z) :
    Spells next' l := by
  induction l with
  | nil => trivial
  | cons z l ih =>
    refine ⟨?_, ih hl.2 fun w hw => h w (mem_cons_of_mem z hw)⟩
    rw [h z mem_cons_self]
    exact hl.1

variable [DecidableEq ν]

theorem Visits.of_link (h : Visits (update next x p) q y) : Visits next q y ∨ y = x ∨ Visits next p y := by
  induction h with
  | here => exact .inl .here
  | @there z y h ih =>
    by_cases hz : z = x
    · subst hz
      -- The walk goes through `x`: what follows is a walk from `p`.
      rw [update_self] at ih
      rcases ih with h | h | h
      · exact .inr (.inr h)
      · exact .inr (.inl h)
      · exact .inr (.inr h)
    · rw [update_of_ne hz] at ih
      rcases ih with h | h
      · exact .inl (.there h)
      · exact .inr h

theorem Spells.update_of_notMem (hl : Spells next l) (hx : x ∉ l) : Spells (update next x p) l :=
  hl.congr fun z hz => update_of_ne (fun h : z = x => hx (h ▸ hz)) _ _

theorem Spells.push (hl : Spells next l) (hx : x ∉ l) : Spells (update next x l.head?) (x :: l) :=
  ⟨update_self .., hl.update_of_notMem hx⟩

theorem Spells.splice {m k : List ν} (hl : Spells next (l ++ x :: m)) (hk : Spells next k) (hx : x ∉ l) (hxk : x ∉ k) :
    Spells (update next x k.head?) (l ++ x :: k) := by
  induction l with
  | nil => exact hk.push hxk
  | cons z l ih =>
    obtain ⟨hzx, hx⟩ := ne_and_not_mem_of_not_mem_cons hx
    refine ⟨?_, ih hl.2 hx⟩
    rw [update_of_ne (Ne.symm hzx), hl.1]
    cases l <;> rfl

/-- The `next` map after `x` has been cut out of the list `l`. -/
def cut (next : ν → Option ν) : List ν → ν → ν → Option ν
  | z :: w :: l, x => if w = x then update next z (next x) else cut next (w :: l) x
  | _, _ => next

theorem Visits.of_shortcut (hx : next x = some y) {z : ν}
    (h : Visits (update next x (next y)) q z) : Visits next q z := by
  induction h with
  | here => exact .here
  | @there v z h ih =>
    by_cases hv : v = x
    · subst hv
      rw [update_self] at ih
      apply Visits.there
      rw [hx]
      exact .there ih
    · rw [update_of_ne hv] at ih
      exact .there ih

theorem Visits.of_cut (hl : Spells next l) (h : Visits (cut next l x) q y) : Visits next q y := by
  induction l with
  | nil => exact h
  | cons z l ih =>
    cases l with
    | nil => exact h
    | cons w l =>
      unfold cut at h
      split at h
      next hw =>
        subst hw
        exact h.of_shortcut hl.1
      next => exact ih hl.2 h

theorem cut_of_notMem (z : ν) (l : List ν) (hz : z ∉ l) : cut next l x z = next z := by
  induction l with
  | nil => rfl
  | cons v l ih =>
    cases l with
    | nil => rfl
    | cons w l =>
      unfold cut
      split
      · exact update_of_ne (fun h : z = v => hz (h ▸ mem_cons_self)) _ _
      · exact ih fun h => hz (mem_cons_of_mem v h)

theorem Spells.cut (hl : Spells next l) (hd : l.Nodup) : Spells (cut next l x) (l.erase x) := by
  induction l with
  | nil => trivial
  | cons z l ih =>
    obtain ⟨hz, hd⟩ := nodup_cons.mp hd
    cases l with
    | nil =>
      by_cases h : z = x
      · subst h
        rw [erase_cons_head]
        trivial
      · rw [erase_cons_tail (by simpa using h)]
        exact hl
    | cons w l =>
      by_cases h : z = x
      · subst h
        have hw : w ≠ z := fun h => hz (h ▸ mem_cons_self)
        rw [erase_cons_head]
        unfold Linked.cut
        rw [if_neg hw]
        have hcut := ih hl.2 hd
        rwa [erase_of_not_mem hz] at hcut
      · rw [erase_cons_tail (by simpa using h)]
        unfold Linked.cut
        split
        next hw =>
          subst hw
          rw [erase_cons_head]
          refine ⟨?_, hl.2.2.update_of_notMem fun h => hz (mem_cons_of_mem w h)⟩
          rw [update_self]
          exact hl.2.1
        next hw =>
          refine ⟨?_, ih hl.2 hd⟩
          rw [cut_of_notMem z (w :: l) hz, hl.1, erase_cons_tail (by simpa using hw)]
          rfl

end Runloom.Linked
