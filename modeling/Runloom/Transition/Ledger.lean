import Mathlib.Algebra.BigOperators.Ring.Finset
import Mathlib.Algebra.Order.Ring.Int

/-!
# Ledgers

Two ways to say that a shared thing is accounted for.

A reference count is right when it is the number of the parties that hold a reference: `Counted`.  A step of a program
gains a holder, loses one, or passes a reference from one to another.

A token that moves between lists is never lost or doubled when a function says in which list it is, and it is there
once and nowhere else: `Placed`.
-/

namespace Runloom.Transition

open List
open Function (update update_self update_of_ne)

/-! ## Counted holders -/

section Counted

variable {X : Type*} {p q : X → Prop} {n : ℤ} {x y : X}

/-- Exactly `n` parties hold. -/
def Counted (p : X → Prop) (n : ℤ) : Prop :=
  ∃ S : Finset X, (∀ x, x ∈ S ↔ p x) ∧ (S.card : ℤ) = n

theorem Counted.congr (h : Counted p n) (hpq : ∀ x, q x ↔ p x) : Counted q n := by
  obtain ⟨S, hS, hn⟩ := h
  exact ⟨S, fun x => (hS x).trans (hpq x).symm, hn⟩

theorem counted_zero (h : ∀ x, ¬p x) : Counted p 0 :=
  ⟨∅, fun x => iff_of_false (Finset.notMem_empty x) (h x), rfl⟩

section

variable (h : Counted p n)
include h

theorem Counted.nonneg : 0 ≤ n := by
  obtain ⟨S, -, rfl⟩ := h
  exact Int.natCast_nonneg _

theorem Counted.pos (hx : p x) : 1 ≤ n := by
  obtain ⟨S, hS, rfl⟩ := h
  have := Finset.card_pos.mpr ⟨x, (hS x).mpr hx⟩
  omega

theorem Counted.none (hn : n ≤ 0) (x : X) : ¬p x := by
  intro hx
  have := h.pos hx
  omega

theorem Counted.gain (hx : ¬p x) (hq : ∀ y, q y ↔ y = x ∨ p y) : Counted q (n + 1) := by
  classical
  obtain ⟨S, hS, rfl⟩ := h
  refine ⟨insert x S, fun y => ?_, ?_⟩
  · rw [Finset.mem_insert, hS, hq]
  · rw [Finset.card_insert_of_notMem (mt (hS x).mp hx)]
    rfl

theorem Counted.lose (hx : p x) (hq : ∀ y, q y ↔ y ≠ x ∧ p y) : Counted q (n - 1) := by
  classical
  obtain ⟨S, hS, rfl⟩ := h
  have hmem := (hS x).mpr hx
  refine ⟨S.erase x, fun y => ?_, ?_⟩
  · rw [Finset.mem_erase, hS, hq]
  · rw [Finset.card_erase_of_mem hmem]
    have := Finset.card_pos.mpr ⟨x, hmem⟩
    omega

theorem Counted.pass (hx : p x) (hy : ¬p y) (hq : ∀ z, q z ↔ z = y ∨ z ≠ x ∧ p z) :
    Counted q n := by
  have hlost : Counted (fun z => z ≠ x ∧ p z) (n - 1) := h.lose hx fun _ => Iff.rfl
  have := hlost.gain (fun hz => hy hz.2) hq
  rwa [Int.sub_add_cancel] at this

end

theorem Counted.or {m : ℤ} (hp : Counted p m) (hq : Counted q n) (hdisj : ∀ x, p x → ¬q x) :
    Counted (fun x => p x ∨ q x) (m + n) := by
  classical
  obtain ⟨S, hS, rfl⟩ := hp
  obtain ⟨T, hT, rfl⟩ := hq
  refine ⟨S ∪ T, fun x => ?_, ?_⟩
  · rw [Finset.mem_union, hS, hT]
  · rw [Finset.card_union_of_disjoint, Nat.cast_add]
    rw [Finset.disjoint_left]
    exact fun x hx hx' => hdisj x ((hS x).mp hx) ((hT x).mp hx')

theorem counted_by_key {K : Type*} (key : X → K) {T : Finset K} {m : K → ℤ}
    (h : ∀ k ∈ T, Counted (fun x => key x = k ∧ p x) (m k)) (hT : ∀ x, p x → key x ∈ T) :
    Counted p (∑ k ∈ T, m k) := by
  classical
  have hall : Counted (fun x => key x ∈ T ∧ p x) (∑ k ∈ T, m k) := by
    clear hT
    induction T using Finset.induction_on with
    | empty => exact counted_zero fun x hx => Finset.notMem_empty _ hx.1
    | insert k T hk ih =>
      rw [Finset.sum_insert hk]
      have hrest := ih fun j hj => h j (Finset.mem_insert_of_mem hj)
      refine ((h k (Finset.mem_insert_self k T)).or hrest ?_).congr fun x => ?_
      · rintro x ⟨rfl, -⟩ ⟨hx, -⟩
        exact hk hx
      · rw [Finset.mem_insert, or_and_right]
  exact hall.congr fun x => ⟨fun hx => ⟨hT x hx, hx⟩, fun hx => hx.2⟩

theorem counted_filter [DecidablePred p] {S : Finset X} (h : ∀ x, p x → x ∈ S) :
    Counted p (∑ x ∈ S, if p x then 1 else 0) := by
  refine ⟨S.filter p, fun x => ?_, ?_⟩
  · rw [Finset.mem_filter]
    exact ⟨fun hx => hx.2, fun hx => ⟨h x hx, hx⟩⟩
  · exact (Finset.sum_boole p S).symm

end Counted

/-! ## Entries by key -/

theorem sum_by_key {K E : Type*} [DecidableEq K] (key : E → K) {S : Finset K} {f : E → ℤ}
    {l : List E} (h : ∀ e ∈ l, f e = 0 ∨ key e ∈ S) :
    (l.map f).sum = ∑ k ∈ S, ((l.filter fun e => key e = k).map f).sum := by
  induction l with
  | nil => exact Finset.sum_const_zero.symm
  | cons e l ih =>
    have hone : ∀ k, (((e :: l).filter fun e => key e = k).map f).sum =
        (if key e = k then f e else 0) + ((l.filter fun e => key e = k).map f).sum := by
      intro k
      by_cases hk : key e = k
      · rw [filter_cons_of_pos (by simpa using hk), if_pos hk, map_cons, sum_cons]
      · rw [filter_cons_of_neg (by simpa using hk), if_neg hk, Int.zero_add]
    have hsum : ∑ k ∈ S, (if key e = k then f e else 0) = f e := by
      rw [Finset.sum_ite_eq]
      rcases h e mem_cons_self with he | he
      · rw [he, ite_self]
      · rw [if_pos he]
    rw [Finset.sum_congr rfl fun k _ => hone k, Finset.sum_add_distrib, hsum, map_cons,
      sum_cons, ih fun e' he' => h e' (mem_cons_of_mem e he')]

/-! ## Placed tokens -/

section Placed

variable {P X : Type*} [DecidableEq P] [DecidableEq X] {lists : P → List X} {loc : X → Option P}
  {p q : P} {x : X} {l : List X}

/-- Every token is once in the list that `loc` names, and in no other. -/
def Placed (lists : P → List X) (loc : X → Option P) : Prop :=
  ∀ p x, (lists p).count x = if loc x = some p then 1 else 0

section

variable (h : Placed lists loc)
include h

theorem Placed.mem_iff : x ∈ lists p ↔ loc x = some p := by
  rw [← count_pos_iff, h p x]
  split
  next he => exact iff_of_true Nat.zero_lt_one he
  next he => exact iff_of_false (Nat.lt_irrefl 0) he

theorem Placed.add (hx : loc x = none) (hl : l.Perm (x :: lists p)) :
    Placed (update lists p l) (update loc x (some p)) := by
  intro r y
  have hcount : l.count y = (x :: lists p).count y := hl.count_eq y
  have hr := h r y
  have hp := h p y
  by_cases hrp : r = p
  · subst hrp
    rw [update_self, hcount]
    by_cases hyx : y = x
    · subst hyx
      rw [update_self, count_cons_self, hp, hx]
      simp
    · rw [update_of_ne hyx, count_cons_of_ne (Ne.symm hyx)]
      exact hp
  · rw [update_of_ne hrp]
    by_cases hyx : y = x
    · subst hyx
      rw [update_self, hr, hx, if_neg nofun, if_neg]
      exact fun he => hrp (Option.some.inj he).symm
    · rw [update_of_ne hyx]
      exact hr

theorem Placed.remove (hl : (lists p).Perm (x :: l)) : Placed (update lists p l) (update loc x none) := by
  have hloc : loc x = some p := h.mem_iff.mp (hl.symm.subset mem_cons_self)
  intro r y
  have hcount : (lists p).count y = (x :: l).count y := hl.count_eq y
  have hr := h r y
  by_cases hrp : r = p
  · subst hrp
    rw [update_self]
    by_cases hyx : y = x
    · subst hyx
      rw [count_cons_self, hr, if_pos hloc] at hcount
      rw [update_self, if_neg nofun]
      omega
    · rw [count_cons_of_ne (Ne.symm hyx)] at hcount
      rw [update_of_ne hyx, ← hcount]
      exact hr
  · rw [update_of_ne hrp]
    by_cases hyx : y = x
    · subst hyx
      rw [update_self, hr, hloc, if_neg fun he => hrp (Option.some.inj he).symm, if_neg nofun]
    · rw [update_of_ne hyx]
      exact hr

theorem Placed.move {l' : List X} (hpq : p ≠ q) (hl : (lists p).Perm (x :: l)) (hl' : l'.Perm (x :: lists q)) :
    Placed (update (update lists p l) q l') (update loc x (some q)) := by
  have hadd := (h.remove hl).add (x := x) (p := q) (l := l') (update_self ..) ?_
  · rwa [Function.update_idem] at hadd
  · rw [update_of_ne (Ne.symm hpq)]
    exact hl'

theorem Placed.pour (hpq : p ≠ q) (hq : lists q = []) :
    Placed (update (update lists p []) q (lists p)) fun x => if loc x = some p then some q else loc x := by
  intro r y
  have hr := h r y
  have hp := h p y
  have hy : loc y ≠ some q := by
    intro he
    have := h.mem_iff.mpr he
    rw [hq] at this
    cases this
  show _ = if (if loc y = some p then some q else loc y) = some r then 1 else 0
  by_cases hrq : r = q
  · subst hrq
    rw [update_self, hp]
    by_cases he : loc y = some p
    · rw [if_pos he, if_pos (if_pos he)]
    · rw [if_neg he, if_neg he, if_neg hy]
  · rw [update_of_ne hrq]
    by_cases hrp : r = p
    · subst hrp
      rw [update_self, count_nil]
      by_cases he : loc y = some r
      · rw [if_pos he, if_neg fun hqr => hpq (Option.some.inj hqr).symm]
      · rw [if_neg he, if_neg he]
    · rw [update_of_ne hrp, hr]
      by_cases he : loc y = some p
      · rw [if_pos he, he, if_neg fun hpr => hrp (Option.some.inj hpr).symm,
          if_neg fun hqr => hrq (Option.some.inj hqr).symm]
      · rw [if_neg he]

end

end Placed

end Runloom.Transition
