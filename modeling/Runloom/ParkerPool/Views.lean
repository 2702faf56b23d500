import Runloom.Linked.Doubly
import Runloom.ParkerPool.Model

/-!
# What each structure of the pool holds

For the list, the per-fd index, the heap and the mask, a view says which parkers it holds and that its fields spell
them; for each operation, a lemma says what it makes of the view.
-/

namespace Runloom.ParkerPool

open Linked List
open Function (update update_self update_of_ne update_apply update_eq_self)

/-! ### The list -/

/-- The list spells `l`, and a parker that is not on it has null link fields. -/
structure ListView (L : ParkerList) (l : List Parker) : Prop where
  linked : Doubly L.next L.slot (fun q => some (.next q)) (some .head) l
  head : L.head = l.head?
  nodup : l.Nodup
  slot_none {p : Parker} (hp : p ∉ l) : L.slot p = none
  next_none {p : Parker} (hp : p ∉ l) : L.next p = none

namespace ListView

variable {L : ParkerList} {l : List Parker} {p : Parker}

theorem slot_eq_none_iff (hv : ListView L l) : L.slot p = none ↔ p ∉ l := by
  refine ⟨fun h hp => ?_, hv.slot_none⟩
  rcases hv.linked.first_or_after hp with ⟨-, hs⟩ | ⟨z, -, hs, -⟩ <;> exact absurd (h.symm.trans hs) nofun

theorem clearStale_eq (hv : ListView L l) (hp : p ∉ l) : L.clearStale p = L := by
  unfold ParkerList.clearStale
  rw [hv.head, if_neg (mt mem_of_head? hp)]

end ListView

theorem ParkerList.push_next (L : ParkerList) (p : Parker) : (L.push p).next = update L.next p L.head := by
  unfold push tellNext
  dsimp only
  split <;> rfl

theorem ParkerList.push_slot (L : ParkerList) (p z : Parker) :
    (L.push p).slot z = if z = p then some .head else if L.head = some z then some (.next p) else L.slot z := by
  unfold push tellNext
  simp only [setNext, update_self]
  cases h : L.head with
  | none => simp [setSlot, update_apply]
  | some y =>
    simp only [setSlot, update_apply, Option.some.injEq, eq_comm (a := y)]

namespace ListView

variable {L : ParkerList} {l : List Parker} {p : Parker}

section

variable (hv : ListView L l)
include hv

theorem push (hp : p ∉ l) : ListView (L.push p) (p :: l) where
  linked := by
    have hne : ∀ z ∈ l, z ≠ p := fun z hz e => hp (e ▸ hz)
    apply hv.linked.push
    · rw [L.push_next, update_self, hv.head]
    · rw [L.push_slot, if_pos rfl]
    · intro z hz
      rw [L.push_next, update_of_ne (hne z hz)]
    · intro y hy
      rw [L.push_slot, if_neg (hne y (mem_of_head? hy)), hv.head, if_pos hy]
    · intro z hz
      rw [L.push_slot, if_neg (hne z (mem_of_mem_tail hz)), hv.head, if_neg]
      -- A node of the tail is not the head, for the list has no duplicate.
      cases l with
      | nil => exact absurd hz not_mem_nil
      | cons y l =>
        rintro ⟨⟩
        exact (nodup_cons.mp hv.nodup).1 hz
  head := rfl
  nodup := nodup_cons.mpr ⟨hp, hv.nodup⟩
  slot_none {q} hq := by
    obtain ⟨hqp, hql⟩ := not_or.mp (mt mem_cons.mpr hq)
    rw [L.push_slot, if_neg hqp, hv.head, if_neg (mt mem_of_head? hql)]
    exact hv.slot_none hql
  next_none {q} hq := by
    obtain ⟨hqp, hql⟩ := not_or.mp (mt mem_cons.mpr hq)
    rw [L.push_next, update_of_ne hqp]
    exact hv.next_none hql

theorem unlink_of_notMem (hp : p ∉ l) : L.unlink p = (L, false) := by
  unfold ParkerList.unlink
  rw [hv.slot_none hp]

theorem unlink_eq (hp : p ∈ l) : (L.unlink p).1.head = (if L.slot p = some .head then L.next p else L.head) ∧
    (∀ z, (L.unlink p).1.next z =
      if z = p then none else if L.slot p = some (.next z) then L.next p else L.next z) ∧
    (∀ z, (L.unlink p).1.slot z =
      if z = p then none else if L.next p = some z then L.slot p else L.slot z) := by
  unfold ParkerList.unlink
  rcases hv.linked.first_or_after hp with ⟨-, hs⟩ | ⟨w, hw, hs, hwp⟩
  · cases hn : L.next p with
    | none => simp [hs, hn, ParkerList.store, ParkerList.tellNext, ParkerList.setSlot, ParkerList.setNext,
        update_apply]
    | some y => simp [hs, hn, ParkerList.store, ParkerList.tellNext, ParkerList.setSlot, ParkerList.setNext,
        update_apply, eq_comm (a := y)]
  · -- The cell belongs to the predecessor, which is another parker, so that `p->next` is read back unchanged.
    have hne : p ≠ w := fun e => hv.linked.next_ne_self hv.nodup hw (e ▸ hwp)
    cases hn : L.next p with
    | none => simp [hs, hn, hne, ParkerList.store, ParkerList.tellNext, ParkerList.setSlot, ParkerList.setNext,
        update_apply, eq_comm (a := w)]
    | some y => simp [hs, hn, hne, ParkerList.store, ParkerList.tellNext, ParkerList.setSlot, ParkerList.setNext,
        update_apply, eq_comm (a := y), eq_comm (a := w)]

theorem unlink_touched (hp : p ∈ l) : (L.unlink p).2 = true := by
  unfold ParkerList.unlink
  split
  next h => exact absurd hp (hv.slot_eq_none_iff.mp h)
  next => rfl

theorem slot_head_iff (hp : p ∈ l) : L.slot p = some .head ↔ l.head? = some p := by
  refine ⟨fun h => ?_, fun h => hv.linked.back_of_head h⟩
  rcases hv.linked.first_or_after hp with ⟨hhead, -⟩ | ⟨z, -, hs, -⟩
  · exact hhead
  · exact absurd (h.symm.trans hs) nofun

theorem unlink (hp : p ∈ l) : ListView (L.unlink p).1 (l.erase p) := by
  obtain ⟨hhead, hnext, hslot⟩ := hv.unlink_eq hp
  refine ⟨?_, ?_, hv.nodup.erase p, fun {q} hq => ?_, fun {q} hq => ?_⟩
  · apply hv.linked.erase hv.nodup hp
    · intro z hz hzp
      have hne : z ≠ p := fun e => hv.linked.next_ne_self hv.nodup hz (e ▸ hzp)
      rw [hnext, if_neg hne, if_pos (hv.linked.mem_of_next hz hzp).2]
    · intro z hz hne hzp
      rw [hnext, if_neg hne, if_neg]
      intro hs
      rcases hv.linked.first_or_after hp with ⟨-, hs'⟩ | ⟨w, -, hs', hw⟩
      · exact absurd (hs.symm.trans hs') nofun
      · cases hs.symm.trans hs'
        exact hzp hw
    · intro y hy
      have hne : y ≠ p := fun e => hv.linked.next_ne_self hv.nodup hp (e ▸ hy)
      rw [hslot, if_neg hne, if_pos hy]
    · intro z _ hne hzp
      rw [hslot, if_neg hne, if_neg hzp]
  · rw [hhead, hv.linked.head?_erase, hv.head]
    simp only [hv.slot_head_iff hp]
  · rw [hslot]
    split
    next => rfl
    next hne =>
      have hql : q ∉ l := fun h => hq ((mem_erase_of_ne hne).mpr h)
      rw [if_neg fun h => hql (hv.linked.mem_of_next hp h).1]
      exact hv.slot_none hql
  · rw [hnext]
    split
    next => rfl
    next hne =>
      have hql : q ∉ l := fun h => hq ((mem_erase_of_ne hne).mpr h)
      rw [if_neg]
      · exact hv.next_none hql
      · intro hs
        rcases hv.linked.first_or_after hp with ⟨-, hs'⟩ | ⟨w, hw, hs', -⟩
        · exact absurd (hs.symm.trans hs') nofun
        · cases hs.symm.trans hs'
          exact hql hw

end

end ListView

/-! ### The per-fd index -/

/-- The bucket of `fd` spells `b fd`, and a parker in no bucket has null link fields. -/
structure IndexView (I : FdIndex) (b : ℕ → List Parker) : Prop where
  linked (fd : ℕ) : Doubly I.nextByFd I.prevByFd some none (b fd)
  first (fd : ℕ) : I.byFd fd = (b fd).head?
  nodup (fd : ℕ) : (b fd).Nodup
  unique {p : Parker} {fd fd' : ℕ} (h : p ∈ b fd) (h' : p ∈ b fd') : fd = fd'
  lt_cap {p : Parker} {fd : ℕ} (h : p ∈ b fd) : fd < I.cap
  next_none {p : Parker} (hp : ∀ fd, p ∉ b fd) : I.nextByFd p = none
  prev_none {p : Parker} (hp : ∀ fd, p ∉ b fd) : I.prevByFd p = none

namespace IndexView

variable {I J : FdIndex} {b : ℕ → List Parker} {p : Parker} {fd : ℤ}

section

variable (hv : IndexView I b)
include hv

theorem isFirst_iff (hfd : 0 ≤ fd) : I.IsFirst fd p ↔ (b fd.toNat).head? = some p := by
  unfold FdIndex.IsFirst
  rw [hv.first]
  refine ⟨fun h => h.2.2, fun h => ⟨hfd, ?_, h⟩⟩
  exact hv.lt_cap (mem_of_head? h)

theorem not_isFirst (hp : ∀ fd, p ∉ b fd) : ¬I.IsFirst fd p := by
  intro h
  exact hp _ (mem_of_head? ((hv.isFirst_iff h.1).mp h))

theorem isEmpty_iff : I.IsEmpty fd ↔ b fd.toNat = [] := by
  unfold FdIndex.IsEmpty
  rw [hv.first, List.head?_eq_none_iff]
  refine ⟨fun h => h.elim (fun h => ?_) id, .inr⟩
  exact eq_nil_iff_forall_not_mem.mpr fun q hq => absurd (hv.lt_cap hq) (not_lt.mpr h)

theorem clearStale_eq (hp : ∀ fd, p ∉ b fd) : I.clearStale fd p = I :=
  if_neg (hv.not_isFirst hp)

theorem reset_eq (hp : ∀ fd, p ∉ b fd) : (I.setPrev p none).setNext p none = I := by
  have hprev : update I.prevByFd p none = I.prevByFd := by
    rw [← hv.prev_none hp, update_eq_self]
  have hnext : update I.nextByFd p none = I.nextByFd := by
    rw [← hv.next_none hp, update_eq_self]
  unfold FdIndex.setNext FdIndex.setPrev
  rw [hprev, hnext]

theorem unlink_of_notMem (hp : ∀ fd, p ∉ b fd) : I.unlink fd p = (I, false) := by
  unfold FdIndex.unlink
  simp only [hv.prev_none hp, hv.not_isFirst hp, decide_false, Bool.false_eq_true, if_false, hv.next_none hp,
    hv.reset_eq hp]
  rfl

end

end IndexView

theorem le_doubleAbove (fd n : ℕ) : n ≤ doubleAbove fd n := by
  induction n using doubleAbove.induct fd with
  | case1 n h ih =>
    rw [doubleAbove, if_pos h]
    omega
  | case2 n h => rw [doubleAbove, if_neg h]

theorem lt_doubleAbove (fd n : ℕ) (hn : 0 < n) : fd < doubleAbove fd n := by
  induction n using doubleAbove.induct fd with
  | case1 n h ih =>
    rw [doubleAbove, if_pos h]
    exact ih (by omega)
  | case2 n h =>
    rw [doubleAbove, if_neg h]
    omega

namespace IndexView

variable {I J : FdIndex} {b : ℕ → List Parker} {p : Parker} {fd : ℤ}

theorem ensure (hv : IndexView I b) {r : Bool} (h : I.ensure fd r = some J) :
    IndexView J b ∧ 0 ≤ fd ∧ fd.toNat < J.cap := by
  unfold FdIndex.ensure at h
  split at h
  next => cases h
  next hfd =>
    split at h
    next hlt =>
      cases h
      exact ⟨hv, not_lt.mp hfd, hlt⟩
    next hlt =>
      split at h <;> cases h
      have hcap : I.cap ≤ doubleAbove fd.toNat (if I.cap = 0 then 256 else I.cap * 2) := by
        refine le_trans ?_ (le_doubleAbove _ _)
        split <;> omega
      refine ⟨⟨hv.linked, fun f => ?_, hv.nodup, hv.unique, fun hq => (hv.lt_cap hq).trans_le hcap,
        hv.next_none, hv.prev_none⟩, not_lt.mp hfd, lt_doubleAbove _ _ (by split <;> omega)⟩
      dsimp only
      split
      next => exact hv.first f
      next hf =>
        -- An entry past the old capacity had no parker.
        cases hb : b f with
        | nil => rfl
        | cons q l => exact absurd (hv.lt_cap (hb ▸ mem_cons_self)) hf

end IndexView

theorem FdIndex.push_next (I : FdIndex) (fd : ℤ) (p : Parker) :
    (I.push fd p).nextByFd = update I.nextByFd p (I.byFd fd.toNat) := by
  unfold push
  dsimp only
  split <;> rfl

theorem FdIndex.push_prev (I : FdIndex) (fd : ℤ) (p z : Parker) :
    (I.push fd p).prevByFd z = if I.byFd fd.toNat = some z then some p else I.prevByFd z := by
  unfold push
  dsimp only
  split
  next q hq => simp [setBucket, setPrev, setNext, update_apply, hq, eq_comm (a := q)]
  next hq => simp [setBucket, setNext, hq]

theorem FdIndex.push_byFd (I : FdIndex) (fd : ℤ) (p : Parker) :
    (I.push fd p).byFd = update I.byFd fd.toNat (some p) := by
  unfold push
  dsimp only
  split <;> rfl

theorem FdIndex.push_cap (I : FdIndex) (fd : ℤ) (p : Parker) : (I.push fd p).cap = I.cap := by
  unfold push
  dsimp only
  split <;> rfl

namespace IndexView

variable {I J : FdIndex} {b : ℕ → List Parker} {p : Parker} {fd : ℤ}

section

variable (hv : IndexView I b)
include hv

theorem push (hp : ∀ fd, p ∉ b fd) (hlt : fd.toNat < I.cap) :
    IndexView (I.push fd p) (update b fd.toNat (p :: b fd.toNat)) := by
  have hne : ∀ f, ∀ z ∈ b f, z ≠ p := fun f z hz e => hp f (e ▸ hz)
  have hnext : ∀ f, ∀ z ∈ b f, (I.push fd p).nextByFd z = I.nextByFd z := by
    intro f z hz
    rw [I.push_next, update_of_ne (hne f z hz)]
  have hmem : ∀ {q f}, q ∈ update b fd.toNat (p :: b fd.toNat) f → q = p ∧ f = fd.toNat ∨ q ∈ b f := by
    intro q f hq
    by_cases hf : f = fd.toNat
    · subst hf
      rw [update_self] at hq
      exact (mem_cons.mp hq).imp_left fun h => ⟨h, rfl⟩
    · rw [update_of_ne hf] at hq
      exact .inr hq
  have hnot : ∀ {q}, (∀ f, q ∉ update b fd.toNat (p :: b fd.toNat) f) → q ≠ p ∧ ∀ f, q ∉ b f := by
    intro q hq
    have hq' := hq fd.toNat
    rw [update_self] at hq'
    refine ⟨fun e => hq' (e ▸ mem_cons_self), fun f hf => ?_⟩
    by_cases h : f = fd.toNat
    · subst h
      exact hq' (mem_cons_of_mem p hf)
    · apply hq f
      rwa [update_of_ne h]
  refine ⟨fun f => ?_, fun f => ?_, fun f => ?_, fun {q f f'} h h' => ?_, fun {q f} h => ?_, fun {q} hq => ?_,
    fun {q} hq => ?_⟩
  · by_cases hf : f = fd.toNat
    · subst hf
      rw [update_self]
      apply (hv.linked fd.toNat).push
      · rw [I.push_next, update_self, hv.first]
      · rw [I.push_prev, hv.first, if_neg (mt mem_of_head? (hp _))]
        exact hv.prev_none hp
      · exact hnext fd.toNat
      · intro y hy
        rw [I.push_prev, hv.first, if_pos hy]
      · intro z hz
        rw [I.push_prev, hv.first, if_neg]
        intro hhead
        have hd := hv.nodup fd.toNat
        cases hb : b fd.toNat with
        | nil =>
          rw [hb] at hhead
          cases hhead
        | cons y l =>
          rw [hb] at hhead hz hd
          cases hhead
          exact (nodup_cons.mp hd).1 hz
    · -- The other buckets keep their fields: their parkers are not in this one.
      rw [update_of_ne hf]
      refine (hv.linked f).congr (hnext f) fun z hz => ?_
      rw [I.push_prev, hv.first, if_neg]
      exact fun h => hf (hv.unique hz (mem_of_head? h))
  · rw [I.push_byFd]
    by_cases hf : f = fd.toNat
    · subst hf
      simp only [update_self, List.head?_cons]
    · simp only [update_of_ne hf, hv.first]
  · by_cases hf : f = fd.toNat
    · subst hf
      rw [update_self]
      exact nodup_cons.mpr ⟨hp _, hv.nodup _⟩
    · rw [update_of_ne hf]
      exact hv.nodup f
  · rcases hmem h with ⟨rfl, rfl⟩ | h
    · rcases hmem h' with ⟨-, rfl⟩ | h'
      · rfl
      · exact absurd h' (hp _)
    · rcases hmem h' with ⟨rfl, -⟩ | h'
      · exact absurd ‹q ∈ b f› (hp f)
      · exact hv.unique h h'
  · rw [I.push_cap]
    rcases hmem h with ⟨-, rfl⟩ | h
    · exact hlt
    · exact hv.lt_cap h
  · obtain ⟨hqp, hqb⟩ := hnot hq
    rw [I.push_next, update_of_ne hqp]
    exact hv.next_none hqb
  · obtain ⟨-, hqb⟩ := hnot hq
    rw [I.push_prev, hv.first, if_neg (mt mem_of_head? (hqb _))]
    exact hv.prev_none hqb

theorem unlink_eq (hfd : 0 ≤ fd) (hp : p ∈ b fd.toNat) : (I.unlink fd p).1.byFd =
      (if (b fd.toNat).head? = some p then update I.byFd fd.toNat (I.nextByFd p) else I.byFd) ∧
    (I.unlink fd p).1.cap = I.cap ∧
    (∀ z, (I.unlink fd p).1.nextByFd z =
      if z = p then none else if I.prevByFd p = some z then I.nextByFd p else I.nextByFd z) ∧
    (∀ z, (I.unlink fd p).1.prevByFd z =
      if z = p then none else if I.nextByFd p = some z then I.prevByFd p else I.prevByFd z) ∧
    (I.unlink fd p).2 = true := by
  have hfirst := hv.isFirst_iff (p := p) hfd
  unfold FdIndex.unlink
  rcases (hv.linked fd.toNat).first_or_after hp with ⟨hhead, hprev⟩ | ⟨w, hw, hprev, hwp⟩
  · have hf := hfirst.mpr hhead
    cases hn : I.nextByFd p with
    | none => simp [hprev, hn, hf, hhead, FdIndex.setPrev, FdIndex.setNext, FdIndex.setBucket, update_apply]
    | some y => simp [hprev, hn, hf, hhead, FdIndex.setPrev, FdIndex.setNext, FdIndex.setBucket,
        update_apply, eq_comm (a := y)]
  · -- The predecessor is another parker, so that `p->next_by_fd` is read back unchanged.
    have hne : p ≠ w := fun e => (hv.linked fd.toNat).next_ne_self (hv.nodup _) hw (e ▸ hwp)
    have hhead : (b fd.toNat).head? ≠ some p := by
      intro h
      exact absurd (hprev.symm.trans ((hv.linked fd.toNat).back_of_head h)) nofun
    have hf : I.byFd fd.toNat ≠ some p := hv.first _ ▸ hhead
    cases hn : I.nextByFd p with
    | none => simp [hprev, hn, hf, hhead, hne, FdIndex.IsFirst, FdIndex.setPrev, FdIndex.setNext,
        update_apply, eq_comm (a := w)]
    | some y => simp [hprev, hn, hf, hhead, hne, FdIndex.IsFirst, FdIndex.setPrev, FdIndex.setNext,
        update_apply, eq_comm (a := w), eq_comm (a := y)]

theorem unlink (hfd : 0 ≤ fd) (hp : p ∈ b fd.toNat) :
    IndexView (I.unlink fd p).1 (update b fd.toNat ((b fd.toNat).erase p)) := by
  obtain ⟨hbyFd, hcap, hnext, hprev, -⟩ := hv.unlink_eq hfd hp
  have hlist := hv.linked fd.toNat
  have hsub : ∀ {q f}, q ∈ update b fd.toNat ((b fd.toNat).erase p) f → q ∈ b f := by
    intro q f hq
    by_cases hf : f = fd.toNat
    · subst hf
      rw [update_self] at hq
      exact mem_of_mem_erase hq
    · rwa [update_of_ne hf] at hq
  have hnot : ∀ {q}, q ≠ p → (∀ f, q ∉ update b fd.toNat ((b fd.toNat).erase p) f) → ∀ f, q ∉ b f := by
    intro q hqp hq f hqf
    apply hq f
    by_cases hf : f = fd.toNat
    · subst hf
      rw [update_self]
      exact (mem_erase_of_ne hqp).mpr hqf
    · rwa [update_of_ne hf]
  -- Who stands before or after `p` is in its bucket.
  have hpred : ∀ {z}, I.prevByFd p = some z → z ∈ b fd.toNat ∧ I.nextByFd z = some p := by
    intro z hz
    rcases hlist.first_or_after hp with ⟨-, h⟩ | ⟨w, hw, h, hwp⟩
    · exact absurd (hz.symm.trans h) nofun
    · cases hz.symm.trans h
      exact ⟨hw, hwp⟩
  have hsucc : ∀ {z}, I.nextByFd p = some z → z ∈ b fd.toNat := fun hz => (hlist.mem_of_next hp hz).1
  refine ⟨fun f => ?_, fun f => ?_, fun f => ?_, fun h h' => hv.unique (hsub h) (hsub h'), fun h => ?_,
    fun {q} hq => ?_, fun {q} hq => ?_⟩
  · by_cases hf : f = fd.toNat
    · subst hf
      rw [update_self]
      apply hlist.erase (hv.nodup _) hp
      · intro z hz hzp
        have hne : z ≠ p := fun e => hlist.next_ne_self (hv.nodup _) hz (e ▸ hzp)
        rw [hnext, if_neg hne, if_pos (hlist.mem_of_next hz hzp).2]
      · intro z _ hne hzp
        rw [hnext, if_neg hne, if_neg fun h => hzp (hpred h).2]
      · intro y hy
        have hne : y ≠ p := fun e => hlist.next_ne_self (hv.nodup _) hp (e ▸ hy)
        rw [hprev, if_neg hne, if_pos hy]
      · intro z _ hne hzp
        rw [hprev, if_neg hne, if_neg hzp]
    · rw [update_of_ne hf]
      have hother : ∀ z ∈ b f, z ∉ b fd.toNat := fun z hz h => hf (hv.unique hz h)
      have hne : ∀ z ∈ b f, z ≠ p := fun z hz e => hother z hz (e ▸ hp)
      refine (hv.linked f).congr (fun z hz => ?_) fun z hz => ?_
      · rw [hnext, if_neg (hne z hz), if_neg fun h => hother z hz (hpred h).1]
      · rw [hprev, if_neg (hne z hz), if_neg fun h => hother z hz (hsucc h)]
  · rw [hbyFd]
    by_cases hf : f = fd.toNat
    · subst hf
      rw [update_self, hlist.head?_erase]
      split
      · rw [update_self]
      · exact hv.first _
    · rw [update_of_ne hf]
      split
      · rw [update_of_ne hf, hv.first]
      · exact hv.first f
  · by_cases hf : f = fd.toNat
    · subst hf
      rw [update_self]
      exact (hv.nodup _).erase p
    · rw [update_of_ne hf]
      exact hv.nodup f
  · rw [hcap]
    exact hv.lt_cap (hsub h)
  · rw [hnext]
    split
    next => rfl
    next hqp =>
      have hqb := hnot hqp hq
      rw [if_neg fun h => hqb _ (hpred h).1]
      exact hv.next_none hqb
  · rw [hprev]
    split
    next => rfl
    next hqp =>
      have hqb := hnot hqp hq
      rw [if_neg fun h => hqb _ (hsucc h)]
      exact hv.prev_none hqb

theorem unlink_erase (hp : ∀ f, p ∈ b f → (f : ℤ) = fd) : IndexView (I.unlink fd p).1 (fun f => (b f).erase p) ∧
    ((I.unlink fd p).2 = true ↔ ∃ f, p ∈ b f) := by
  by_cases h : ∃ f, p ∈ b f
  · obtain ⟨f, hf⟩ := h
    obtain rfl := hp f hf
    have hfd : (0 : ℤ) ≤ f := Int.natCast_nonneg f
    have hf' : p ∈ b (f : ℤ).toNat := hf
    have hb : update b (f : ℤ).toNat ((b (f : ℤ).toNat).erase p) = fun f => (b f).erase p := by
      funext k
      by_cases hk : k = f
      · subst hk
        exact update_self ..
      · -- In another bucket there is nothing to remove.
        rw [update_of_ne (by simpa using hk), erase_of_not_mem fun h => hk (hv.unique h hf)]
    refine ⟨hb ▸ hv.unlink hfd hf', fun _ => ⟨f, hf⟩, fun _ => ?_⟩
    exact (hv.unlink_eq hfd hf').2.2.2.2
  · have hnone : ∀ f, p ∉ b f := fun f hf => h ⟨f, hf⟩
    have hb : (fun f => (b f).erase p) = b := funext fun f => erase_of_not_mem (hnone f)
    rw [hv.unlink_of_notMem hnone, hb]
    exact ⟨hv, nofun, fun h' => absurd h' h⟩

end

end IndexView

/-! ### The deadline heap -/

/-- The entries of the array and the indices of the parkers say the same. -/
structure HeapView (H : DeadlineHeap) : Prop where
  index {i : ℕ} (hi : i < H.size) : H.heapIndex (H.arr i) = some i
  entry {p : Parker} {i : ℕ} (h : H.heapIndex p = some i) : i < H.size ∧ H.arr i = p

def SameEntries (H K : DeadlineHeap) : Prop :=
  K.size = H.size ∧ ∀ p, (K.heapIndex p).isSome = (H.heapIndex p).isSome

namespace HeapView

variable {H : DeadlineHeap} {p q : Parker} {i j : ℕ}

theorem arr_inj (hv : HeapView H) (hi : i < H.size) (hj : j < H.size) (h : H.arr i = H.arr j) : i = j := by
  have := hv.index hi
  rw [h, hv.index hj] at this
  exact (Option.some.inj this).symm

theorem swap (hv : HeapView H) (hi : i < H.size) (hj : j < H.size) :
    HeapView (H.swap i j) ∧ SameEntries H (H.swap i j) := by
  have hinj := @hv.arr_inj
  refine ⟨⟨fun {k} hk => ?_, fun {q k} h => ?_⟩, rfl, fun q => ?_⟩
  · simp only [DeadlineHeap.swap, update_apply] at hk ⊢
    have := hv.index hk
    grind
  · simp only [DeadlineHeap.swap, update_apply] at h ⊢
    have := hv.entry (p := q) (i := k)
    grind
  · have hii := hv.index hi
    have hjj := hv.index hj
    simp only [DeadlineHeap.swap, update_apply]
    split
    next h => rw [h, hii, Option.isSome_some, Option.isSome_some]
    next =>
      split
      next h => rw [h, hjj, Option.isSome_some, Option.isSome_some]
      next => rfl

end HeapView

theorem DeadlineHeap.room_eq {H K : DeadlineHeap} {r : Bool} (h : H.room r = some K) :
    ∃ cap, K = { H with cap := cap } := by
  unfold room grow at h
  split at h
  · split at h <;> cases h
    exact ⟨_, rfl⟩
  · cases h
    exact ⟨_, rfl⟩

theorem SameEntries.trans {H K M : DeadlineHeap} (h : SameEntries H K) (h' : SameEntries K M) : SameEntries H M :=
  ⟨h'.1.trans h.1, fun p => (h'.2 p).trans (h.2 p)⟩

namespace HeapView

variable {H : DeadlineHeap} {p q : Parker} {i j : ℕ} (less : Parker → Parker → Bool)

theorem siftUp (hv : HeapView H) (hi : i < H.size) :
    HeapView (H.siftUp less i) ∧ SameEntries H (H.siftUp less i) := by
  induction H, i using DeadlineHeap.siftUp.induct less with
  | case1 H i hpos parent hless ih =>
    rw [DeadlineHeap.siftUp, if_pos hpos, if_pos hless]
    obtain ⟨hs, hsame⟩ := hv.swap hi (j := parent) (by omega)
    obtain ⟨hu, hsame'⟩ := ih hs (by rw [hsame.1]; omega)
    exact ⟨hu, hsame.trans hsame'⟩
  | case2 H i hpos parent hless =>
    rw [DeadlineHeap.siftUp, if_pos hpos, if_neg hless]
    exact ⟨hv, rfl, fun _ => rfl⟩
  | case3 H i hpos =>
    rw [DeadlineHeap.siftUp, if_neg hpos]
    exact ⟨hv, rfl, fun _ => rfl⟩

theorem siftDown (hv : HeapView H) (hi : i < H.size) :
    HeapView (H.siftDown less i) ∧ SameEntries H (H.siftDown less i) := by
  induction H, i using DeadlineHeap.siftDown.induct less with
  | case1 H i hbest =>
    rw [DeadlineHeap.siftDown, if_pos hbest]
    exact ⟨hv, rfl, fun _ => rfl⟩
  | case2 H i hbest ih =>
    rw [DeadlineHeap.siftDown, if_neg hbest]
    have hlt := ((H.best_spec less i).resolve_left hbest).2
    obtain ⟨hs, hsame⟩ := hv.swap hi hlt
    obtain ⟨hd, hsame'⟩ := ih hs (hsame.1 ▸ hlt)
    exact ⟨hd, hsame.trans hsame'⟩

theorem insert (hv : HeapView H) (hp : H.heapIndex p = none) (d : ℤ) (r : Bool) : HeapView (H.insert less p d r) ∧
    ∀ q, ((H.insert less p d r).heapIndex q).isSome = true ↔
      (H.heapIndex q).isSome = true ∨ q = p ∧ 0 ≤ d ∧ (H.room r).isSome = true := by
  unfold DeadlineHeap.insert
  split
  next h =>
    rw [hp] at h
    refine ⟨hv, fun q => ⟨.inl, ?_⟩⟩
    rintro (h' | ⟨-, hd, -⟩)
    · exact h'
    · exact absurd hd (not_le.mpr (h.resolve_right nofun))
  next h =>
    rw [not_or, not_lt] at h
    split
    next hroom =>
      rw [hroom]
      exact ⟨hv, fun q => ⟨.inl, fun h => h.resolve_right fun h => absurd h.2.2 nofun⟩⟩
    next K hroom =>
      obtain ⟨cap, rfl⟩ := DeadlineHeap.room_eq hroom
      have hne : ∀ {i}, i < H.size → H.arr i ≠ p := by
        intro i hi e
        have := hv.index hi
        rw [e, hp] at this
        cases this
      have hput : HeapView { H with
          cap := cap
          arr := update H.arr H.size p
          heapIndex := update H.heapIndex p (some H.size)
          size := H.size + 1 } := by
        refine ⟨fun {i} hi => ?_, fun {q i} hq => ?_⟩
        · dsimp only at hi ⊢
          by_cases hlast : i = H.size
          · rw [hlast, update_self, update_self]
          · have hi : i < H.size := by omega
            rw [update_of_ne hlast, update_of_ne (hne hi), hv.index hi]
        · dsimp only at hq ⊢
          by_cases hqp : q = p
          · subst hqp
            rw [update_self] at hq
            cases hq
            exact ⟨Nat.lt_succ_self _, update_self ..⟩
          · rw [update_of_ne hqp] at hq
            obtain ⟨hi, rfl⟩ := hv.entry hq
            exact ⟨Nat.lt_succ_of_lt hi, update_of_ne hi.ne _ _⟩
      obtain ⟨hu, -, hsame⟩ := hput.siftUp less (Nat.lt_succ_self H.size)
      refine ⟨hu, fun q => ?_⟩
      rw [hsame, hroom]
      by_cases hqp : q = p
      · subst hqp
        simp [h.1]
      · simp [hqp]

theorem remove (hv : HeapView H) : HeapView (H.remove less p) ∧
    ∀ q, ((H.remove less p).heapIndex q).isSome = true ↔ (H.heapIndex q).isSome = true ∧ q ≠ p := by
  unfold DeadlineHeap.remove
  split
  next h =>
    refine ⟨hv, fun q => ⟨fun hq => ⟨hq, ?_⟩, And.left⟩⟩
    rintro rfl
    rw [h] at hq
    cases hq
  next i h =>
    obtain ⟨hi, rfl⟩ := hv.entry h
    rw [if_neg (not_le.mpr hi)]
    have hinj := @hv.arr_inj
    dsimp only
    split
    next htail =>
      -- The last entry goes.
      refine ⟨⟨fun {k} hk => ?_, fun {q k} hq => ?_⟩, fun q => ?_⟩
      · dsimp only at hk
        have := hv.index (i := k) (by omega)
        simp only [update_apply]
        grind
      · have := hv.entry (p := q) (i := k)
        simp only [update_apply] at hq ⊢
        grind
      · simp only [update_apply]
        split
        next hq => simp [hq]
        next hq => simp [hq]
    next htail =>
      -- The last entry takes the free place and is sifted from there.
      have hn : H.size - 1 < H.size := by omega
      have hne : H.arr (H.size - 1) ≠ H.arr i := fun e => htail (hv.arr_inj hn hi e).symm
      have hmove : HeapView { H with
          arr := update H.arr i (H.arr (H.size - 1))
          size := H.size - 1
          heapIndex := update (update H.heapIndex (H.arr i) none) (H.arr (H.size - 1)) (some i) } := by
        refine ⟨fun {k} hk => ?_, fun {q k} hq => ?_⟩
        · dsimp only at hk
          have := hv.index (i := k) (by omega)
          simp only [update_apply]
          grind
        · have := hv.entry (p := q) (i := k)
          simp only [update_apply] at hq ⊢
          grind
      have hi' : i < H.size - 1 := by omega
      obtain ⟨hu, hsame⟩ := hmove.siftUp less hi'
      obtain ⟨hd, hsame'⟩ := hu.siftDown less (hi'.trans_eq hsame.1.symm)
      refine ⟨hd, fun q => ?_⟩
      rw [(hsame.trans hsame').2]
      have := hv.index hn
      simp only [update_apply]
      grind

end HeapView

/-! ### The dispatch mask -/

/-- In a hub pool the bits are those of the buckets that hold a parker. -/
structure MaskView (M : FdMask) (pidx : ℕ) (b : ℕ → List Parker) : Prop where
  bit {m : Poolmask} {fd : ℕ} (hm : M.table = some m) (hfd : fd < m.cap) :
    (m.words fd).getLsbD pidx = true ↔ b fd ≠ []
  unset (hm : M.table = none) (hr : M.ready = false) (fd : ℕ) : b fd = []

namespace MaskView

variable {M : FdMask} {pidx : ℕ} {b : ℕ → List Parker} {l : List Parker} {fd : ℤ}

theorem congr {b' : ℕ → List Parker} (hv : MaskView M pidx b) (h : ∀ fd, b fd = [] ↔ b' fd = []) :
    MaskView M pidx b' where
  bit {_ fd} hm hfd := (hv.bit hm hfd).trans (not_congr (h fd))
  unset hm hr fd := (h fd).mp (hv.unset hm hr fd)

theorem modify {f : BitVec 64 → BitVec 64} (hv : MaskView M pidx b)
    (hb : ∀ w : BitVec 64, (f w).getLsbD pidx = true ↔ l ≠ [])
    (hu : M.table = none → M.ready = false → l = []) :
    MaskView (M.modify fd f) pidx (update b fd.toNat l) := by
  unfold FdMask.modify
  cases hM : M.table with
  | none =>
    dsimp only
    refine ⟨fun hm => absurd (hM.symm.trans hm) nofun, fun _ hr f => ?_⟩
    by_cases hf : f = fd.toNat
    · rw [hf, update_self]
      exact hu hM hr
    · rw [update_of_ne hf]
      exact hv.unset hM hr f
  | some m =>
    dsimp only
    split
    next hlt =>
      refine ⟨fun {m' f} hm hf => ?_, nofun⟩
      cases hm
      dsimp only at hf ⊢
      by_cases he : f = fd.toNat
      · subst he
        rw [update_self, update_self]
        exact hb _
      · rw [update_of_ne he, update_of_ne he]
        exact hv.bit hM hf
    next hlt =>
      -- The descriptor has no word in the table.
      refine ⟨fun {m' f} hm hf => ?_, fun hm => absurd (hM.symm.trans hm) nofun⟩
      cases hM.symm.trans hm
      have hne : f ≠ fd.toNat := fun e => hlt (e ▸ hf)
      rw [update_of_ne hne]
      exact hv.bit hM hf

theorem initOnce (hv : MaskView M pidx b) (hM : M.table = none) (o : Answers) : MaskView (M.initOnce o) pidx b := by
  unfold FdMask.initOnce
  split
  next => exact hv
  next hr =>
    rw [Bool.not_eq_true] at hr
    refine ⟨fun {m f} hm _ => ?_, nofun⟩
    have hb := hv.unset hM hr f
    split at hm
    · cases hm
      simp [hb]
    · exact absurd (hM.symm.trans hm) nofun

theorem initOnce_ready (M : FdMask) (o : Answers) : (M.initOnce o).ready = true := by
  unfold FdMask.initOnce
  split
  next h => exact h
  next => rfl

theorem set (hv : MaskView M pidx b) (hp : pidx < 64) (hfd : 0 ≤ fd) (o : Answers) (hl : l ≠ []) :
    MaskView (M.set pidx fd o) pidx (update b fd.toNat l) := by
  have hbit : ∀ w : BitVec 64, (w ||| BitVec.twoPow 64 pidx).getLsbD pidx = true ↔ l ≠ [] := by
    intro w
    simp [hp, hl]
  unfold FdMask.set
  rw [if_neg (by omega)]
  dsimp only
  split
  next hM =>
    apply (hv.initOnce (by simpa using hM) o).modify hbit
    intro _ hr
    rw [initOnce_ready] at hr
    cases hr
  next hM => exact hv.modify hbit fun h => absurd h (by simpa using hM)

theorem clear (hv : MaskView M pidx b) (hp : pidx < 64) (hfd : 0 ≤ fd) :
    MaskView (M.clear pidx fd) pidx (update b fd.toNat []) := by
  unfold FdMask.clear
  rw [if_neg (by omega)]
  apply hv.modify
  · intro w
    simp [hp]
  · exact fun _ _ => rfl

theorem clear_eq (hv : pidx < 64 → MaskView M pidx b) (hb : b fd.toNat = []) : M.clear pidx fd = M := by
  unfold FdMask.clear
  split
  next => rfl
  next h =>
    have hp : pidx < 64 := by omega
    unfold FdMask.modify
    split
    next => rfl
    next m hM =>
      split
      next hlt =>
        have hclear : (m.words fd.toNat).getLsbD pidx = false := by
          rw [Bool.eq_false_iff]
          exact fun h => ((hv hp).bit hM hlt).mp h hb
        have hword : m.words fd.toNat &&& ~~~BitVec.twoPow 64 pidx = m.words fd.toNat := by
          ext i hi
          simp only [BitVec.getElem_and, BitVec.getElem_not, BitVec.getElem_twoPow]
          by_cases hip : i = pidx
          · subst hip
            simp [← BitVec.getLsbD_eq_getElem, hclear]
          · simp [hip]
        dsimp only
        rw [hword, update_eq_self, ← hM]
      next => rfl

end MaskView

end Runloom.ParkerPool
