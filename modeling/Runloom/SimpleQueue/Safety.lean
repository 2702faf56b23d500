import Mathlib.Data.Finset.Card
import Runloom.SimpleQueue.Model

/-!
# No getter is stranded

A put wakes one registered getter, so while that getter has not run yet another one may stay blocked beside a
non-empty queue.  What holds is that the items are covered: as long as some getter is settled on the waiter deque,
there are at least as many getters about to pop, together with puts still looking for a getter, as there are items.
-/

namespace Runloom.SimpleQueue

open Transition List

variable {α : Type*} {s t : State α} {i j p : ℕ}

/-! ## What a program counter says -/

def GetPc.waiting : GetPc α → Bool
  | .firstPop | .loopPop | .deadline | .check | .reRegister | .rePop | .park => true
  | _ => false

def GetPc.settled : GetPc α → Bool
  | .loopPop | .deadline | .check | .park => true
  | _ => false

def GetPc.trusting : GetPc α → Bool
  | .rePop | .park => true
  | _ => false

def GetPc.recorded : GetPc α → Bool
  | .firstPop | .loopPop | .deadline | .check | .rePop | .park | .deactivate _ | .remove _ => true
  | _ => false

def PutPc.seeking : PutPc α → Bool
  | .test | .popWaiter | .readActive _ true => true
  | _ => false

def Settled (s : State α) : Prop := ∃ j ∈ s.waiters, (s.getter j).settled = true

instance (s : State α) : Decidable (Settled s) :=
  inferInstanceAs (Decidable (∃ j ∈ s.waiters, (s.getter j).settled = true))

/-- A getter that will look at the items before it parks. -/
def Covers (s : State α) (i : ℕ) : Prop :=
  (s.getter i).waiting = true ∧ i ∉ s.waiters ∨
    s.getter i = .rePop ∧ ∃ l r, s.waiters = l ++ i :: r ∧ ∀ j ∈ r, (s.getter j).settled = false

def Cover (s : State α) : Prop :=
  Settled s → ∃ S T : Finset ℕ, s.items.length ≤ S.card + T.card ∧ (∀ i ∈ S, Covers s i) ∧
    ∀ p ∈ T, (s.putter p).seeking = true

/-- The wake of a getter whose record was taken has arrived or is on its way. -/
def WakeDue (s : State α) (i : ℕ) : Prop :=
  s.byte i = true ∨ ∃ p, (∃ b, s.putter p = .readActive i b) ∨ s.putter p = .unpark i

structure Inv (s : State α) : Prop where
  nodup : s.waiters.Nodup
  recorded : ∀ i ∈ s.waiters, (s.getter i).recorded = true
  active : ∀ i, (s.getter i).waiting = true → s.active i = true
  byte : ∀ i, (s.getter i).trusting = true → i ∉ s.waiters → WakeDue s i
  cover : Cover s

/-- No wake is spent on a getter that has stopped waiting while an item and a settled getter are there. -/
def NoWakeWasted (s : State α) : Action α → Prop
  | .putNext p =>
    match s.putter p with
    | .readActive i stale => ¬(stale = true ∧ s.active i = true ∧ s.items ≠ [] ∧ Settled s)
    | _ => True
  | .expire i => ¬(s.getter i = .deadline ∧ i ∉ s.waiters ∧ s.items ≠ [] ∧ Settled s)
  | _ => True

/-! ## The cover -/

theorem Cover.of_items_nil (h : t.items = []) : Cover t := by
  intro _
  exact ⟨∅, ∅, by simp [h], by simp, by simp⟩

theorem Cover.of_not_settled (h : ¬Settled t) : Cover t := fun hs => absurd hs h

theorem Cover.of_le (h : Cover s) (hlen : t.items.length ≤ s.items.length)
    (hsettled : Settled t → Settled s) (hcovers : ∀ i, Covers s i → Covers t i)
    (hseeking : ∀ p, (s.putter p).seeking = true → (t.putter p).seeking = true) : Cover t := by
  intro ht
  rcases h (hsettled ht) with ⟨S, T, hle, hS, hT⟩
  exact ⟨S, T, by omega, fun i hi => hcovers i (hS i hi), fun p hp => hseeking p (hT p hp)⟩

theorem Cover.pop (h : Cover s) (hlen : t.items.length + 1 = s.items.length)
    (hsettled : Settled t → Settled s) (hcovers : ∀ j, j ≠ i → Covers s j → Covers t j)
    (hputter : t.putter = s.putter) : Cover t := by
  intro ht
  rcases h (hsettled ht) with ⟨S, T, hle, hS, hT⟩
  refine ⟨S.erase i, T, ?_, ?_, ?_⟩
  · have hcard := Finset.pred_card_le_card_erase (s := S) (a := i)
    omega
  · intro j hj
    rw [Finset.mem_erase] at hj
    exact hcovers j hj.1 (hS j hj.2)
  · rwa [hputter]

theorem Cover.publish (h : Cover s) (hlen : t.items.length = s.items.length + 1)
    (hsettled : Settled t → Settled s) (hcovers : ∀ j, Covers s j → Covers t j)
    (hold : (s.putter p).seeking = false) (hnew : (t.putter p).seeking = true)
    (hseeking : ∀ q, q ≠ p → t.putter q = s.putter q) : Cover t := by
  intro ht
  rcases h (hsettled ht) with ⟨S, T, hle, hS, hT⟩
  have hp : p ∉ T := by
    intro hp
    rw [hT p hp] at hold
    cases hold
  refine ⟨S, insert p T, ?_, fun j hj => hcovers j (hS j hj), ?_⟩
  · rw [Finset.card_insert_of_notMem hp]
    omega
  · intro q hq
    by_cases hqp : q = p
    · rw [hqp]
      exact hnew
    · rw [hseeking q hqp]
      exact hT q ((Finset.mem_insert.mp hq).resolve_left hqp)

theorem Cover.hand_over (h : Cover s) (hitems : t.items = s.items)
    (hsettled : Settled t → Settled s) (hnew : Covers t i) (hold : Settled t → ¬Covers s i)
    (hcovers : ∀ j, j ≠ i → Covers s j → Covers t j)
    (hseeking : ∀ q, q ≠ p → t.putter q = s.putter q) : Cover t := by
  intro ht
  rcases h (hsettled ht) with ⟨S, T, hle, hS, hT⟩
  have hi : i ∉ S := fun hi => hold ht (hS i hi)
  refine ⟨insert i S, T.erase p, ?_, ?_, ?_⟩
  · have hcard := Finset.pred_card_le_card_erase (s := T) (a := p)
    rw [Finset.card_insert_of_notMem hi, hitems]
    omega
  · intro j hj
    by_cases hji : j = i
    · rw [hji]
      exact hnew
    · exact hcovers j hji (hS j ((Finset.mem_insert.mp hj).resolve_left hji))
  · intro q hq
    rw [Finset.mem_erase] at hq
    rw [hseeking q hq.1]
    exact hT q hq.2

/-! ## Frame facts -/

@[simp] theorem goGet_getter (s : State α) (i : ℕ) (c : GetPc α) :
    (s.goGet i c).getter = Function.update s.getter i c := rfl

@[simp] theorem goPut_putter (s : State α) (p : ℕ) (c : PutPc α) :
    (s.goPut p c).putter = Function.update s.putter p c := rfl

variable {c : GetPc α}

theorem Settled.of_update (hs : Settled t)
    (hget : t.getter = update s.getter i c) (hsub : ∀ j ∈ t.waiters, j ∈ s.waiters ∨ j = i)
    (hc : i ∈ t.waiters → c.settled = true → i ∈ s.waiters ∧ (s.getter i).settled = true) :
    Settled s := by
  rcases hs with ⟨j, hj, hset⟩
  rw [hget] at hset
  by_cases hji : j = i
  · subst hji
    rw [update_self] at hset
    exact ⟨j, hc hj hset⟩
  · rw [update_of_ne hji] at hset
    exact ⟨j, (hsub j hj).resolve_right hji, hset⟩

section

variable (h : Covers s j)
include h

theorem Covers.of_update (hji : j ≠ i)
    (hget : t.getter = update s.getter i c) (hmem : j ∈ t.waiters → j ∈ s.waiters)
    (hsplit : ∀ l r, s.waiters = l ++ j :: r → ∃ l' r', t.waiters = l' ++ j :: r' ∧
      ∀ k ∈ r', k ∈ r ∨ k = i ∧ c.settled = false)
    (hc : c.settled = true → (s.getter i).settled = true ∨ i ∉ s.waiters) : Covers t j := by
  have hpc : t.getter j = s.getter j := by rw [hget, update_of_ne hji]
  rcases h with ⟨hwait, hnot⟩ | ⟨hre, l, r, hlr, hr⟩
  · left
    rw [hpc]
    exact ⟨hwait, fun hj => hnot (hmem hj)⟩
  right
  rcases hsplit l r hlr with ⟨l', r', hlr', hr'⟩
  refine ⟨hpc.trans hre, l', r', hlr', ?_⟩
  intro k hk
  rw [hget]
  by_cases hki : k = i
  · subst hki
    rw [update_self]
    rcases hr' k hk with hkr | ⟨_, hns⟩
    · -- a record behind `j` was not settled before, so it does not settle now
      by_contra hset
      have hkw : k ∈ s.waiters := by
        rw [hlr]
        simp [hkr]
      rcases hc (by simpa using hset) with hs | hs
      · rw [hr k hkr] at hs
        cases hs
      · exact hs hkw
    · exact hns
  · rw [update_of_ne hki]
    rcases hr' k hk with hkr | ⟨hki', _⟩
    · exact hr k hkr
    · exact absurd hki' hki

theorem Covers.goGet (hji : j ≠ i) (hget : t.getter = update s.getter i c) (hw : t.waiters = s.waiters)
    (hc : c.settled = true → (s.getter i).settled = true ∨ i ∉ s.waiters) : Covers t j := by
  apply h.of_update hji hget
  · rw [hw]
    exact id
  · intro l r hlr
    exact ⟨l, r, hw.trans hlr, fun k hk => .inl hk⟩
  · exact hc

theorem Covers.enqueue (hji : j ≠ i) (hget : t.getter = update s.getter i c) (hw : t.waiters = s.waiters ++ [i])
    (hc : c.settled = false) : Covers t j := by
  apply h.of_update hji hget
  · intro hj
    rw [hw, mem_append, mem_singleton] at hj
    exact hj.resolve_right hji
  · intro l r hlr
    refine ⟨l, r ++ [i], ?_, ?_⟩
    · rw [hw, hlr, append_assoc, cons_append]
    · intro k hk
      rw [mem_append, mem_singleton] at hk
      exact hk.imp_right fun hki => ⟨hki, hc⟩
  · intro hset
    rw [hc] at hset
    cases hset

theorem Covers.unregister (hji : j ≠ i)
    (hget : t.getter = update s.getter i c) (hw : t.waiters = s.waiters.erase i)
    (hc : c.settled = false) : Covers t j := by
  apply h.of_update hji hget
  · rw [hw]
    exact mem_of_mem_erase
  · intro l r hlr
    rw [hw, hlr]
    by_cases hil : i ∈ l
    · exact ⟨l.erase i, r, erase_append_left _ hil, fun k hk => .inl hk⟩
    · refine ⟨l, r.erase i, ?_, fun k hk => .inl (mem_of_mem_erase hk)⟩
      rw [erase_append_right _ hil, erase_cons_tail (by simpa using hji)]
  · intro hset
    rw [hc] at hset
    cases hset

theorem Covers.take {rest : List ℕ} (hji : j ≠ i) (hget : t.getter = s.getter)
    (hs : s.waiters = i :: rest) (ht : t.waiters = rest) : Covers t j := by
  rcases h with ⟨hwait, hnot⟩ | ⟨hre, l, r, hlr, hr⟩
  · left
    rw [hget, ht]
    rw [hs] at hnot
    exact ⟨hwait, fun hj => hnot (mem_cons_of_mem i hj)⟩
  right
  rw [hget]
  cases l with
  | nil =>
    rw [hs] at hlr
    exact absurd (List.cons.inj hlr).1 (Ne.symm hji)
  | cons k l =>
    rw [hs] at hlr
    exact ⟨hre, l, r, ht.trans (List.cons.inj hlr).2, hr⟩

end

/-! ## Steps of a getter -/

theorem Inv.of_get (hI : Inv s) (hget : t.getter = update s.getter i c)
    (hput : t.putter = s.putter) (hnodup : t.waiters.Nodup)
    (hmem : ∀ j, j ≠ i → (j ∈ t.waiters ↔ j ∈ s.waiters))
    (hrecorded : i ∈ t.waiters → c.recorded = true)
    (hactive : ∀ j, j ≠ i → t.active j = s.active j) (hself : c.waiting = true → t.active i = true)
    (hbyte : ∀ j, j ≠ i → t.byte j = s.byte j)
    (hdue : c.trusting = true → i ∉ t.waiters → WakeDue t i) (hcover : Cover t) : Inv t where
  nodup := hnodup
  recorded := by
    intro j hj
    rw [hget]
    by_cases hji : j = i
    · subst hji
      rw [update_self]
      exact hrecorded hj
    · rw [update_of_ne hji]
      exact hI.recorded j ((hmem j hji).mp hj)
  active := by
    intro j hj
    rw [hget] at hj
    by_cases hji : j = i
    · subst hji
      rw [update_self] at hj
      exact hself hj
    · rw [update_of_ne hji] at hj
      rw [hactive j hji]
      exact hI.active j hj
  byte := by
    intro j hj hnot
    rw [hget] at hj
    by_cases hji : j = i
    · subst hji
      rw [update_self] at hj
      exact hdue hj hnot
    · rw [update_of_ne hji] at hj
      have hold := hI.byte j hj fun hjs => hnot ((hmem j hji).mpr hjs)
      unfold WakeDue at hold ⊢
      rwa [hbyte j hji, hput]
  cover := hcover

theorem Inv.goGet (hI : Inv s) (hrecorded : i ∈ s.waiters → c.recorded = true)
    (hwaiting : c.waiting = true → (s.getter i).waiting = true)
    (hdue : c.trusting = true → i ∉ s.waiters → WakeDue s i) (hcover : Cover (s.goGet i c)) :
    Inv (s.goGet i c) := by
  apply hI.of_get (t := s.goGet i c) rfl rfl hI.nodup (fun _ _ => Iff.rfl) hrecorded (fun _ _ => rfl)
  · exact fun hw => hI.active i (hwaiting hw)
  · exact fun _ _ => rfl
  · exact hdue
  · exact hcover

theorem Cover.goGet (h : Cover s) (hsettled : c.settled = true → (s.getter i).settled = true ∨ i ∉ s.waiters)
    (hcovers : Covers s i → Covers (s.goGet i c) i) : Cover (s.goGet i c) := by
  apply h.of_le (by exact le_refl _)
  · intro ht
    apply ht.of_update rfl (fun j hj => .inl hj)
    intro hi hc
    exact ⟨hi, (hsettled hc).resolve_right fun hnot => hnot hi⟩
  · intro j hj
    by_cases hji : j = i
    · subst hji
      exact hcovers hj
    · exact hj.goGet hji rfl rfl hsettled
  · exact fun _ hp => hp

theorem Inv.popItem {found : α → GetPc α} {empty : GetPc α} (hI : Inv s)
    (hfound : ∀ x, (found x).waiting = false ∧ (found x).settled = false ∧
      (found x).trusting = false ∧ (i ∈ s.waiters → (found x).recorded = true))
    (hrecorded : i ∈ s.waiters → empty.recorded = true)
    (hwaiting : empty.waiting = true → (s.getter i).waiting = true)
    (hdue : empty.trusting = true → i ∉ s.waiters → WakeDue s i) :
    Inv (popItem s i found empty) := by
  unfold SimpleQueue.popItem
  split
  · rename_i x rest hitems
    rcases hfound x with ⟨hw, hset, htr, hrec⟩
    apply hI.of_get (t := State.goGet { s with items := rest } i (found x)) rfl rfl hI.nodup
      (fun _ _ => Iff.rfl) hrec (fun _ _ => rfl)
    · simp [hw]
    · exact fun _ _ => rfl
    · simp [htr]
    · apply hI.cover.pop (i := i)
      · simp [State.goGet, hitems]
      · intro ht
        apply ht.of_update rfl (fun j hj => .inl hj)
        simp [hset]
      · intro j hji hj
        apply hj.goGet (c := found x) hji
        · rfl
        · rfl
        · simp [hset]
      · rfl
  · rename_i hitems
    exact hI.goGet hrecorded hwaiting hdue (Cover.of_items_nil hitems)

theorem Inv.notMem_of_not_recorded (hI : Inv s) (h : (s.getter i).recorded = false) : i ∉ s.waiters := by
  intro hi
  rw [hI.recorded i hi] at h
  cases h

theorem nodup_concat (hI : Inv s) (hi : i ∉ s.waiters) : (s.waiters ++ [i]).Nodup := by
  rw [nodup_append]
  refine ⟨hI.nodup, nodup_singleton i, ?_⟩
  intro j hj k hk
  rw [mem_singleton] at hk
  subst hk
  rintro rfl
  exact hi hj

theorem mem_concat_of_ne (hji : j ≠ i) : j ∈ s.waiters ++ [i] ↔ j ∈ s.waiters := by
  simp [hji]

theorem Cover.enqueue (h : Cover s) (hget : t.getter = update s.getter i c)
    (hw : t.waiters = s.waiters ++ [i]) (hc : c.settled = false) (hitems : t.items = s.items)
    (hput : t.putter = s.putter) (hcovers : Covers s i → Covers t i) : Cover t := by
  apply h.of_le (by rw [hitems])
  · intro ht
    apply ht.of_update hget
    · intro j hj
      rwa [hw, mem_append, mem_singleton] at hj
    · simp [hc]
  · intro j hj
    by_cases hji : j = i
    · subst hji
      exact hcovers hj
    · exact hj.enqueue hji hget hw hc
  · rw [hput]
    exact fun _ hp => hp

section

variable (hI : Inv s)
include hI

theorem Inv.register (hpc : s.getter i = .register) (h : getNext s i = some t) : Inv t := by
  simp only [getNext, hpc] at h
  cases h
  have hi : i ∉ s.waiters := hI.notMem_of_not_recorded (by rw [hpc]; rfl)
  apply hI.of_get (i := i) (c := .firstPop)
  · rfl
  · rfl
  · exact nodup_concat hI hi
  · exact fun j hji => mem_concat_of_ne hji
  · exact fun _ => rfl
  · exact fun j hji => update_of_ne hji _ _
  · intro _
    simp [State.goGet]
  · exact fun j hji => update_of_ne hji _ _
  · intro hc
    cases hc
  · refine hI.cover.enqueue (i := i) (c := .firstPop) rfl rfl rfl rfl rfl ?_
    intro hc
    simp [Covers, hpc, GetPc.waiting] at hc

theorem Inv.reRegister (hpc : s.getter i = .reRegister) (h : getNext s i = some t) : Inv t := by
  simp only [getNext, hpc] at h
  cases h
  have hi : i ∉ s.waiters := hI.notMem_of_not_recorded (by rw [hpc]; rfl)
  apply hI.of_get (i := i) (c := .rePop)
  · rfl
  · rfl
  · exact nodup_concat hI hi
  · exact fun j hji => mem_concat_of_ne hji
  · exact fun _ => rfl
  · exact fun _ _ => rfl
  · intro _
    exact hI.active i (by rw [hpc]; rfl)
  · exact fun _ _ => rfl
  · intro _ hnot
    simp [State.goGet] at hnot
  · -- the call is behind every settled getter now
    refine hI.cover.enqueue (i := i) (c := .rePop) rfl rfl rfl rfl rfl ?_
    intro _
    exact .inr ⟨by simp, s.waiters, [], rfl, by simp⟩

theorem Inv.parkReturn (hpc : s.getter i = .park) (h : getNext s i = some t) : Inv t := by
  simp only [getNext, hpc] at h
  cases h
  have hwait : (s.getter i).waiting = true := by
    rw [hpc]
    rfl
  apply hI.of_get (i := i) (c := .loopPop)
  · rfl
  · rfl
  · exact hI.nodup
  · exact fun _ _ => Iff.rfl
  · exact fun _ => rfl
  · exact fun _ _ => rfl
  · exact fun _ => hI.active i hwait
  · exact fun j hji => update_of_ne hji _ _
  · intro hc
    cases hc
  · have hcover : Cover (s.goGet i .loopPop) := by
      apply hI.cover.goGet
      · intro _
        rw [hpc]
        exact .inl rfl
      · rintro (⟨_, hnot⟩ | ⟨hre, _⟩)
        · exact .inl ⟨by simp [GetPc.waiting], hnot⟩
        · rw [hpc] at hre
          cases hre
    exact hcover

theorem Inv.remove {r : Option α} (hpc : s.getter i = .remove r) (h : getNext s i = some t) : Inv t := by
  simp only [getNext, hpc] at h
  cases h
  apply hI.of_get (i := i) (c := .release r)
  · rfl
  · rfl
  · exact hI.nodup.erase i
  · exact fun j hji => mem_erase_of_ne hji
  · intro hi
    exact absurd hi hI.nodup.not_mem_erase
  · exact fun _ _ => rfl
  · intro hc
    cases hc
  · exact fun _ _ => rfl
  · intro hc
    cases hc
  · apply hI.cover.of_le (by exact le_refl _)
    · intro ht
      apply ht.of_update (s := s) (i := i) (c := .release r) rfl
      · exact fun j hj => .inl (mem_of_mem_erase hj)
      · intro _ hc
        cases hc
    · intro j hj
      have hji : j ≠ i := by
        rintro rfl
        simp [Covers, hpc, GetPc.waiting] at hj
      exact hj.unregister hji rfl rfl rfl
    · exact fun _ hp => hp

theorem Inv.deactivate {r : Option α} (hpc : s.getter i = .deactivate r) (h : getNext s i = some t) : Inv t := by
  simp only [getNext, hpc] at h
  cases h
  apply hI.of_get (i := i) (c := .remove r)
  · rfl
  · rfl
  · exact hI.nodup
  · exact fun _ _ => Iff.rfl
  · exact fun _ => rfl
  · exact fun j hji => update_of_ne hji _ _
  · intro hc
    cases hc
  · exact fun _ _ => rfl
  · intro hc
    cases hc
  · have hcover : Cover (s.goGet i (.remove r)) := by
      apply hI.cover.goGet
      · intro hc
        cases hc
      · intro hc
        simp [Covers, hpc, GetPc.waiting] at hc
    exact hcover

theorem Inv.goWaiting (hwait : (s.getter i).waiting = true)
    (hre : s.getter i ≠ .rePop) (hc : c.waiting = true) (hrecorded : i ∈ s.waiters → c.recorded = true)
    (hsettled : c.settled = true → (s.getter i).settled = true ∨ i ∉ s.waiters)
    (htrust : c.trusting = true → i ∈ s.waiters) : Inv (s.goGet i c) := by
  apply hI.goGet hrecorded (fun _ => hwait)
  · exact fun ht hnot => absurd (htrust ht) hnot
  · apply hI.cover.goGet hsettled
    rintro (⟨_, hnot⟩ | ⟨hre', _⟩)
    · exact .inl ⟨by simpa using hc, hnot⟩
    · exact absurd hre' hre

theorem Inv.getNext (h : getNext s i = some t) : Inv t := by
  have hpop : ∀ {c : GetPc α}, s.getter i = c → c.recorded = true → c.waiting = true →
      ∀ {empty : GetPc α}, empty.recorded = true → (empty.trusting = true → i ∉ s.waiters → WakeDue s i) →
        Inv (SimpleQueue.popItem s i (fun x => .deactivate (some x)) empty) := by
    intro c hpc _ hwait empty hrec hdue
    apply hI.popItem
    · exact fun x => ⟨rfl, rfl, rfl, fun _ => rfl⟩
    · exact fun _ => hrec
    · intro _
      rw [hpc]
      exact hwait
    · exact hdue
  cases hpc : s.getter i with
  | idle | done => simp [SimpleQueue.getNext, hpc] at h
  | fastPop =>
    simp only [SimpleQueue.getNext, hpc] at h
    cases h
    have hi : i ∉ s.waiters := hI.notMem_of_not_recorded (by rw [hpc]; rfl)
    apply hI.popItem
    · exact fun x => ⟨rfl, rfl, rfl, fun hi' => absurd hi' hi⟩
    · exact fun hi' => absurd hi' hi
    · unfold afterFastPop
      split_ifs <;> simp [GetPc.waiting]
    · unfold afterFastPop
      split_ifs <;> simp [GetPc.trusting]
  | spin =>
    simp only [SimpleQueue.getNext, hpc] at h
    cases h
    have hi : i ∉ s.waiters := hI.notMem_of_not_recorded (by rw [hpc]; rfl)
    apply hI.popItem
    · exact fun x => ⟨rfl, rfl, rfl, fun hi' => absurd hi' hi⟩
    · exact fun hi' => absurd hi' hi
    · simp [GetPc.waiting]
    · simp [GetPc.trusting]
  | spinWait | release r =>
    simp only [SimpleQueue.getNext, hpc] at h
    cases h
    have hi : i ∉ s.waiters := hI.notMem_of_not_recorded (by rw [hpc]; rfl)
    apply hI.goGet (fun hi' => absurd hi' hi) (by simp [GetPc.waiting]) (by simp [GetPc.trusting])
    apply hI.cover.goGet (by simp [GetPc.settled])
    intro hc
    simp [Covers, hpc, GetPc.waiting] at hc
  | register => exact hI.register hpc h
  | firstPop | loopPop =>
    simp only [SimpleQueue.getNext, hpc] at h
    cases h
    exact hpop hpc rfl rfl rfl (by simp [GetPc.trusting])
  | deadline =>
    simp only [SimpleQueue.getNext, hpc] at h
    cases h
    apply hI.goWaiting (by rw [hpc]; rfl) (by simp [hpc]) rfl (fun _ => rfl)
    · intro _
      rw [hpc]
      exact .inl rfl
    · simp [GetPc.trusting]
  | check =>
    simp only [SimpleQueue.getNext, hpc] at h
    cases h
    split_ifs with hi
    · apply hI.goWaiting (by rw [hpc]; rfl) (by simp [hpc]) rfl (fun _ => rfl)
      · intro _
        rw [hpc]
        exact .inl rfl
      · exact fun _ => hi
    · apply hI.goWaiting (by rw [hpc]; rfl) (by simp [hpc]) rfl (fun hi' => absurd hi' hi)
      · simp [GetPc.settled]
      · simp [GetPc.trusting]
  | reRegister => exact hI.reRegister hpc h
  | rePop =>
    simp only [SimpleQueue.getNext, hpc] at h
    cases h
    apply hpop hpc rfl rfl rfl
    intro _ hnot
    exact hI.byte i (by rw [hpc]; rfl) hnot
  | park => exact hI.parkReturn hpc h
  | deactivate r => exact hI.deactivate hpc h
  | remove r => exact hI.remove hpc h

theorem Inv.get {c : Call} (h : step s (.get i c) = some t) : Inv t := by
  simp only [step] at h
  split at h
  · rename_i hpc
    cases h
    have hi : i ∉ s.waiters := hI.notMem_of_not_recorded (by rw [hpc]; rfl)
    have hgo : Inv (s.goGet i .fastPop) := by
      apply hI.goGet (fun hi' => absurd hi' hi) (by simp [GetPc.waiting]) (by simp [GetPc.trusting])
      apply hI.cover.goGet (by simp [GetPc.settled])
      intro hc
      simp [Covers, hpc, GetPc.waiting] at hc
    exact ⟨hgo.nodup, hgo.recorded, hgo.active, hgo.byte, hgo.cover⟩
  · cases h

theorem Inv.expire (hC : NoWakeWasted s (.expire i)) (h : expire s i = some t) :
    Inv t := by
  simp only [SimpleQueue.expire] at h
  split at h
  swap
  · cases h
  split at h
  · rename_i hpc
    cases h
    have hi : i ∉ s.waiters := hI.notMem_of_not_recorded (by rw [hpc]; rfl)
    apply hI.goGet (fun hi' => absurd hi' hi) (by simp [GetPc.waiting]) (by simp [GetPc.trusting])
    apply hI.cover.goGet (by simp [GetPc.settled])
    intro hc
    simp [Covers, hpc, GetPc.waiting] at hc
  · rename_i hpc
    cases h
    apply hI.goGet (fun _ => rfl) (by simp [GetPc.waiting]) (by simp [GetPc.trusting])
    by_cases hi : i ∈ s.waiters
    · -- still registered: the call covered nothing
      apply hI.cover.goGet (by simp [GetPc.settled])
      intro hc
      simp [Covers, hpc, hi] at hc
    by_cases hitems : s.items = []
    · exact Cover.of_items_nil hitems
    apply Cover.of_not_settled
    intro ht
    have hs : Settled s := by
      apply ht.of_update (s := s) (i := i) rfl (fun j hj => .inl hj)
      simp [GetPc.settled]
    exact hC ⟨hpc, hi, hitems, hs⟩
  · cases h

end

/-! ## Steps of a put -/

theorem WakeDue.goPut {c : PutPc α} (h : WakeDue s i) (hbyte : s.byte i = true → t.byte i = true)
    (hput : t.putter = update s.putter p c)
    (hc : (∃ b, s.putter p = .readActive i b) ∨ s.putter p = .unpark i →
      t.byte i = true ∨ (∃ b, c = .readActive i b) ∨ c = .unpark i) : WakeDue t i := by
  rcases h with hb | ⟨q, hq⟩
  · exact .inl (hbyte hb)
  by_cases hqp : q = p
  · subst hqp
    rcases hc hq with hb | hnew
    · exact .inl hb
    · refine .inr ⟨q, ?_⟩
      rwa [hput, update_self]
  · refine .inr ⟨q, ?_⟩
    rwa [hput, update_of_ne hqp]

theorem Inv.of_put {c : PutPc α} (hI : Inv s) (hget : t.getter = s.getter)
    (hwaiters : t.waiters = s.waiters) (hactive : t.active = s.active)
    (hput : t.putter = update s.putter p c)
    (hbyte : ∀ i, s.byte i = true → t.byte i = true)
    (hdue : ∀ i, (s.getter i).trusting = true → (∃ b, s.putter p = .readActive i b) ∨ s.putter p = .unpark i →
      t.byte i = true ∨ (∃ b, c = .readActive i b) ∨ c = .unpark i) (hcover : Cover t) :
    Inv t where
  nodup := by
    rw [hwaiters]
    exact hI.nodup
  recorded := by
    rw [hwaiters, hget]
    exact hI.recorded
  active := by
    rw [hget, hactive]
    exact hI.active
  byte := by
    intro i hi hnot
    rw [hget] at hi
    rw [hwaiters] at hnot
    exact (hI.byte i hi hnot).goPut (hbyte i) hput (hdue i hi)
  cover := hcover

theorem Settled.congr (hs : Settled t) (hget : t.getter = s.getter)
    (hwaiters : t.waiters = s.waiters) : Settled s := by
  unfold Settled at hs ⊢
  rwa [← hget, ← hwaiters]

theorem Covers.congr (h : Covers s j) (hget : t.getter = s.getter)
    (hwaiters : t.waiters = s.waiters) : Covers t j := by
  unfold Covers at h ⊢
  rwa [hget, hwaiters]

theorem Cover.goPut {c : PutPc α} (h : Cover s) (hget : t.getter = s.getter)
    (hwaiters : t.waiters = s.waiters) (hitems : t.items = s.items)
    (hput : t.putter = update s.putter p c)
    (hc : (s.putter p).seeking = true → c.seeking = true) : Cover t := by
  apply h.of_le (by rw [hitems])
  · exact fun ht => ht.congr hget hwaiters
  · exact fun j hj => hj.congr hget hwaiters
  · intro q hq
    rw [hput]
    by_cases hqp : q = p
    · subst hqp
      rw [update_self]
      exact hc hq
    · rwa [update_of_ne hqp]

theorem Inv.append {x : α} (hI : Inv s) (hpc : s.putter p = .append x) (h : putNext s p = some t) : Inv t := by
  simp only [putNext, hpc] at h
  cases h
  refine hI.of_put (p := p) (c := .test) rfl rfl rfl rfl (fun _ => id) ?_ ?_
  · simp [hpc]
  · apply hI.cover.publish (p := p)
    · simp [State.goPut]
    · exact fun ht => ht.congr rfl rfl
    · exact fun j hj => hj.congr rfl rfl
    · rw [hpc]
      rfl
    · simp [PutPc.seeking]
    · exact fun q hq => update_of_ne hq _ _

theorem Inv.popWaiter {rest : List ℕ} (hI : Inv s) (hpc : s.putter p = .popWaiter) (hw : s.waiters = i :: rest) :
    Inv ({ s with waiters := rest }.goPut p (.readActive i (s.getter i).left)) := by
  have hnodup := hI.nodup
  rw [hw, nodup_cons] at hnodup
  have hsettled : Settled (State.goPut { s with waiters := rest } p
      (.readActive i (s.getter i).left)) → Settled s := by
    rintro ⟨j, hj, hset⟩
    refine ⟨j, ?_, hset⟩
    rw [hw]
    exact mem_cons_of_mem i hj
  have hcovers : ∀ j, j ≠ i → Covers s j →
      Covers (State.goPut { s with waiters := rest } p (.readActive i (s.getter i).left)) j :=
    fun j hji hj => hj.take hji rfl hw rfl
  have hrec := hI.recorded i (by rw [hw]; exact mem_cons_self)
  constructor
  · exact hnodup.2
  · intro j hj
    exact hI.recorded j (by rw [hw]; exact mem_cons_of_mem i hj)
  · exact hI.active
  · intro j hj hnot
    by_cases hji : j = i
    · subst hji
      exact .inr ⟨p, .inl ⟨_, update_self ..⟩⟩
    · have hold : WakeDue s j := by
        apply hI.byte j hj
        rw [hw, mem_cons]
        rintro (hji' | hmem)
        · exact hji hji'
        · exact hnot hmem
      refine hold.goPut (fun hb => hb) rfl ?_
      simp [hpc]
  · cases hleft : (s.getter i).left with
    | true =>
      -- the getter had stopped waiting: the put goes on seeking
      rw [hleft] at hsettled hcovers
      apply hI.cover.of_le (by exact le_refl _) hsettled
      · intro j hj
        apply hcovers j _ hj
        rintro rfl
        rcases hj with ⟨hwait, _⟩ | ⟨hre, _⟩
        · cases hg : s.getter j <;> simp [hg, GetPc.left, GetPc.waiting] at hleft hwait
        · simp [hre, GetPc.left] at hleft
      · intro q hq
        by_cases hqp : q = p
        · subst hqp
          simp [PutPc.seeking]
        · simpa [update_of_ne hqp] using hq
    | false =>
      rw [hleft] at hsettled hcovers
      have hwait : (s.getter i).waiting = true := by
        cases hg : s.getter i <;> simp_all [GetPc.left, GetPc.recorded, GetPc.waiting]
      apply hI.cover.hand_over (i := i) (p := p)
      · rfl
      · exact hsettled
      · exact .inl ⟨hwait, hnodup.1⟩
      · -- a getter that covered from the head had no settled getter behind it
        rintro ⟨j, hj, hset⟩ (⟨_, hnot⟩ | ⟨_, l, r, hlr, hr⟩)
        · rw [hw] at hnot
          exact hnot mem_cons_self
        · rw [hw] at hlr
          cases l with
          | nil =>
            cases (List.cons.inj hlr).2
            have hns := hr j hj
            rw [show (s.getter j).settled = true from hset] at hns
            cases hns
          | cons k l =>
            cases (List.cons.inj hlr).1
            apply hnodup.1
            rw [(List.cons.inj hlr).2]
            simp
      · exact hcovers
      · exact fun q hq => update_of_ne hq _ _

theorem Inv.readActive {stale : Bool} (hI : Inv s) (hpc : s.putter p = .readActive i stale)
    (hC : NoWakeWasted s (.putNext p)) (h : putNext s p = some t) : Inv t := by
  simp only [putNext, hpc] at h
  cases h
  refine hI.of_put (p := p) rfl rfl rfl rfl (fun _ => id) ?_ ?_
  · intro j hj hdue
    rw [hpc] at hdue
    rcases hdue with ⟨b, hb⟩ | hb
    · have hij : i = j := (PutPc.readActive.inj hb).1
      subst hij
      -- a getter that still trusts its registration is active
      have hact : s.active i = true := by
        apply hI.active
        cases hg : s.getter i <;> simp_all [GetPc.trusting, GetPc.waiting]
      rw [if_pos hact]
      exact .inr (.inr rfl)
    · cases hb
  · by_cases hact : s.active i = true
    · rw [if_pos hact]
      cases stale with
      | false =>
        refine hI.cover.goPut rfl rfl rfl rfl ?_
        simp [hpc, PutPc.seeking]
      | true =>
        by_cases hitems : s.items = []
        · exact Cover.of_items_nil hitems
        apply Cover.of_not_settled
        intro ht
        simp only [NoWakeWasted, hpc] at hC
        exact hC ⟨trivial, hact, hitems, ht.congr rfl rfl⟩
    · rw [if_neg hact]
      exact hI.cover.goPut rfl rfl rfl rfl fun _ => rfl

theorem Inv.putNext (hI : Inv s) (hC : NoWakeWasted s (.putNext p)) (h : putNext s p = some t) :
    Inv t := by
  cases hpc : s.putter p with
  | idle => simp [SimpleQueue.putNext, hpc] at h
  | append x => exact hI.append hpc h
  | test =>
    simp only [SimpleQueue.putNext, hpc] at h
    cases h
    refine hI.of_put (p := p) rfl rfl rfl rfl (fun _ => id) (by simp [hpc]) ?_
    split_ifs with hw
    · apply Cover.of_not_settled
      rintro ⟨j, hj, _⟩
      simp [State.goPut, hw] at hj
    · exact hI.cover.goPut rfl rfl rfl rfl fun _ => rfl
  | popWaiter =>
    simp only [SimpleQueue.putNext, hpc] at h
    split at h
    · rename_i hw
      cases h
      refine hI.of_put (p := p) rfl rfl rfl rfl (fun _ => id) (by simp [hpc]) ?_
      apply Cover.of_not_settled
      rintro ⟨j, hj, _⟩
      simp [State.goPut, hw] at hj
    · rename_i hw
      cases h
      exact hI.popWaiter hpc hw
  | readActive i stale => exact hI.readActive hpc hC h
  | unpark i =>
    simp only [SimpleQueue.putNext, hpc] at h
    cases h
    refine hI.of_put (p := p) rfl rfl rfl rfl ?_ ?_ ?_
    · intro j hj
      by_cases hji : j = i
      · subst hji
        exact update_self ..
      · exact (update_of_ne hji _ _).trans hj
    · intro j _ hdue
      rw [hpc] at hdue
      rcases hdue with ⟨b, hb⟩ | hb
      · cases hb
      · cases hb
        exact .inl (update_self ..)
    · refine hI.cover.goPut rfl rfl rfl rfl ?_
      simp [hpc, PutPc.seeking]

theorem Inv.step {a : Action α} (hI : Inv s) (hC : NoWakeWasted s a) (h : step s a = some t) :
    Inv t := by
  cases a with
  | get i c => exact hI.get h
  | getNext i => exact hI.getNext h
  | expire i => exact hI.expire hC h
  | put p x =>
    simp only [SimpleQueue.step] at h
    split at h
    · rename_i hpc
      cases h
      refine hI.of_put (p := p) rfl rfl rfl rfl (fun _ => id) (by simp [hpc]) ?_
      refine hI.cover.goPut rfl rfl rfl rfl ?_
      simp [hpc, PutPc.seeking]
    · cases h
  | putNext p => exact hI.putNext hC h

theorem Inv.init (hI : Init s) : Inv s := by
  constructor
  · rw [hI.waiters]
    exact nodup_nil
  · simp [hI.waiters]
  · intro i hi
    simp [hI.getter i, GetPc.waiting] at hi
  · intro i hi
    simp [hI.getter i, GetPc.trusting] at hi
  · exact Cover.of_items_nil hI.items

theorem simpleQueue_inv (hr : (simpleQueue α).ReachableWith NoWakeWasted s) : Inv s :=
  hr.invariant (fun _ => Inv.init) fun _ _ _ hI hC h => hI.step hC h

/-! ## The result -/

/-- The call will look at the items before it can block in `park` again. -/
def WillPop (s : State α) (i : ℕ) : Prop :=
  match s.getter i with
  | .firstPop | .loopPop | .rePop => True
  | .deadline | .check | .reRegister => i ∉ s.waiters
  | .park => s.byte i = true
  | _ => False

def GetPc.pops : GetPc α → Bool
  | .firstPop | .loopPop | .rePop => true
  | _ => false

theorem Inv.willPop_of_covers (hI : Inv s) (hquiet : ∀ p, s.putter p = .idle) (hi : Covers s i) :
    WillPop s i := by
  unfold WillPop
  rcases hi with ⟨hwait, hnot⟩ | ⟨hre, _⟩
  · cases hpc : s.getter i with
    | park =>
      rcases hI.byte i (by rw [hpc]; rfl) hnot with hb | ⟨p, hp⟩
      · exact hb
      · simp [hquiet p] at hp
    | firstPop | loopPop | rePop => trivial
    | deadline | check | reRegister => exact hnot
    | _ => simp [hpc, GetPc.waiting] at hwait
  · rw [hre]
    trivial

theorem WillPop.mono (h : WillPop s i) (hget : t.getter i = s.getter i)
    (hbyte : s.byte i = true → t.byte i = true) (hmem : i ∈ t.waiters → i ∈ s.waiters) :
    WillPop t i := by
  unfold WillPop at h ⊢
  rw [hget]
  cases hpc : s.getter i with
  | deadline | check | reRegister =>
    rw [hpc] at h
    exact fun hi => h (hmem hi)
  | park =>
    rw [hpc] at h
    exact hbyte h
  | _ =>
    rw [hpc] at h
    exact h

theorem getNext_other (h : getNext s j = some t) (hij : i ≠ j) :
    t.getter i = s.getter i ∧ t.byte i = s.byte i ∧ (i ∈ t.waiters → i ∈ s.waiters) := by
  have hpop : ∀ {found : α → GetPc α} {empty : GetPc α}, popItem s j found empty = t →
      t.getter i = s.getter i ∧ t.byte i = s.byte i ∧ (i ∈ t.waiters → i ∈ s.waiters) := by
    intro found empty hp
    unfold popItem at hp
    split at hp <;> subst hp <;> exact ⟨update_of_ne hij _ _, rfl, id⟩
  cases hpc : s.getter j with
  | idle | done => simp [getNext, hpc] at h
  | fastPop | spin | firstPop | loopPop | rePop =>
    simp only [getNext, hpc] at h
    exact hpop (Option.some.inj h)
  | register =>
    simp only [getNext, hpc] at h
    cases h
    refine ⟨update_of_ne hij _ _, update_of_ne hij _ _, ?_⟩
    simp [State.goGet, hij]
  | reRegister =>
    simp only [getNext, hpc] at h
    cases h
    refine ⟨update_of_ne hij _ _, rfl, ?_⟩
    simp [State.goGet, hij]
  | park =>
    simp only [getNext, hpc] at h
    cases h
    exact ⟨update_of_ne hij _ _, update_of_ne hij _ _, id⟩
  | remove =>
    simp only [getNext, hpc] at h
    cases h
    exact ⟨update_of_ne hij _ _, rfl, mem_of_mem_erase⟩
  | spinWait | deadline | check | deactivate | release =>
    simp only [getNext, hpc] at h
    cases h
    exact ⟨update_of_ne hij _ _, rfl, id⟩

theorem WillPop.getNext_self (h : WillPop s i) (hstep : getNext s i = some t) :
    WillPop t i ∨ (s.getter i).pops = true := by
  unfold WillPop at h
  cases hpc : s.getter i with
  | firstPop | loopPop | rePop => exact .inr rfl
  | deadline =>
    rw [hpc] at h
    simp only [getNext, hpc] at hstep
    cases hstep
    left
    simpa [WillPop, State.goGet] using h
  | check =>
    rw [hpc] at h
    simp only [getNext, hpc, if_neg h] at hstep
    cases hstep
    left
    simpa [WillPop, State.goGet] using h
  | reRegister | park =>
    simp only [getNext, hpc] at hstep
    cases hstep
    left
    simp [WillPop, State.goGet]
  | _ =>
    rw [hpc] at h
    cases h

theorem WillPop.putNext (h : WillPop s i) (hstep : putNext s p = some t) : WillPop t i := by
  cases hpc : s.putter p with
  | idle => simp [SimpleQueue.putNext, hpc] at hstep
  | append | test | readActive =>
    simp only [SimpleQueue.putNext, hpc] at hstep
    cases hstep
    exact h.mono rfl id id
  | popWaiter =>
    simp only [SimpleQueue.putNext, hpc] at hstep
    split at hstep
    · cases hstep
      exact h.mono rfl id id
    · rename_i hw
      cases hstep
      refine h.mono rfl id ?_
      rw [hw]
      exact mem_cons_of_mem _
  | unpark j =>
    simp only [SimpleQueue.putNext, hpc] at hstep
    cases hstep
    refine h.mono rfl ?_ id
    intro hb
    by_cases hij : i = j
    · subst hij
      exact update_self ..
    · exact (update_of_ne hij _ _).trans hb

theorem WillPop.step {a : Action α} (h : WillPop s i) (hstep : step s a = some t) :
    WillPop t i ∨ a = .getNext i ∧ (s.getter i).pops = true ∨ a = .expire i := by
  cases a with
  | get j c =>
    left
    simp only [SimpleQueue.step] at hstep
    split at hstep
    · rename_i hpc
      cases hstep
      have hij : i ≠ j := by
        rintro rfl
        simp [WillPop, hpc] at h
      exact h.mono (update_of_ne hij _ _) id id
    · cases hstep
  | getNext j =>
    by_cases hij : i = j
    · subst hij
      exact (h.getNext_self hstep).imp_right fun hp => .inl ⟨rfl, hp⟩
    · rcases getNext_other hstep hij with ⟨hget, hbyte, hmem⟩
      exact .inl (h.mono hget (fun hb => hbyte.trans hb) hmem)
  | expire j =>
    by_cases hij : i = j
    · subst hij
      exact .inr (.inr rfl)
    left
    simp only [SimpleQueue.step, SimpleQueue.expire] at hstep
    split at hstep
    · split at hstep <;> cases hstep <;> exact h.mono (update_of_ne hij _ _) id id
    · cases hstep
  | put p x =>
    left
    simp only [SimpleQueue.step] at hstep
    split at hstep <;> cases hstep
    exact h.mono rfl id id
  | putNext p => exact .inl (h.putNext hstep)

/-- While a getter is blocked with no wake byte and no put is in progress, as many others as there are items will
look at them. -/
theorem simpleQueue_items_covered (hr : (simpleQueue α).ReachableWith NoWakeWasted s)
    (hquiet : ∀ p, s.putter p = .idle) (hpark : s.getter j = .park) (hbyte : s.byte j = false) :
    ∃ S : Finset ℕ, j ∉ S ∧ s.items.length ≤ S.card ∧ ∀ i ∈ S, WillPop s i ∧ ∀ a t, step s a = some t →
        WillPop t i ∨ a = .getNext i ∧ (s.getter i).pops = true ∨ a = .expire i := by
  have hI := simpleQueue_inv hr
  have hj : j ∈ s.waiters := by
    by_contra hnot
    rcases hI.byte j (by rw [hpark]; rfl) hnot with hb | ⟨p, hp⟩
    · rw [hb] at hbyte
      cases hbyte
    · simp [hquiet p] at hp
  rcases hI.cover ⟨j, hj, by rw [hpark]; rfl⟩ with ⟨S, T, hle, hS, hT⟩
  have hempty : T = ∅ := by
    apply Finset.eq_empty_of_forall_notMem
    intro p hp
    have hseek := hT p hp
    rw [hquiet p] at hseek
    cases hseek
  rw [hempty, Finset.card_empty] at hle
  refine ⟨S, ?_, hle, ?_⟩
  · intro hjS
    rcases hS j hjS with ⟨_, hnot⟩ | ⟨hre, _⟩
    · exact hnot hj
    · rw [hpark] at hre
      cases hre
  · intro i hi
    have hwill := hI.willPop_of_covers hquiet (hS i hi)
    exact ⟨hwill, fun a t h => hwill.step h⟩

/-! ## Concrete schedules -/

instance [DecidableEq α] (s : State α) : (a : Action α) → Decidable (NoWakeWasted s a)
  | .get _ _ | .getNext _ | .put _ _ => .isTrue trivial
  | .expire i => inferInstanceAs (Decidable (¬(s.getter i = .deadline ∧ _)))
  | .putNext p =>
    match h : s.putter p with
    | .readActive i stale =>
      decidable_of_iff (¬(stale = true ∧ s.active i = true ∧ s.items ≠ [] ∧ Settled s))
        (by simp only [NoWakeWasted, h])
    | .idle | .append _ | .test | .popWaiter | .unpark _ => .isTrue (by simp only [NoWakeWasted, h])

def emptyQueue : State ℕ where
  items := []
  waiters := []
  active := fun _ => false
  byte := fun _ => false
  call := fun _ => ⟨true, true, false⟩
  getter := fun _ => .idle
  putter := fun _ => .idle

theorem emptyQueue_init : (simpleQueue ℕ).init emptyQueue :=
  ⟨rfl, rfl, fun _ => rfl, fun _ => rfl⟩

/-- An untimed `get` on the empty queue, up to its park. -/
def parkGetter (i : ℕ) : List (Action ℕ) :=
  .get i ⟨true, true, false⟩ :: List.replicate 6 (.getNext i)

def putAndWake : List (Action ℕ) := .put 0 7 :: List.replicate 5 (.putNext 0)

def twoParkedOnePut : List (Action ℕ) := parkGetter 0 ++ parkGetter 1 ++ putAndWake

/-- A put spends its wake on getter `0`, which is about to clear its active flag. -/
def wakeWasted : List (Action ℕ) :=
  [Action.get 0 ⟨true, true, false⟩, .getNext 0, .put 0 5, .putNext 0, .putNext 0, .getNext 0,
    .getNext 0] ++ parkGetter 1 ++ putAndWake

/-- The action is one of the getters `0` and `1` or of the put `0`. -/
def Action.small : Action α → Bool
  | .get i _ | .getNext i | .expire i => i < 2
  | .put p _ | .putNext p => p = 0

/-- All other calls are idle. -/
structure Small (s : State α) : Prop where
  getter : ∀ i, 2 ≤ i → s.getter i = .idle
  putter : ∀ p, p ≠ 0 → s.putter p = .idle

theorem getNext_putter (h : getNext s i = some t) : t.putter = s.putter := by
  have hpop : ∀ {found : α → GetPc α} {empty : GetPc α}, popItem s i found empty = t → t.putter = s.putter := by
    intro found empty hp
    unfold popItem at hp
    split at hp <;> subst hp <;> rfl
  cases hpc : s.getter i with
  | idle | done => simp [getNext, hpc] at h
  | fastPop | spin | firstPop | loopPop | rePop =>
    simp only [getNext, hpc] at h
    exact hpop (Option.some.inj h)
  | _ =>
    simp only [getNext, hpc] at h
    cases h
    rfl

theorem putNext_frame (h : putNext s p = some t) : t.getter = s.getter ∧ ∃ c, t.putter = update s.putter p c := by
  cases hpc : s.putter p with
  | idle => simp [putNext, hpc] at h
  | popWaiter =>
    simp only [putNext, hpc] at h
    split at h <;> cases h <;> exact ⟨rfl, _, rfl⟩
  | _ =>
    simp only [putNext, hpc] at h
    cases h
    exact ⟨rfl, _, rfl⟩

theorem Small.step {a : Action α} (ha : a.small = true) (hs : Small s) (h : step s a = some t) :
    Small t := by
  have hget : ∀ {i : ℕ} {u : State α}, i < 2 → u.putter = s.putter →
      (∀ j, j ≠ i → u.getter j = s.getter j) → Small u := by
    intro i u hi hput hget
    refine ⟨fun j hj => (hget j (by omega)).trans (hs.getter j hj), fun p hp => ?_⟩
    rw [hput]
    exact hs.putter p hp
  have hput : ∀ {u : State α} {c}, u.getter = s.getter → u.putter = update s.putter 0 c → Small u := by
    intro u c hget hput
    refine ⟨fun j hj => by rw [hget]; exact hs.getter j hj, fun p hp => ?_⟩
    rw [hput, update_of_ne hp]
    exact hs.putter p hp
  cases a with
  | get i c =>
    simp only [SimpleQueue.step] at h
    split at h <;> cases h
    exact hget (of_decide_eq_true ha) rfl fun j hj => update_of_ne hj _ _
  | getNext i =>
    exact hget (of_decide_eq_true ha) (getNext_putter h) fun j hj => (getNext_other h hj).1
  | expire i =>
    simp only [SimpleQueue.step, expire] at h
    split at h
    · split at h <;> cases h <;>
        exact hget (of_decide_eq_true ha) rfl fun j hj => update_of_ne hj _ _
    · cases h
  | put p x =>
    cases (of_decide_eq_true ha : p = 0)
    simp only [SimpleQueue.step] at h
    split at h <;> cases h
    exact hput rfl rfl
  | putNext p =>
    cases (of_decide_eq_true ha : p = 0)
    rcases putNext_frame h with ⟨hg, c, hc⟩
    exact hput hg hc

theorem small_of_run {as : List (Action ℕ)} {t : State ℕ} (has : ∀ a ∈ as, a.small = true)
    (h : (simpleQueue ℕ).run emptyQueue as = some t) : Small t :=
  System.run_invariant_of_forall (fun _ _ _ ha hs hu => Small.step ha hs hu) has
    ⟨fun _ _ => rfl, fun _ _ => rfl⟩ h

theorem Small.quiet (hs : Small s) (h : s.putter 0 = .idle) (p : ℕ) : s.putter p = .idle := by
  by_cases hp : p = 0
  · rw [hp]
    exact h
  · exact hs.putter p hp

/-- Getter `1` is blocked beside an item and no put is in progress. -/
def blockedBeside (s : State ℕ) : Bool :=
  decide (s.putter 0 = .idle ∧ s.items = [7] ∧ s.getter 1 = .park ∧ s.byte 1 = false)

/-- With two getters parked, a put wakes the first; the second is covered by it. -/
theorem simpleQueue_items_covered_twoParked : ∃ s, (simpleQueue ℕ).run emptyQueue twoParkedOnePut = some s ∧
      s.items = [7] ∧ s.getter 1 = .park ∧ s.byte 1 = false ∧
      ∃ S : Finset ℕ, 1 ∉ S ∧ s.items.length ≤ S.card ∧ ∀ i ∈ S, WillPop s i ∧ ∀ a t, step s a = some t →
          WillPop t i ∨ a = .getNext i ∧ (s.getter i).pops = true ∨ a = .expire i := by
  rcases System.exists_reachableWith_of_replay (M := simpleQueue ℕ) (C := NoWakeWasted)
    (p := blockedBeside) twoParkedOnePut emptyQueue_init (by decide +kernel)
    with ⟨s, hrun, hr, hp⟩
  rcases of_decide_eq_true hp with ⟨hput, hitems, hpark, hbyte⟩
  have hquiet := (small_of_run (by decide) hrun).quiet hput
  exact ⟨s, hrun, hitems, hpark, hbyte, simpleQueue_items_covered hr hquiet hpark hbyte⟩

/-- A put wakes one getter only: the other stays blocked, with no byte, beside the item. -/
theorem blocked_beside_item : ∃ s, (simpleQueue ℕ).Reachable s ∧ (∀ p, s.putter p = .idle) ∧ s.items ≠ [] ∧
      s.getter 1 = .park ∧ s.byte 1 = false := by
  rcases System.exists_reachable_of_run (M := simpleQueue ℕ) (p := blockedBeside) twoParkedOnePut
    emptyQueue_init (by decide +kernel) with ⟨s, hrun, hr, hp⟩
  rcases of_decide_eq_true hp with ⟨hput, hitems, hpark, hbyte⟩
  refine ⟨s, hr, (small_of_run (by decide) hrun).quiet hput, ?_, hpark, hbyte⟩
  simp [hitems]

theorem stranded_of_wakeWasted : ∃ s, (simpleQueue ℕ).Reachable s ∧ (∀ p, s.putter p = .idle) ∧ s.items ≠ [] ∧
      s.getter 1 = .park ∧ s.byte 1 = false ∧ ∀ i, ¬WillPop s i := by
  rcases System.exists_reachable_of_run (M := simpleQueue ℕ)
    (p := fun s => blockedBeside s && decide (s.getter 0 = .deactivate (some 5))) wakeWasted
    emptyQueue_init (by decide +kernel) with ⟨s, hrun, hr, hp⟩
  rw [Bool.and_eq_true] at hp
  rcases of_decide_eq_true hp.1 with ⟨hput, hitems, hpark, hbyte⟩
  have hleft : s.getter 0 = .deactivate (some 5) := of_decide_eq_true hp.2
  have hsmall : Small s := small_of_run (by decide) hrun
  refine ⟨s, hr, hsmall.quiet hput, by simp [hitems], hpark, hbyte, ?_⟩
  intro i
  match i with
  | 0 => simp [WillPop, hleft]
  | 1 => simp [WillPop, hpark, hbyte]
  | i + 2 => simp [WillPop, hsmall.getter (i + 2) (by omega)]

end Runloom.SimpleQueue
