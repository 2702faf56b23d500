import Runloom.ParkerPool.ExpirySteps

/-!
# The acts of the expiry sweep

`Does P a Q` says that the act `a` may be done to the pool `P` and leaves `Q`, and `Trace` is a sequence of acts.  The
sweep and the error wakes are such sequences.  What a sequence leaves of a pool is in `After`: it composes, so that it
has to be proved for one act only.
-/

namespace Runloom.ParkerPool

open Transition List

variable {cfg : Config} {now : ℤ} {r : Bool} {D D' : ℤ → Prop} {P Q R : Pool} {p q : Parker} {h : Parker → Made}
  {as bs : List Act} {a : Act}

def Sound (cfg : Config) (P : Pool) (h : Parker → Made) : Prop := ∃ l b hl, PoolInv cfg P h l b hl

/-- When each act is done.  `D` says which descriptors were found dead. -/
inductive Does (cfg : Config) (now : ℤ) (r : Bool) (D : ℤ → Prop) (P : Pool) : Act → Pool → Prop where
  | probe {p : Parker} (hheap : (P.base.dh.heapIndex p).isSome = true)
      (hdue : (P.base.request p).deadlineNs ≤ now) (hpend : (P.waiting p).probePending = true) :
      Does cfg now r D P (.probe p) (P.rekey cfg p r)
  | timeout {p : Parker} (hheap : (P.base.dh.heapIndex p).isSome = true)
      (hdue : (P.base.request p).deadlineNs ≤ now) (hpend : (P.waiting p).probePending = false)
      (hc : (P.waiting p).commit ≠ .woken) : Does cfg now r D P (.timeout p) (P.claim cfg p 0)
  | drop {p : Parker} (hheap : (P.base.dh.heapIndex p).isSome = true)
      (hdue : (P.base.request p).deadlineNs ≤ now) (hpend : (P.waiting p).probePending = false)
      (hc : (P.waiting p).commit = .woken) : Does cfg now r D P (.drop p) (P.drop cfg p)
  | error {p : Parker} (hlinked : P.base.isLinked p = true) (hD : D (P.base.request p).fd)
      (hev : (P.waiting p).events &&& readWrite ≠ 0) (hc : (P.waiting p).commit ≠ .woken) :
      Does cfg now r D P (.error p) (P.claim cfg p (readWrite &&& (P.waiting p).events))

inductive Trace (cfg : Config) (now : ℤ) (r : Bool) (D : ℤ → Prop) : Pool → List Act → Pool → Prop where
  | nil {P : Pool} : Trace cfg now r D P [] P
  | snoc {P Q R : Pool} {as : List Act} {a : Act} (ht : Trace cfg now r D P as Q) (hd : Does cfg now r D Q a R) :
      Trace cfg now r D P (as ++ [a]) R

theorem Trace.trans (h₁ : Trace cfg now r D P as Q) (h₂ : Trace cfg now r D Q bs R) :
    Trace cfg now r D P (as ++ bs) R := by
  induction h₂ with
  | nil =>
    rw [append_nil]
    exact h₁
  | snoc _ hd ih =>
    rw [← append_assoc]
    exact .snoc ih hd

theorem Trace.mono (hD : ∀ fd, D fd → D' fd) (ht : Trace cfg now r D P as Q) : Trace cfg now r D' P as Q := by
  induction ht with
  | nil => exact .nil
  | snoc _ hd ih =>
    refine .snoc ih ?_
    cases hd with
    | probe hheap hdue hpend => exact .probe hheap hdue hpend
    | timeout hheap hdue hpend hc => exact .timeout hheap hdue hpend hc
    | drop hheap hdue hpend hc => exact .drop hheap hdue hpend hc
    | error hlinked hd hev hc => exact .error hlinked (hD _ hd) hev hc

def Pool.waiter (P : Pool) (p : Parker) : Option ℕ × Option ℕ := ((P.base.request p).hub, (P.base.request p).g)

/-- What a sequence of acts leaves. -/
structure After (now : ℤ) (D : ℤ → Prop) (P : Pool) (as : List Act) (Q : Pool) : Prop where
  fixed (p : Parker) :
    (Q.waiting p).userDeadlineNs = (P.waiting p).userDeadlineNs ∧ (Q.base.request p).fd = (P.base.request p).fd ∧
      Q.waiter p = P.waiter p
  inited : Q.inited = P.inited
  linked (p : Parker) (hp : Q.base.isLinked p = true) : P.base.isLinked p = true
  gone (p : Parker) (hp : P.base.isLinked p = true) (hq : Q.base.isLinked p = false) :
    Act.timeout p ∈ as ∨ Act.drop p ∈ as ∨ Act.error p ∈ as
  pending (p : Parker) (hp : (Q.waiting p).probePending = true) :
    (P.waiting p).probePending = true ∧ (Q.base.request p).deadlineNs = (P.base.request p).deadlineNs
  kept (p : Parker) (hp : Act.probe p ∉ as) : (Q.waiting p).probePending = (P.waiting p).probePending ∧
      (Q.base.request p).deadlineNs = (P.base.request p).deadlineNs
  probed (p : Parker) (hp : Act.probe p ∈ as) :
    P.base.isLinked p = true ∧ (P.waiting p).probePending = true ∧ (P.base.request p).deadlineNs ≤ now ∧
      (Q.waiting p).probePending = false
  once (p : Parker) : as.count (Act.probe p) ≤ 1
  timeout (p : Parker) (hp : Act.timeout p ∈ as) :
    0 ≤ (P.waiting p).userDeadlineNs ∧ (P.waiting p).userDeadlineNs ≤ now
  error (p : Parker) (hp : Act.error p ∈ as) : D (P.base.request p).fd
  commit (p : Parker) (hp : (Q.waiting p).commit ≠ (P.waiting p).commit) : Act.timeout p ∈ as ∨ Act.error p ∈ as
  ready (p : Parker) (hp : (Q.waiting p).readyOut ≠ (P.waiting p).readyOut) :
    Act.timeout p ∈ as ∧ (Q.waiting p).readyOut = some 0 ∨
      Act.error p ∈ as ∧ ∃ m, m ≠ 0 ∧ (Q.waiting p).readyOut = some m

theorem After.refl : After now D P [] P where
  fixed _ := ⟨rfl, rfl, rfl⟩
  inited := rfl
  linked _ hp := hp
  gone _ hp hq := absurd (hp.symm.trans hq) nofun
  pending _ hp := ⟨hp, rfl⟩
  kept _ _ := ⟨rfl, rfl⟩
  probed _ hp := absurd hp not_mem_nil
  once _ := by simp
  timeout _ hp := absurd hp not_mem_nil
  error _ hp := absurd hp not_mem_nil
  commit _ hp := absurd rfl hp
  ready _ hp := absurd rfl hp

theorem After.trans (h₁ : After now D P as Q) (h₂ : After now D Q bs R) : After now D P (as ++ bs) R where
  fixed p := by
    obtain ⟨huser, hfd, hwaiter⟩ := h₁.fixed p
    obtain ⟨huser', hfd', hwaiter'⟩ := h₂.fixed p
    exact ⟨huser'.trans huser, hfd'.trans hfd, hwaiter'.trans hwaiter⟩
  inited := h₂.inited.trans h₁.inited
  linked p hp := h₁.linked p (h₂.linked p hp)
  gone p hp hr := by
    simp only [mem_append]
    cases hq : Q.base.isLinked p with
    | true =>
      have := h₂.gone p hq hr
      grind
    | false =>
      have := h₁.gone p hp hq
      grind
  pending p hp := by
    obtain ⟨hq, hd⟩ := h₂.pending p hp
    obtain ⟨hq', hd'⟩ := h₁.pending p hq
    exact ⟨hq', hd.trans hd'⟩
  kept p hp := by
    rw [mem_append, not_or] at hp
    obtain ⟨hflag, hkey⟩ := h₂.kept p hp.2
    obtain ⟨hflag', hkey'⟩ := h₁.kept p hp.1
    exact ⟨hflag.trans hflag', hkey.trans hkey'⟩
  probed p hp := by
    rcases mem_append.mp hp with hp | hp
    · obtain ⟨hlink, hpend, hdue, hq⟩ := h₁.probed p hp
      refine ⟨hlink, hpend, hdue, ?_⟩
      cases hr : (R.waiting p).probePending with
      | false => rfl
      | true => exact absurd ((h₂.pending p hr).1.symm.trans hq) nofun
    · obtain ⟨hlink, hpend, hdue, hr⟩ := h₂.probed p hp
      obtain ⟨hpend', hd⟩ := h₁.pending p hpend
      exact ⟨h₁.linked p hlink, hpend', hd ▸ hdue, hr⟩
  once p := by
    rw [count_append]
    by_cases hp : Act.probe p ∈ as
    · -- the flag is clear after the first probe
      have hnot : Act.probe p ∉ bs := by
        intro hb
        have h0 := (h₁.probed p hp).2.2.2
        have h1 := (h₂.probed p hb).2.1
        rw [h0] at h1
        cases h1
      have := h₁.once p
      rw [count_eq_zero_of_not_mem hnot]
      omega
    · have := h₂.once p
      rw [count_eq_zero_of_not_mem hp]
      omega
  timeout p hp := by
    rcases mem_append.mp hp with hp | hp
    · exact h₁.timeout p hp
    · rw [← (h₁.fixed p).1]
      exact h₂.timeout p hp
  error p hp := by
    rcases mem_append.mp hp with hp | hp
    · exact h₁.error p hp
    · rw [← (h₁.fixed p).2.1]
      exact h₂.error p hp
  commit p hp := by
    simp only [mem_append]
    by_cases hq : (Q.waiting p).commit = (P.waiting p).commit
    · have := h₂.commit p fun he => hp (he.trans hq)
      grind
    · have := h₁.commit p hq
      grind
  ready p hp := by
    simp only [mem_append]
    by_cases hr : (R.waiting p).readyOut = (Q.waiting p).readyOut
    · rw [hr] at hp ⊢
      have := h₁.ready p hp
      grind
    · have := h₂.ready p hr
      grind

/-! ### One act -/

namespace PoolInv

variable {l hl : List Parker} {b : ℕ → List Parker}

section

variable (hI : PoolInv cfg P h l b hl)
include hI

theorem isLinked_drop (hp : p ∈ l) :
    (P.drop cfg p).base.isLinked q = true ↔ q ≠ p ∧ P.base.isLinked q = true := by
  rw [(hI.drop hp).base.isLinked_iff, hI.base.isLinked_iff, hI.base.list.nodup.mem_erase_iff]

theorem after_drop {w : Parker → Waiting} (hp : p ∈ l)
    (ha : a = .timeout p ∧ 0 ≤ (P.waiting p).userDeadlineNs ∧ (P.waiting p).userDeadlineNs ≤ now ∨ a = .drop p ∨
      a = .error p ∧ D (P.base.request p).fd)
    (hw : ∀ q, (w q).userDeadlineNs = (P.waiting q).userDeadlineNs ∧
      (w q).probePending = (P.waiting q).probePending)
    (hcommit : ∀ q, (w q).commit ≠ (P.waiting q).commit → q = p ∧ (a = .timeout p ∨ a = .error p))
    (hready : ∀ q, (w q).readyOut ≠ (P.waiting q).readyOut → q = p ∧
      (a = .timeout p ∧ (w q).readyOut = some 0 ∨ a = .error p ∧ ∃ m, m ≠ 0 ∧ (w q).readyOut = some m)) :
    After now D P [a] { P.drop cfg p with waiting := w } where
  fixed q := by
    have hreq : { P.drop cfg p with waiting := w }.base.request q = P.base.request q :=
      congrFun (parkerUnlink_request P.base p) q
    refine ⟨(hw q).1, ?_, ?_⟩
    · rw [hreq]
    · unfold Pool.waiter
      rw [hreq]
  inited := rfl
  linked q hq := ((hI.isLinked_drop hp).mp hq).2
  gone q hq hn := by
    have hqp : q = p := by
      by_contra hne
      have := (hI.isLinked_drop hp).mpr ⟨hne, hq⟩
      rw [show (P.drop cfg p).base.isLinked q = false from hn] at this
      cases this
    subst hqp
    simp only [mem_singleton]
    rcases ha with ⟨ha, -⟩ | ha | ⟨ha, -⟩ <;> simp [ha]
  pending q hq := by
    refine ⟨(hw q).2.symm.trans hq, ?_⟩
    show ((P.base.parkerUnlink cfg p).1.request q).deadlineNs = _
    rw [parkerUnlink_request]
  kept q _ := by
    refine ⟨(hw q).2, ?_⟩
    show ((P.base.parkerUnlink cfg p).1.request q).deadlineNs = _
    rw [parkerUnlink_request]
  probed q hq := by
    rcases ha with ⟨ha, -⟩ | ha | ⟨ha, -⟩ <;> simp [ha] at hq
  once q := by
    rcases ha with ⟨ha, -⟩ | ha | ⟨ha, -⟩ <;> simp [ha]
  timeout q hq := by
    rcases ha with ⟨ha, hle⟩ | ha | ⟨ha, -⟩
    · simp only [ha, mem_singleton, Act.timeout.injEq] at hq
      exact hq ▸ hle
    · simp [ha] at hq
    · simp [ha] at hq
  error q hq := by
    rcases ha with ⟨ha, -⟩ | ha | ⟨ha, hD⟩
    · simp [ha] at hq
    · simp [ha] at hq
    · simp only [ha, mem_singleton, Act.error.injEq] at hq
      exact hq ▸ hD
  commit q hq := by
    obtain ⟨rfl, ha | ha⟩ := hcommit q hq
    · exact .inl (by simp [ha])
    · exact .inr (by simp [ha])
  ready q hq := by
    obtain ⟨rfl, ⟨ha, hr⟩ | ⟨ha, hr⟩⟩ := hready q hq
    · exact .inl ⟨by simp [ha], hr⟩
    · exact .inr ⟨by simp [ha], hr⟩

theorem after_rekey (hp : p ∈ hl) (hdue : (P.base.request p).deadlineNs ≤ now)
    (hpend : (P.waiting p).probePending = true) : After now D P [Act.probe p] (P.rekey cfg p r) := by
  have hpl : p ∈ l := (hI.mem_heap_iff.mp hp).1
  have hself : (P.rekey cfg p r).waiting p = { P.waiting p with probePending := false } := update_self ..
  have hother : ∀ q, q ≠ p → (P.rekey cfg p r).waiting q = P.waiting q := fun q hq => update_of_ne hq _ _
  constructor
  case fixed =>
    intro q
    obtain ⟨hfd, hg, hhub⟩ := rekey_request cfg P p q r
    refine ⟨?_, hfd, by rw [Pool.waiter, Pool.waiter, hg, hhub]⟩
    by_cases hq : q = p
    · rw [hq, hself]
    · rw [hother q hq]
  case inited => rfl
  case linked => exact fun _ hq => hq
  case gone => exact fun q hq hn => absurd (hq.symm.trans hn) nofun
  case pending =>
    intro q hq
    have hne : q ≠ p := by
      rintro rfl
      rw [hself] at hq
      cases hq
    rw [hother q hne] at hq
    refine ⟨hq, ?_⟩
    show (update P.base.request p _ q).deadlineNs = _
    rw [update_of_ne hne]
  case kept =>
    intro q hq
    have hne : q ≠ p := by
      rintro rfl
      exact hq mem_cons_self
    refine ⟨by rw [hother q hne], ?_⟩
    show (update P.base.request p _ q).deadlineNs = _
    rw [update_of_ne hne]
  case probed =>
    intro q hq
    simp only [mem_singleton, Act.probe.injEq] at hq
    subst hq
    exact ⟨hI.base.isLinked_iff.mpr hpl, hpend, hdue, by rw [hself]⟩
  case once => exact fun q => count_le_length.trans (by simp)
  case timeout => exact fun q hq => by simp at hq
  case error => exact fun q hq => by simp at hq
  case commit =>
    intro q hq
    refine absurd ?_ hq
    by_cases hqp : q = p
    · rw [hqp, hself]
    · rw [hother q hqp]
  case ready =>
    intro q hq
    refine absurd ?_ hq
    by_cases hqp : q = p
    · rw [hqp, hself]
    · rw [hother q hqp]

end

end PoolInv

theorem claim_eq (P : Pool) (p : Parker) (ready : ℕ) : P.claim cfg p ready = { P.drop cfg p with
      waiting := update P.waiting p { P.waiting p with commit := .woken, readyOut := some ready } } := rfl

theorem claimed_waiting (P : Pool) (p : Parker) (ready : ℕ) :
    let w := update P.waiting p { P.waiting p with commit := Commit.woken, readyOut := some ready }
    (∀ q, (w q).userDeadlineNs = (P.waiting q).userDeadlineNs ∧ (w q).probePending = (P.waiting q).probePending) ∧
      (∀ q, (w q).commit ≠ (P.waiting q).commit → q = p) ∧
      ∀ q, (w q).readyOut ≠ (P.waiting q).readyOut → q = p ∧ (w q).readyOut = some ready := by
  refine ⟨fun q => ?_, fun q hq => ?_, fun q hq => ?_⟩
  · by_cases hqp : q = p
    · subst hqp
      rw [update_self]
      exact ⟨rfl, rfl⟩
    · rw [update_of_ne hqp]
      exact ⟨rfl, rfl⟩
  · by_contra hqp
    rw [update_of_ne hqp] at hq
    exact hq rfl
  · by_cases hqp : q = p
    · subst hqp
      rw [update_self]
      exact ⟨rfl, rfl⟩
    · rw [update_of_ne hqp] at hq
      exact absurd rfl hq

theorem Does.after (hS : Sound cfg P h) (hd : Does cfg now r D P a Q) : After now D P [a] Q ∧ Sound cfg Q h := by
  obtain ⟨l, b, hl, hI⟩ := hS
  cases hd with
  | probe hheap hdue hpend =>
    have hp := hI.heap.members.mp hheap
    exact ⟨hI.after_rekey hp hdue hpend, _, _, _, hI.rekey hp r⟩
  | @timeout p hheap hdue hpend hc =>
    have hp := hI.heap.members.mp hheap
    obtain ⟨hpl, hpos, -⟩ := hI.mem_heap_iff.mp hp
    rw [hI.timed hpl hpend] at hpos hdue
    obtain ⟨hw, hcommit, hready⟩ := claimed_waiting P p 0
    refine ⟨?_, _, _, _, hI.claim hpl 0⟩
    rw [claim_eq]
    exact hI.after_drop hpl (.inl ⟨rfl, hpos, hdue⟩) hw (fun q hq => ⟨hcommit q hq, .inl rfl⟩)
      fun q hq => ⟨(hready q hq).1, .inl ⟨rfl, (hready q hq).2⟩⟩
  | @drop p hheap hdue hpend hc =>
    have hpl : p ∈ l := (hI.mem_heap_iff.mp (hI.heap.members.mp hheap)).1
    exact ⟨hI.after_drop hpl (.inr (.inl rfl)) (fun _ => ⟨rfl, rfl⟩) (fun _ hq => absurd rfl hq)
      fun _ hq => absurd rfl hq, _, _, _, hI.drop hpl⟩
  | @error p hlinked hD hev hc =>
    have hpl : p ∈ l := hI.base.isLinked_iff.mp hlinked
    obtain ⟨hw, hcommit, hready⟩ := claimed_waiting P p (readWrite &&& (P.waiting p).events)
    rw [Nat.and_comm] at hev
    refine ⟨?_, _, _, _, hI.claim hpl _⟩
    rw [claim_eq]
    exact hI.after_drop hpl (.inr (.inr ⟨rfl, hD⟩)) hw (fun q hq => ⟨hcommit q hq, .inr rfl⟩)
      fun q hq => ⟨(hready q hq).1, .inr ⟨rfl, _, hev, (hready q hq).2⟩⟩

theorem Trace.after (hS : Sound cfg P h) (ht : Trace cfg now r D P as Q) : After now D P as Q ∧ Sound cfg Q h := by
  induction ht with
  | nil => exact ⟨.refl, hS⟩
  | snoc _ hd ih =>
    obtain ⟨hafter, hS'⟩ := ih
    obtain ⟨hlast, hS''⟩ := hd.after hS'
    exact ⟨hafter.trans hlast, hS''⟩

/-! ### The acts on the heap come to an end -/

def weigh (w : Parker → Waiting) (hl : List Parker) : ℕ :=
  (hl.map fun p => if (w p).probePending then 2 else 1).sum

def Pool.weight (P : Pool) : ℕ := weigh P.waiting ((List.range P.base.dh.size).map P.base.dh.arr)

theorem weigh_congr {w w' : Parker → Waiting} {hl : List Parker}
    (hw : ∀ p ∈ hl, (w' p).probePending = (w p).probePending) : weigh w' hl = weigh w hl := by
  unfold weigh
  congr 1
  apply map_congr_left
  intro p hp
  rw [hw p hp]

theorem weigh_erase (w : Parker → Waiting) {hl : List Parker} (hp : p ∈ hl) :
    weigh w hl = (if (w p).probePending then 2 else 1) + weigh w (hl.erase p) := by
  unfold weigh
  rw [((perm_cons_erase hp).map _).sum_eq, map_cons, sum_cons]

namespace PoolInv

variable {l hl : List Parker} {b : ℕ → List Parker}

theorem weight_eq (hI : PoolInv cfg P h l b hl) : P.weight = weigh P.waiting hl :=
  (hI.heap.perm.map _).sum_eq

end PoolInv

theorem weigh_le (w : Parker → Waiting) (hl : List Parker) : weigh w hl ≤ 2 * hl.length := by
  induction hl with
  | nil => exact le_rfl
  | cons p hl ih =>
    unfold weigh at ih ⊢
    rw [map_cons, sum_cons, length_cons]
    split <;> omega

theorem weight_le (P : Pool) : P.weight ≤ 2 * P.base.dh.size := by
  have hle := weigh_le P.waiting ((List.range P.base.dh.size).map P.base.dh.arr)
  rw [length_map, length_range] at hle
  exact hle

theorem Does.weight_lt (hS : Sound cfg P h) (hd : Does cfg now r D P a Q) (ha : ∀ p, a ≠ .error p) :
    Q.weight + 1 ≤ P.weight := by
  obtain ⟨l, b, hl, hI⟩ := hS
  cases hd with
  | @probe p hheap hdue hpend =>
    have hp := hI.heap.members.mp hheap
    have hother : ∀ q ∈ hl.erase p, ((P.rekey cfg p r).waiting q).probePending = (P.waiting q).probePending := by
      intro q hq
      show (update P.waiting p _ q).probePending = _
      rw [update_of_ne (hI.heap.nodup.mem_erase_iff.mp hq).1]
    have hself : ((P.rekey cfg p r).waiting p).probePending = false := by
      show (update P.waiting p _ p).probePending = _
      rw [update_self]
    rw [(hI.rekey hp r).weight_eq, hI.weight_eq, weigh_erase P.waiting hp, if_pos hpend, PoolInv.rekeyed]
    split
    · rw [show weigh (P.rekey cfg p r).waiting (p :: hl.erase p) = (if ((P.rekey cfg p r).waiting p).probePending then
        2 else 1) + weigh (P.rekey cfg p r).waiting (hl.erase p) from rfl, hself, weigh_congr hother]
      simp only [Bool.false_eq_true, if_false]
      omega
    · rw [weigh_congr hother]
      omega
  | @timeout p hheap hdue hpend hc =>
    have hp := hI.heap.members.mp hheap
    have hpl := (hI.mem_heap_iff.mp hp).1
    have hsame : weigh (P.claim cfg p 0).waiting (hl.erase p) = weigh P.waiting (hl.erase p) :=
      weigh_congr fun q _ => ((claimed_waiting P p 0).1 q).2
    rw [(hI.claim hpl 0).weight_eq, hI.weight_eq, weigh_erase P.waiting hp, hsame]
    split <;> omega
  | @drop p hheap hdue hpend hc =>
    have hp := hI.heap.members.mp hheap
    have hpl := (hI.mem_heap_iff.mp hp).1
    rw [(hI.drop hpl).weight_eq, hI.weight_eq, weigh_erase P.waiting hp,
      show weigh (P.drop cfg p).waiting (hl.erase p) = weigh P.waiting (hl.erase p) from rfl]
    split <;> omega
  | error => exact absurd rfl (ha _)

end Runloom.ParkerPool
