import Mathlib.Data.List.Nodup

/-!
# Queues of tickets

A queue in which a call that has to wait leaves a ticket with two flags.  Whoever has something to give takes tickets
from the front until it finds an active one, and sets that one's flag `granted`.
-/

namespace Runloom.Handoff

open List
open Function (update update_self update_of_ne)

structure Tickets (C : Type*) where
  waiters : List C
  active : C → Bool
  granted : C → Bool

namespace Tickets

variable {C : Type*}

def popActive (active : C → Bool) : List C → Option C × List C
  | [] => (none, [])
  | c :: cs => if active c then (some c, cs) else popActive active cs

theorem popActive_eq_some {active : C → Bool} {l rest : List C} {c : C} (h : popActive active l = (some c, rest)) :
    ∃ pre, l = pre ++ c :: rest ∧ (∀ d ∈ pre, active d = false) ∧ active c = true := by
  induction l with
  | nil => cases h
  | cons d l ih =>
    unfold popActive at h
    split at h
    next hd =>
      cases h
      exact ⟨[], rfl, nofun, hd⟩
    next hd =>
      obtain ⟨pre, rfl, hpre, hc⟩ := ih h
      refine ⟨d :: pre, rfl, ?_, hc⟩
      rintro e he
      rcases mem_cons.mp he with rfl | he
      · exact Bool.eq_false_iff.mpr hd
      · exact hpre e he

theorem popActive_eq_none {active : C → Bool} {l rest : List C} (h : popActive active l = (none, rest)) :
    rest = [] ∧ ∀ c ∈ l, active c = false := by
  induction l with
  | nil =>
    cases h
    exact ⟨rfl, nofun⟩
  | cons d l ih =>
    unfold popActive at h
    split at h
    next => cases h
    next hd =>
      obtain ⟨hrest, hl⟩ := ih h
      refine ⟨hrest, fun c hc => ?_⟩
      rcases mem_cons.mp hc with rfl | hc
      · exact Bool.eq_false_iff.mpr hd
      · exact hl c hc

variable [DecidableEq C]

def append (x : Tickets C) (c : C) : Tickets C where
  waiters := x.waiters ++ [c]
  active := update x.active c true
  granted := update x.granted c false

def deactivate (x : Tickets C) (c : C) : Tickets C :=
  { x with active := update x.active c false }

def hand (x : Tickets C) : Option C × Tickets C :=
  match popActive x.active x.waiters with
  | (some c, rest) => (some c, { x with waiters := rest, granted := update x.granted c true })
  | (none, rest) => (none, { x with waiters := rest })

theorem hand_cases (x : Tickets C) :
    (∃ c pre rest, x.waiters = pre ++ c :: rest ∧ (∀ d ∈ pre, x.active d = false) ∧ x.active c = true ∧
      x.hand = (some c, { x with waiters := rest, granted := update x.granted c true })) ∨
    (∀ c ∈ x.waiters, x.active c = false) ∧ x.hand = (none, { x with waiters := [] }) := by
  unfold hand
  cases h : popActive x.active x.waiters with
  | mk first rest =>
    cases first with
    | some c =>
      obtain ⟨pre, hl, hpre, hc⟩ := popActive_eq_some h
      exact .inl ⟨c, pre, rest, hl, hpre, hc, rfl⟩
    | none =>
      obtain ⟨rfl, hl⟩ := popActive_eq_none h
      exact .inr ⟨hl, rfl⟩

end Tickets

/-! ## The order of arrival -/

section Ordered

variable {C : Type*} {x : Tickets C} {arrivals : List C} {c : C}

/-- The tickets of `arrivals` came in that order; those that are not in the queue any more are spent. -/
structure Ordered (x : Tickets C) (arrivals : List C) : Prop where
  nodup : arrivals.Nodup
  split : ∃ gone, arrivals = gone ++ x.waiters ∧ ∀ c ∈ gone, x.active c = false ∨ x.granted c = true
  waits : ∀ c ∈ x.waiters, x.granted c = false
  known : ∀ c, x.granted c = true → c ∈ arrivals

theorem ordered_nil (h : x.waiters = []) (hg : ∀ c, x.granted c = false) : Ordered x [] where
  nodup := nodup_nil
  split := ⟨[], by rw [h]; rfl, nofun⟩
  waits c _ := hg c
  known c hc := by
    rw [hg] at hc
    cases hc

theorem Ordered.mem (h : Ordered x arrivals) (hc : c ∈ x.waiters) : c ∈ arrivals := by
  obtain ⟨gone, rfl, -⟩ := h.split
  exact mem_append_right _ hc

theorem Ordered.filter_eq (h : Ordered x arrivals) :
    arrivals.filter (fun c => x.active c && !x.granted c) = x.waiters.filter x.active := by
  obtain ⟨gone, rfl, hgone⟩ := h.split
  have hnone : gone.filter (fun c => x.active c && !x.granted c) = [] := by
    rw [filter_eq_nil_iff]
    intro c hc
    rcases hgone c hc with h | h <;> simp [h]
  have hall : x.waiters.filter (fun c => x.active c && !x.granted c) = x.waiters.filter x.active := by
    apply filter_congr
    intro c hc
    rw [h.waits c hc]
    simp
  rw [filter_append, hnone, hall, nil_append]

variable [DecidableEq C]

section

variable (h : Ordered x arrivals)
include h

theorem Ordered.append (hc : c ∉ arrivals) : Ordered (x.append c) (arrivals ++ [c]) where
  nodup := nodup_append'.mpr ⟨h.nodup, nodup_singleton c, fun d hd hdc =>
    hc (mem_singleton.mp hdc ▸ hd)⟩
  split := by
    obtain ⟨gone, rfl, hgone⟩ := h.split
    refine ⟨gone, append_assoc .., fun d hd => ?_⟩
    have hdc : d ≠ c := by
      rintro rfl
      exact hc (mem_append_left _ hd)
    show update x.active c true d = false ∨ update x.granted c false d = true
    rw [update_of_ne hdc, update_of_ne hdc]
    exact hgone d hd
  waits d hd := by
    show update x.granted c false d = false
    by_cases hdc : d = c
    · rw [hdc, update_self]
    · rw [update_of_ne hdc]
      refine h.waits d ((mem_append.mp hd).resolve_right fun h => hdc (mem_singleton.mp h))
  known d hd := by
    have hd' : update x.granted c false d = true := hd
    have hdc : d ≠ c := by
      rintro rfl
      rw [update_self] at hd'
      cases hd'
    rw [update_of_ne hdc] at hd'
    exact mem_append_left _ (h.known d hd')

theorem Ordered.deactivate : Ordered (x.deactivate c) arrivals where
  nodup := h.nodup
  split := by
    obtain ⟨gone, hsplit, hgone⟩ := h.split
    refine ⟨gone, hsplit, fun d hd => ?_⟩
    show update x.active c false d = false ∨ x.granted d = true
    by_cases hdc : d = c
    · left
      rw [hdc, update_self]
    · rw [update_of_ne hdc]
      exact hgone d hd
  waits := h.waits
  known := h.known

theorem Ordered.hand : Ordered x.hand.2 arrivals := by
  obtain ⟨gone, hsplit, hgone⟩ := h.split
  rcases x.hand_cases with ⟨c, pre, rest, hl, hpre, hc, heq⟩ | ⟨hl, heq⟩
  · rw [heq]
    have hnd : (pre ++ c :: rest).Nodup := by
      have := h.nodup
      rw [hsplit, hl] at this
      exact (nodup_append.mp this).2.1
    have hkeep : ∀ d, x.granted d = true → update x.granted c true d = true := by
      intro d hd
      by_cases hdc : d = c
      · rw [hdc, update_self]
      · rwa [update_of_ne hdc]
    -- Those before the one that is served are dead, and go with it.
    refine ⟨h.nodup, ⟨gone ++ pre ++ [c], ?_, fun d hd => ?_⟩, fun d hd => ?_, fun d hd => ?_⟩
    · rw [hsplit, hl]
      simp
    · show x.active d = false ∨ update x.granted c true d = true
      rcases mem_append.mp hd with hd | hd
      · rcases mem_append.mp hd with hd | hd
        · exact (hgone d hd).imp id (hkeep d)
        · exact .inl (hpre d hd)
      · right
        rw [mem_singleton.mp hd, update_self]
    · show update x.granted c true d = false
      have hdc : d ≠ c := by
        rintro rfl
        exact (nodup_cons.mp (nodup_append.mp hnd).2.1).1 hd
      rw [update_of_ne hdc]
      apply h.waits
      rw [hl]
      exact mem_append_right _ (mem_cons_of_mem c hd)
    · by_cases hdc : d = c
      · apply h.mem
        rw [hdc, hl]
        exact mem_append_right _ mem_cons_self
      · have hd' : update x.granted c true d = true := hd
        rw [update_of_ne hdc] at hd'
        exact h.known d hd'
  · rw [heq]
    -- Nobody is left to serve.
    refine ⟨h.nodup, ⟨arrivals, (append_nil _).symm, fun d hd => ?_⟩, nofun, h.known⟩
    rw [hsplit] at hd
    rcases mem_append.mp hd with hd | hd
    · exact hgone d hd
    · exact .inl (hl d hd)

theorem Ordered.hand_first : x.hand.1 = (arrivals.filter fun c => x.active c && !x.granted c).head? := by
  rw [h.filter_eq]
  rcases x.hand_cases with ⟨c, pre, rest, hl, hpre, hc, heq⟩ | ⟨hl, heq⟩
  · rw [heq, hl, filter_append, filter_eq_nil_iff.mpr fun d hd => by simp [hpre d hd],
      nil_append, filter_cons_of_pos hc]
    rfl
  · rw [heq, filter_eq_nil_iff.mpr fun d hd => by simp [hl d hd]]
    rfl

end

end Ordered

end Runloom.Handoff
