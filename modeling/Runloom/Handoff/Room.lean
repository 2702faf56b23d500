import Mathlib.Data.List.Nodup

/-!
# Waiting for a grant

A primitive that hands itself over: a call that has to wait puts a cell in a queue and parks; whoever lets it go on
sets the cell's flag under a guard, leaves the guard, and then wakes the parked fiber. A park may return at any time,
so the fiber looks at the flag under the guard, and parks again when it is not set.

A `Room` has the calls of such a primitive, their flags, and the wakes that are pending.
-/

namespace Runloom.Handoff

open List
open Function (update update_self update_of_ne)

/-- Where a call is; `R` is what it can return. -/
inductive Pc (C R : Type*) where
  | idle
  | waiting
  | parked
  | woken
  | expired
  | waking (cs : List C) (r : R)
  | returned (r : R)
deriving DecidableEq

namespace Pc

variable {C R : Type*}

/-- The way out of the guard of a call that has `cs` to wake. -/
def finish : List C → R → Pc C R
  | [], r => .returned r
  | c :: cs, r => .waking (c :: cs) r

def asleep : Pc C R → Bool
  | .waiting | .parked => true
  | _ => false

def inLoop : Pc C R → Bool
  | .waiting | .parked | .woken | .expired => true
  | _ => false

def toWake : Pc C R → List C
  | .waking cs _ => cs
  | _ => []

def result : Pc C R → Option R
  | .waking _ r | .returned r => some r
  | _ => none

@[simp] theorem result_finish (cs : List C) (r : R) : (finish cs r).result = some r := by
  cases cs <;> rfl

@[simp] theorem toWake_finish (cs : List C) (r : R) : (finish cs r).toWake = cs := by
  cases cs <;> rfl

@[simp] theorem asleep_finish (cs : List C) (r : R) : (finish cs r).asleep = false := by
  cases cs <;> rfl

@[simp] theorem inLoop_finish (cs : List C) (r : R) : (finish cs r).inLoop = false := by
  cases cs <;> rfl

end Pc

structure Room (C R : Type*) where
  pc : C → Pc C R
  granted : C → Bool
  credit : C → Bool

namespace Room

variable {C R : Type*} [DecidableEq C]

def goto (x : Room C R) (c : C) (pc : Pc C R) : Room C R :=
  { x with pc := update x.pc c pc }

/-- The flags of `cs` are set. -/
def grant (x : Room C R) (cs : List C) : Room C R :=
  { x with granted := fun c => if c ∈ cs then true else x.granted c }

/-- The steps of a call outside the guard. -/
def next (x : Room C R) (late : Bool) (c : C) : Option (Room C R) :=
  match x.pc c with
  | .waiting => some (x.goto c (if late then .expired else .parked))
  | .parked => some ({ x with credit := update x.credit c false }.goto c .woken)
  | .waking (w :: cs) r =>
    some ({ x with credit := update x.credit w true }.goto c (.finish cs r))
  | _ => none

def check (x : Room C R) (c : C) (r : R) : Room C R :=
  x.goto c (if x.granted c then .returned r else .waiting)

end Room

/-! ## No grant is slept through -/

section Woken

variable {C R : Type*} {x x' : Room C R} {c : C} {pc : Pc C R} {cs : List C} {r : R}

/-- Some call still has to wake `c`. -/
def Owed (x : Room C R) (c : C) : Prop := ∃ d, c ∈ (x.pc d).toWake

/-- A call that sleeps although its flag is set has a wake pending, or is owed one. -/
def Woken (x : Room C R) : Prop :=
  ∀ c, (x.pc c).asleep = true → x.granted c = true → x.credit c = true ∨ Owed x c

theorem woken_of_idle (h : ∀ c, x.pc c = .idle) : Woken x := by
  intro c hc
  rw [h] at hc
  cases hc

variable [DecidableEq C]

theorem Owed.mono {d : C} (h : Owed x d) (hold : (x.pc c).toWake = [])
    (hpc : x'.pc = update x.pc c pc) : Owed x' d := by
  obtain ⟨e, he⟩ := h
  refine ⟨e, ?_⟩
  have hec : e ≠ c := by
    rintro rfl
    rw [hold] at he
    cases he
  rw [hpc, update_of_ne hec]
  exact he

theorem Woken.goto (h : Woken x) (hold : (x.pc c).toWake = [])
    (hnew : pc.asleep = true → x.granted c = false) : Woken (x.goto c pc) := by
  intro d hd hg
  by_cases hdc : d = c
  · subst hdc
    simp only [Room.goto, update_self] at hd
    rw [show x.granted d = true from hg] at hnew
    cases hnew hd
  · simp only [Room.goto, update_of_ne hdc] at hd
    exact (h d hd hg).imp id fun hd => hd.mono hold rfl

theorem Woken.grant (h : Woken x) (hold : (x.pc c).toWake = []) : Woken ((x.grant cs).goto c (.finish cs r)) := by
  intro d hd hg
  have hdc : d ≠ c := by
    rintro rfl
    simp [Room.goto] at hd
  by_cases hmem : d ∈ cs
  · right
    refine ⟨c, ?_⟩
    simpa [Room.goto] using hmem
  · have hg' : x.granted d = true := by simpa [Room.grant, Room.goto, hmem] using hg
    have hx : Woken (x.goto c (.finish cs r)) := h.goto hold (by simp)
    exact hx d hd hg'

theorem Woken.next {late : Bool} (h : Woken x) (hn : x.next late c = some x') : Woken x' := by
  unfold Room.next at hn
  split at hn <;> cases hn
  next hpc =>
    intro d hd hg
    have hpc' : (x.pc d).asleep = true := by
      by_cases hdc : d = c
      · rw [hdc, hpc]
        rfl
      · simpa only [Room.goto, update_of_ne hdc] using hd
    refine (h d hpc' hg).imp id fun hd => hd.mono ?_ rfl
    rw [hpc]
    rfl
  next hpc =>
    intro d hd hg
    have hdc : d ≠ c := by
      rintro rfl
      simp only [Room.goto, update_self] at hd
      cases hd
    simp only [Room.goto, update_of_ne hdc] at hd ⊢
    refine (h d hd hg).imp id fun hd => hd.mono ?_ rfl
    rw [hpc]
    rfl
  next w cs r hpc =>
    intro d hd hg
    have hdc : d ≠ c := by
      rintro rfl
      simp [Room.goto] at hd
    simp only [Room.goto, update_of_ne hdc] at hd ⊢
    -- The wake goes from what `c` owes to what is pending.
    by_cases hdw : d = w
    · left
      rw [hdw, update_self]
    · rw [update_of_ne hdw]
      refine (h d hd hg).imp id ?_
      rintro ⟨e, he⟩
      refine ⟨e, ?_⟩
      by_cases hec : e = c
      · subst hec
        rw [hpc] at he
        simpa only [update_self, Pc.toWake_finish] using (mem_cons.mp he).resolve_left hdw
      · simpa only [update_of_ne hec] using he

theorem Woken.check (h : Woken x) (hpc : x.pc c = .woken) : Woken (x.check c r) := by
  apply h.goto
  · rw [hpc]
    rfl
  · cases x.granted c with
    | true => exact fun h => by cases h
    | false => exact fun _ => rfl

end Woken

/-! ## Queues and grants -/

section Seated

variable {C R : Type*} {x x' : Room C R} {yes r : R} {queue queue' granted : List C} {c : C} {pc : Pc C R}
  {cs : List C}

/-- The queues have the cells of `queue`, and the calls of `granted` were let in, in that order, to return `yes`. -/
structure Seated (x : Room C R) (yes : R) (queue granted : List C) : Prop where
  nodup : queue.Nodup
  once : granted.Nodup
  apart : ∀ c ∈ queue, c ∉ granted
  flag : ∀ c, x.granted c = true → c ∈ granted
  waits : ∀ c ∈ queue, (x.pc c).inLoop = true ∧ x.granted c = false
  loop : ∀ c, (x.pc c).inLoop = true → c ∈ queue ∨ x.granted c = true
  fresh : ∀ c, x.pc c = .idle → c ∉ granted
  result : ∀ c r, (x.pc c).result = some r → (r = yes ↔ c ∈ granted)
  woken : Woken x

theorem seated_nil (hpc : ∀ c, x.pc c = .idle) (hflag : ∀ c, x.granted c = false) : Seated x yes [] [] where
  nodup := nodup_nil
  once := nodup_nil
  apart c hc := by cases hc
  flag c hc := by
    rw [hflag] at hc
    cases hc
  waits c hc := by cases hc
  loop c hc := by
    rw [hpc] at hc
    cases hc
  fresh _ _ := not_mem_nil
  result c r hc := by
    rw [hpc] at hc
    cases hc
  woken := woken_of_idle hpc

section

variable (h : Seated x yes queue granted)
include h

theorem Seated.notMem_of_not_inLoop (hc : (x.pc c).inLoop = false) : c ∉ queue := by
  intro hmem
  rw [(h.waits c hmem).1] at hc
  cases hc

theorem Seated.mem_of_inLoop (hc : (x.pc c).inLoop = true) (hflag : x.granted c = false) : c ∈ queue := by
  refine (h.loop c hc).resolve_right fun htrue => ?_
  rw [hflag] at htrue
  cases htrue

theorem Seated.flag_of_idle (hc : x.pc c = .idle) : x.granted c = false := by
  rw [Bool.eq_false_iff]
  exact fun htrue => h.fresh c hc (h.flag c htrue)

theorem Seated.perm (hperm : queue.Perm queue') : Seated x yes queue' granted where
  nodup := hperm.nodup h.nodup
  once := h.once
  apart c hc := h.apart c (hperm.mem_iff.mpr hc)
  flag := h.flag
  waits c hc := h.waits c (hperm.mem_iff.mpr hc)
  loop c hc := (h.loop c hc).imp hperm.mem_iff.mp id
  fresh := h.fresh
  result := h.result
  woken := h.woken

end

variable [DecidableEq C]

section

variable (h : Seated x yes queue granted)
include h

theorem Seated.setPc (hpc : x'.pc = update x.pc c pc)
    (hgr : x'.granted = x.granted) (hloop : pc.inLoop = true → (x.pc c).inLoop = true)
    (hwait : c ∈ queue → pc.inLoop = true) (hidle : pc ≠ .idle)
    (hres : ∀ r, pc.result = some r → (r = yes ↔ c ∈ granted)) (hw : Woken x') :
    Seated x' yes queue granted := by
  have hself : x'.pc c = pc := by rw [hpc, update_self]
  have hother : ∀ d, d ≠ c → x'.pc d = x.pc d := fun d hd => by rw [hpc, update_of_ne hd]
  exact { h with
    flag := fun d hd => h.flag d (hgr ▸ hd)
    waits := fun d hd => by
      rw [hgr]
      refine ⟨?_, (h.waits d hd).2⟩
      by_cases hdc : d = c
      · subst hdc
        rw [hself]
        exact hwait hd
      · rw [hother d hdc]
        exact (h.waits d hd).1
    loop := fun d hd => by
      rw [hgr]
      by_cases hdc : d = c
      · subst hdc
        rw [hself] at hd
        exact h.loop d (hloop hd)
      · rw [hother d hdc] at hd
        exact h.loop d hd
    fresh := fun d hd => by
      by_cases hdc : d = c
      · subst hdc
        exact absurd (hself.symm.trans hd) hidle
      · rw [hother d hdc] at hd
        exact h.fresh d hd
    result := fun d r hd => by
      by_cases hdc : d = c
      · subst hdc
        rw [hself] at hd
        exact hres r hd
      · rw [hother d hdc] at hd
        exact h.result d r hd
    woken := hw }

theorem Seated.refuse (hc : x.pc c = .idle) (hr : r ≠ yes) :
    Seated (x.goto c (.returned r)) yes queue granted := by
  refine h.setPc rfl rfl (fun h => by cases h) (fun hmem => ?_) (fun h => by cases h) (fun r' hr' => ?_) ?_
  · refine absurd hmem (h.notMem_of_not_inLoop ?_)
    rw [hc]
    rfl
  · cases hr'
    exact iff_of_false hr (h.fresh c hc)
  · refine h.woken.goto ?_ fun h => by cases h
    rw [hc]
    rfl

theorem Seated.take (hc : x.pc c = .idle) : Seated (x.goto c (.returned yes)) yes queue (granted ++ [c]) := by
  have hout : c ∉ queue := by
    apply h.notMem_of_not_inLoop
    rw [hc]
    rfl
  have hself : (x.goto c (.returned yes)).pc c = .returned yes := update_self ..
  have hother : ∀ d, d ≠ c → (x.goto c (.returned yes)).pc d = x.pc d :=
    fun d hd => update_of_ne hd ..
  have hmem : ∀ d, d ∈ granted ++ [c] ↔ d ∈ granted ∨ d = c := fun d => by
    rw [mem_append, mem_singleton]
  exact { h with
    once := nodup_append'.mpr ⟨h.once, nodup_singleton c, fun d hd hdc =>
      h.fresh c hc (mem_singleton.mp hdc ▸ hd)⟩
    apart := fun d hd hg => by
      rcases (hmem d).mp hg with hg | rfl
      · exact h.apart d hd hg
      · exact hout hd
    flag := fun d hd => (hmem d).mpr (.inl (h.flag d hd))
    waits := fun d hd => by
      rw [hother d fun h => hout (h ▸ hd)]
      exact h.waits d hd
    loop := fun d hd => by
      have hdc : d ≠ c := by
        rintro rfl
        rw [hself] at hd
        cases hd
      rw [hother d hdc] at hd
      exact h.loop d hd
    fresh := fun d hd hg => by
      have hdc : d ≠ c := by
        rintro rfl
        rw [hself] at hd
        cases hd
      rw [hother d hdc] at hd
      exact h.fresh d hd (((hmem d).mp hg).resolve_right hdc)
    result := fun d r hd => by
      rw [hmem d]
      by_cases hdc : d = c
      · subst hdc
        rw [hself] at hd
        cases hd
        exact iff_of_true rfl (.inr rfl)
      · rw [hother d hdc] at hd
        rw [h.result d r hd]
        exact ⟨.inl, fun h => h.resolve_right hdc⟩
    woken := by
      refine h.woken.goto ?_ fun h => by cases h
      rw [hc]
      rfl }

theorem Seated.enqueue (hc : x.pc c = .idle) : Seated (x.goto c .waiting) yes (queue ++ [c]) granted := by
  have hout : c ∉ queue := by
    apply h.notMem_of_not_inLoop
    rw [hc]
    rfl
  have hself : (x.goto c .waiting).pc c = .waiting := update_self ..
  have hother : ∀ d, d ≠ c → (x.goto c .waiting).pc d = x.pc d :=
    fun d hd => update_of_ne hd ..
  have hmem : ∀ d, d ∈ queue ++ [c] ↔ d ∈ queue ∨ d = c := fun d => by
    rw [mem_append, mem_singleton]
  exact { h with
    nodup := nodup_append'.mpr ⟨h.nodup, nodup_singleton c, fun d hd hdc =>
      hout (mem_singleton.mp hdc ▸ hd)⟩
    apart := fun d hd => by
      rcases (hmem d).mp hd with hd | rfl
      · exact h.apart d hd
      · exact h.fresh d hc
    waits := fun d hd => by
      rcases (hmem d).mp hd with hd | rfl
      · rw [hother d fun h => hout (h ▸ hd)]
        exact h.waits d hd
      · rw [hself]
        exact ⟨rfl, h.flag_of_idle hc⟩
    loop := fun d hd => by
      rw [hmem d]
      by_cases hdc : d = c
      · exact .inl (.inr hdc)
      · rw [hother d hdc] at hd
        exact (h.loop d hd).imp .inl id
    fresh := fun d hd => by
      have hdc : d ≠ c := by
        rintro rfl
        rw [hself] at hd
        cases hd
      rw [hother d hdc] at hd
      exact h.fresh d hd
    result := fun d r hd => by
      have hdc : d ≠ c := by
        rintro rfl
        rw [hself] at hd
        cases hd
      rw [hother d hdc] at hd
      exact h.result d r hd
    woken := by
      refine h.woken.goto ?_ fun _ => h.flag_of_idle hc
      rw [hc]
      rfl }

/-- The section of `c` ends: the cells of `cs` leave the queue with their flags set, and `c` has the wakes to make. -/
theorem Seated.grant (hr : r ≠ yes) (hwake : (x.pc c).toWake = [])
    (hng : c ∉ granted) (hperm : (queue.erase c).Perm (cs ++ queue')) :
    Seated ((x.grant cs).goto c (.finish cs r)) yes queue' (granted ++ cs) := by
  have hnodup : (cs ++ queue').Nodup := hperm.nodup (h.nodup.erase c)
  have hc : c ∉ cs ++ queue' := fun hc => h.nodup.not_mem_erase (hperm.mem_iff.mpr hc)
  have hmem : ∀ d, d ≠ c → (d ∈ queue ↔ d ∈ cs ++ queue') := fun d hd => by
    rw [← hperm.mem_iff, mem_erase_of_ne hd]
  have hself : ((x.grant cs).goto c (.finish cs r)).pc c = .finish cs r := update_self ..
  have hother : ∀ d, d ≠ c → ((x.grant cs).goto c (.finish cs r)).pc d = x.pc d :=
    fun d hd => update_of_ne hd ..
  have hcs : ∀ d ∈ cs, d ≠ c ∧ d ∈ queue := by
    intro d hd
    have hdc : d ≠ c := fun h => hc (h ▸ mem_append_left _ hd)
    exact ⟨hdc, (hmem d hdc).mpr (mem_append_left _ hd)⟩
  have hrest : ∀ d ∈ queue', d ≠ c ∧ d ∈ queue := by
    intro d hd
    have hdc : d ≠ c := fun h => hc (h ▸ mem_append_right _ hd)
    exact ⟨hdc, (hmem d hdc).mpr (mem_append_right _ hd)⟩
  have hsep : ∀ d ∈ queue', d ∉ cs := fun d hd hd' => disjoint_of_nodup_append hnodup hd' hd
  have hout : ∀ d, (x.pc d).inLoop = false → d ∉ cs := fun d hd hd' =>
    h.notMem_of_not_inLoop hd (hcs d hd').2
  exact {
    nodup := (nodup_append.mp hnodup).2.1
    once := nodup_append'.mpr ⟨h.once, (nodup_append.mp hnodup).1, fun d hd hd' =>
      h.apart d (hcs d hd').2 hd⟩
    apart := fun d hd hg => by
      rcases mem_append.mp hg with hg | hg
      · exact h.apart d (hrest d hd).2 hg
      · exact hsep d hd hg
    flag := fun d hd => by
      simp only [Room.grant, Room.goto] at hd
      split at hd
      next hd' => exact mem_append_right _ hd'
      next => exact mem_append_left _ (h.flag d hd)
    waits := fun d hd => by
      obtain ⟨hdc, hq⟩ := hrest d hd
      rw [hother d hdc]
      refine ⟨(h.waits d hq).1, ?_⟩
      simp only [Room.grant, Room.goto, if_neg (hsep d hd)]
      exact (h.waits d hq).2
    loop := fun d hd => by
      have hdc : d ≠ c := by
        rintro rfl
        rw [hself, Pc.inLoop_finish] at hd
        cases hd
      rw [hother d hdc] at hd
      simp only [Room.grant, Room.goto]
      split
      next => exact .inr rfl
      next hd' =>
        refine (h.loop d hd).imp (fun hq => ?_) id
        exact (mem_append.mp ((hmem d hdc).mp hq)).resolve_left hd'
    fresh := fun d hd hg => by
      have hdc : d ≠ c := by
        rintro rfl
        rw [hself] at hd
        cases cs <;> cases hd
      rw [hother d hdc] at hd
      rcases mem_append.mp hg with hg | hg
      · exact h.fresh d hd hg
      · refine hout d ?_ hg
        rw [hd]
        rfl
    result := fun d r' hd => by
      rw [mem_append]
      by_cases hdc : d = c
      · subst hdc
        rw [hself, Pc.result_finish] at hd
        cases hd
        refine iff_of_false hr ?_
        rintro (hg | hg)
        · exact hng hg
        · exact (hcs d hg).1 rfl
      · rw [hother d hdc] at hd
        rw [h.result d r' hd, or_iff_left]
        apply hout
        cases hpc : x.pc d with
        | waking cs r | returned r => rfl
        | _ =>
          rw [hpc] at hd
          cases hd
    woken := h.woken.grant hwake }

theorem Seated.next {late : Bool} (hn : x.next late c = some x') :
    Seated x' yes queue granted := by
  have hw := h.woken.next hn
  unfold Room.next at hn
  split at hn <;> cases hn
  next hpc =>
    refine h.setPc rfl rfl (fun _ => ?_) (fun _ => ?_) ?_ (fun r hr => ?_) hw
    · rw [hpc]
      rfl
    · cases late <;> rfl
    · cases late <;> exact fun h => by cases h
    · cases late <;> cases hr
  next hpc =>
    refine h.setPc rfl rfl (fun _ => ?_) (fun _ => rfl) (fun h => by cases h) (fun r hr => by cases hr) hw
    rw [hpc]
    rfl
  next w cs r hpc =>
    refine h.setPc rfl rfl (fun hl => ?_) (fun hc => ?_) ?_ (fun r' hr => ?_) hw
    · rw [Pc.inLoop_finish] at hl
      cases hl
    · have hl := (h.waits c hc).1
      rw [hpc] at hl
      cases hl
    · cases cs <;> exact fun h => by cases h
    · rw [Pc.result_finish] at hr
      apply h.result c r'
      rw [hpc]
      exact hr

theorem Seated.settle (hwake : (x.pc c).toWake = [])
    (hflag : x.granted c = true) : Seated (x.goto c (.returned yes)) yes queue granted := by
  refine h.setPc rfl rfl (fun h => by cases h) (fun hc => ?_) (fun h => by cases h) (fun r hr => ?_)
    (h.woken.goto hwake fun h => by cases h)
  · rw [(h.waits c hc).2] at hflag
    cases hflag
  · cases hr
    exact iff_of_true rfl (h.flag c hflag)

theorem Seated.check (hpc : x.pc c = .woken) : Seated (x.check c yes) yes queue granted := by
  have hw : Woken (x.check c yes) := h.woken.check hpc
  unfold Room.check at hw ⊢
  cases hflag : x.granted c with
  | true =>
    refine h.settle ?_ hflag
    rw [hpc]
    rfl
  | false =>
    rw [hflag] at hw
    refine h.setPc rfl rfl (fun _ => ?_) (fun _ => rfl) (fun h => by cases h) (fun r hr => by cases hr) hw
    rw [hpc]
    rfl

end

end Seated

end Runloom.Handoff
